import GrammarTrees.Proofs.Grammar.Imports
import GrammarTrees.Proofs.Integration.Passes
import GrammarTrees.Proofs.LexerExtraction.Splitting
import GrammarTrees.Proofs.Template.Once
import GrammarTrees.Proofs.TreeText.RoundTrip

/-! Runs of structural transforms: grammars are loaded and import each other, imports are
integrated, lexers are split off and registered. No transform fails, and each one leaves the trees
of all grammars well-formed and apart. -/

namespace GrammarTrees

/-- A set of grammars and the lexers that were split off and have not been registered. -/
structure Workspace where
  set : GrammarSet
  lexers : List ImplicitLexer

inductive Transform where
  | load (file source : String)
  | addImport (id delegate : GrammarId)
  | integrate (id : GrammarId)
  | extract (id : GrammarId)
  /-- Registers the lexer with the given number among those not yet registered. -/
  | register (file : String) (lexer : Nat)

inductive TransformFault where
  | wrongImport (fault : ImportFault)
  | refusedEdit (fault : EditFault)
deriving DecidableEq, Repr

namespace Workspace

def empty : Workspace := ⟨.empty, []⟩

/-- The roots of all grammars and lexers. -/
def roots (w : Workspace) : List NodeId :=
  (w.set.ids.map fun g => (w.set.grammar g).root) ++ w.lexers.map ImplicitLexer.root

end Workspace

namespace Transform

def run (w : Workspace) : Transform → Except TransformFault Workspace
  | load file source => .ok { w with set := (w.set.load file source).1 }
  | addImport id delegate =>
    match w.set.addImport id delegate with
    | .ok set => .ok { w with set }
    | .error fault => .error (.wrongImport fault)
  | integrate id =>
    match w.set.integrateImports id with
    | .ok (set, _) => .ok { w with set }
    | .error fault => .error (.refusedEdit fault)
  | extract id =>
    match w.set.extractLexer id with
    | .ok (set, lexer) => .ok ⟨set, w.lexers ++ lexer.toList⟩
    | .error fault => .error (.refusedEdit fault)
  | register file lexer =>
    match w.lexers[lexer]? with
    | some made => .ok ⟨(w.set.add file made.root).1, w.lexers.eraseIdx lexer⟩
    | none => .ok w

/-- The transform is about grammars and lexers that are there, and no grammar imports itself. -/
def Fits (w : Workspace) : Transform → Prop
  | load _ _ => True
  | addImport id delegate => id < w.set.size ∧ delegate < w.set.size ∧ id ≠ delegate
  | integrate id | extract id => id < w.set.size
  | register _ lexer => lexer < w.lexers.length

instance (w : Workspace) (t : Transform) : Decidable (t.Fits w) := by
  cases t <;> unfold Fits <;> infer_instance

/-- Runs transforms one after the other. -/
def runAll (w : Workspace) : List Transform → Except TransformFault Workspace
  | [] => .ok w
  | t :: ts =>
    match t.run w with
    | .ok v => runAll v ts
    | .error fault => .error fault

/-- Each transform fits what the ones before it have left. -/
def AllFit (w : Workspace) : List Transform → Prop
  | [] => True
  | t :: ts =>
    t.Fits w ∧
      match t.run w with
      | .ok v => AllFit v ts
      | .error _ => True

/-- Whether transforms fit is found by running them. -/
def decideAllFit (w : Workspace) : (ts : List Transform) → Decidable (AllFit w ts)
  | [] => .isTrue trivial
  | t :: ts =>
    have : Decidable (match t.run w with
        | .ok v => AllFit v ts
        | .error _ => True) :=
      match t.run w with
      | .ok v => decideAllFit v ts
      | .error _ => .isTrue trivial
    inferInstanceAs (Decidable (t.Fits w ∧ _))

instance (w : Workspace) (ts : List Transform) : Decidable (AllFit w ts) := decideAllFit w ts

end Transform

/-- The trees of all grammars and lexers of a workspace are apart, and imports are registered. -/
structure Workspace.Sound (w : Workspace) : Prop where
  rooted : w.set.forest.Rooted (· ∈ w.roots)
  nodup : w.roots.Nodup
  registered : ∀ g < w.set.size, ∀ h, w.set.Imports g h → h < w.set.size

namespace Workspace

open Forest

variable {w v : Workspace} {s t : GrammarSet} {id delegate : GrammarId} {root : Nat}
  {lexers : List ImplicitLexer}

/-! ### Roots -/

theorem mem_roots_of_lt (h : id < w.set.size) : (w.set.grammar id).root ∈ w.roots :=
  List.mem_append_left _ (List.mem_map_of_mem (List.mem_range.mpr h))

theorem roots_congr (hsize : t.size = s.size)
    (hroot : ∀ g < s.size, (t.grammar g).root = (s.grammar g).root) (lexers : List ImplicitLexer) :
    (⟨t, lexers⟩ : Workspace).roots = (⟨s, lexers⟩ : Workspace).roots := by
  rw [roots, roots, GrammarSet.ids, GrammarSet.ids, hsize]
  congr 1
  exact List.map_congr_left fun g hg => hroot g (List.mem_range.mp hg)

theorem Sound.empty : Workspace.empty.Sound :=
  ⟨⟨.empty, by simp [Workspace.empty, roots, GrammarSet.ids, GrammarSet.size, GrammarSet.empty],
    by simp [Workspace.empty, roots, GrammarSet.ids, GrammarSet.size, GrammarSet.empty]⟩,
    List.nodup_nil, fun _ hg => absurd hg (Nat.not_lt_zero _)⟩

/-- What matters of a grammar are its root and its imports. -/
theorem Sound.congr (hw : w.Sound) (hf : v.set.forest.Rooted (· ∈ w.roots))
    (hsize : v.set.size = w.set.size)
    (hroot : ∀ g < w.set.size, (v.set.grammar g).root = (w.set.grammar g).root)
    (himports : ∀ g < w.set.size, ∀ h, v.set.Imports g h → h < w.set.size)
    (hlexers : v.lexers = w.lexers) : v.Sound := by
  have hroots : v.roots = w.roots := by
    obtain ⟨t, lexers⟩ := v
    subst hlexers
    exact roots_congr hsize hroot w.lexers
  refine ⟨hroots ▸ hf, hroots ▸ hw.nodup, fun g hg h hh => ?_⟩
  rw [hsize] at hg ⊢
  exact himports g hg h hh

theorem grammar_modify (s : GrammarSet) (f : Forest) (id : GrammarId) (k : Grammar → Grammar)
    {g : GrammarId} (hg : g < s.size) :
    (⟨f, s.grammars.modify id k⟩ : GrammarSet).grammar g =
      if g = id then k (s.grammar g) else s.grammar g := by
  simp only [GrammarSet.grammar]
  rw [Array.getElem?_modify, Array.getElem?_eq_getElem hg]
  by_cases he : id = g
  · simp [he]
  · simp [he, Ne.symm he]

/-! ### New grammars -/

theorem grammar_add_of_lt (file : String) (h : id < s.size) :
    ((s.add file root).1).grammar id = s.grammar id := by
  simp only [GrammarSet.add, GrammarSet.grammar]
  rw [Array.getElem?_push_lt h, Array.getElem?_eq_getElem h]

theorem grammar_add_self (s : GrammarSet) (file : String) (root : NodeId) :
    (((s.add file root).1).grammar s.size).root = root ∧
      (((s.add file root).1).grammar s.size).imports = [] := by
  simp only [GrammarSet.add, GrammarSet.grammar, GrammarSet.size]
  rw [Array.getElem?_push_size]
  exact ⟨rfl, rfl⟩

theorem size_add (s : GrammarSet) (file : String) (root : NodeId) :
    ((s.add file root).1).size = s.size + 1 := by
  simp [GrammarSet.add, GrammarSet.size]

theorem roots_add (s : GrammarSet) (lexers : List ImplicitLexer) (file : String) (root : NodeId) :
    (⟨(s.add file root).1, lexers⟩ : Workspace).roots.Perm
      (root :: (⟨s, lexers⟩ : Workspace).roots) := by
  have hids : ((s.add file root).1).ids.map (fun g => (((s.add file root).1).grammar g).root) =
      (s.ids.map fun g => (s.grammar g).root) ++ [root] := by
    rw [GrammarSet.ids, size_add, List.range_succ, List.map_append, List.map_singleton,
      (grammar_add_self s file root).1]
    congr 1
    exact List.map_congr_left fun g hg => by rw [grammar_add_of_lt file (List.mem_range.mp hg)]
  rw [roots, hids, roots, List.append_assoc]
  exact List.perm_middle

/-- A tree of its own becomes a grammar. -/
theorem Sound.add (file : String)
    (hf : s.forest.Rooted (· ∈ root :: (⟨s, lexers⟩ : Workspace).roots))
    (hnodup : (root :: (⟨s, lexers⟩ : Workspace).roots).Nodup)
    (himports : ∀ g < s.size, ∀ h, s.Imports g h → h < s.size) :
    (⟨(s.add file root).1, lexers⟩ : Workspace).Sound := by
  have hperm := roots_add s lexers file root
  have howned := reowned_setOwnerBelow hf.wellFormed root s.size
  refine ⟨⟨howned.wellFormed, fun x hx => ?_, fun x hx => ?_⟩, hperm.nodup_iff.mpr hnodup,
    fun g hg h hh => ?_⟩
  · exact howned.size ▸ hf.lt_size x (hperm.mem_iff.mp hx)
  · exact (howned.parent? x).trans (hf.isRoot x (hperm.mem_iff.mp hx))
  · rw [size_add] at hg ⊢
    rcases Nat.lt_succ_iff_lt_or_eq.mp hg with hlt | rfl
    · rw [GrammarSet.Imports, grammar_add_of_lt file hlt] at hh
      exact Nat.lt_succ_of_lt (himports g hlt h hh)
    · rw [GrammarSet.Imports, (grammar_add_self s file root).2] at hh
      simp at hh

/-! ### Steps -/

theorem Sound.load (hw : w.Sound) (file source : String) :
    (⟨(w.set.load file source).1, w.lexers⟩ : Workspace).Sound := by
  have hf := hw.rooted
  have hgrown := grown_read hf.wellFormed source
  have hsteady := hgrown.steady hf
  have hkept := hsteady.rooted hf
  rw [GrammarSet.load]
  rcases hread : w.set.forest.read source with ⟨g, e | root⟩
  · rw [hread] at hkept
    exact hw.congr hkept rfl (fun _ _ => rfl) hw.registered rfl
  · obtain ⟨t, -, hplanted⟩ := planted_of_read hf.wellFormed hread
    rw [hread] at hkept
    refine Sound.add (s := w.set.withForest g) file
      ⟨hkept.wellFormed, fun x hx => ?_, fun x hx => ?_⟩ ?_ hw.registered
    · rcases List.mem_cons.mp hx with rfl | hx
      · exact hplanted.root_lt
      · exact hkept.lt_size x hx
    · rcases List.mem_cons.mp hx with rfl | hx
      · exact hplanted.isRoot
      · exact hkept.isRoot x hx
    · refine List.nodup_cons.mpr ⟨fun hmem => ?_, hw.nodup⟩
      have hlt := hf.lt_size root hmem
      rw [hplanted.root_eq] at hlt
      exact Nat.lt_irrefl _ hlt

theorem Sound.addImport (hw : w.Sound) (hdelegate : delegate < w.set.size) (hne : id ≠ delegate) :
    ∃ set, w.set.addImport id delegate = .ok set ∧ (⟨set, w.lexers⟩ : Workspace).Sound := by
  obtain ⟨k, hk⟩ : ∃ k : Grammar → Grammar,
      k = fun g => { g with imports := g.imports ++ [delegate] } := ⟨_, rfl⟩
  refine ⟨⟨w.set.forest, w.set.grammars.modify id k⟩, ?_, hw.congr hw.rooted ?_ (fun g hg => ?_)
    (fun g hg h hh => ?_) rfl⟩
  · rw [GrammarSet.addImport, if_neg hne, hk]
  · simp [GrammarSet.size]
  · rw [grammar_modify _ _ _ k hg, hk]
    split <;> rfl
  · rw [GrammarSet.Imports, grammar_modify _ _ _ k hg, hk] at hh
    split at hh
    · rcases List.mem_append.mp hh with hh | hh
      · exact hw.registered g hg h hh
      · rw [List.mem_singleton.mp hh]
        exact hdelegate
    · exact hw.registered g hg h hh

theorem lt_size_of_mem_allImports (hw : w.Sound) (hid : id < w.set.size) :
    ∀ i ∈ w.set.allImports id, i < w.set.size := by
  intro i hi
  have hpath := GrammarSet.imports_of_mem_allImports hi
  clear hi
  induction hpath with
  | single hab => exact hw.registered id hid _ hab
  | tail _ hbc ih => exact hw.registered _ ih _ hbc

theorem Sound.integrate (hw : w.Sound) (hid : id < w.set.size) :
    ∃ f report, w.set.integrateImports id = .ok (w.set.withForest f, report) ∧
      (⟨w.set.withForest f, w.lexers⟩ : Workspace).Sound := by
  obtain ⟨f, report, hok, hf⟩ := GrammarSet.integrateImports_rooted hw.rooted
    (mem_roots_of_lt hid) fun i hi => mem_roots_of_lt (lt_size_of_mem_allImports hw hid i hi)
  exact ⟨f, report, hok, hw.congr hf rfl (fun _ _ => rfl) hw.registered rfl⟩

/-- A lexer that is split off has a new tree. -/
theorem Sound.addLexer (hw : w.Sound) {lexer : ImplicitLexer}
    (hlt : lexer.root < w.set.forest.size) (hroot : w.set.forest.parent? lexer.root = none)
    (hnew : lexer.root ∉ w.roots) : (⟨w.set, w.lexers ++ [lexer]⟩ : Workspace).Sound := by
  have hroots : (⟨w.set, w.lexers ++ [lexer]⟩ : Workspace).roots = w.roots ++ [lexer.root] := by
    rw [roots, List.map_append, ← List.append_assoc]
    rfl
  refine ⟨⟨hw.rooted.wellFormed, fun x hx => ?_, fun x hx => ?_⟩, ?_, hw.registered⟩
  · rw [hroots, List.mem_append, List.mem_singleton] at hx
    rcases hx with hx | rfl
    · exact hw.rooted.lt_size x hx
    · exact hlt
  · rw [hroots, List.mem_append, List.mem_singleton] at hx
    rcases hx with hx | rfl
    · exact hw.rooted.isRoot x hx
    · exact hroot
  · rw [hroots, List.nodup_append]
    refine ⟨hw.nodup, List.nodup_singleton _, fun a ha b hb => ?_⟩
    rw [List.mem_singleton.mp hb]
    rintro rfl
    exact hnew ha

/-- Counting literals keeps roots and imports. -/
theorem grammar_recounted {count : Nat}
    (h : t.grammars = s.grammars.modify id fun _ => { s.grammar id with literalCount := count }) :
    t.size = s.size ∧ ∀ j < s.size, (t.grammar j).root = (s.grammar j).root ∧
      (t.grammar j).imports = (s.grammar j).imports := by
  obtain ⟨f, grammars⟩ := t
  obtain rfl : grammars = _ := h
  refine ⟨by simp [GrammarSet.size], fun j hj => ?_⟩
  rw [grammar_modify s f id _ hj]
  split
  · rename_i he
    rw [he]
    exact ⟨rfl, rfl⟩
  · exact ⟨rfl, rfl⟩

theorem Sound.extract (hw : w.Sound) (hid : id < w.set.size) :
    ∃ set lexer, w.set.extractLexer id = .ok (set, lexer) ∧
      (⟨set, w.lexers ++ lexer.toList⟩ : Workspace).Sound := by
  have hf := hw.rooted
  cases hrules : w.set.forest.firstChildOfKind? (w.set.grammar id).root .rules with
  | none =>
    refine ⟨w.set, none, ?_, ?_⟩
    · rw [GrammarSet.extractLexer]
      simp only [hrules]
    · rw [Option.toList_none, List.append_nil]
      exact hw
  | some rules =>
    obtain ⟨t, count, lexer, lexerRules, made, hok, hgrammars, hsplit⟩ :=
      GrammarSet.extractLexer_splitOff hf.wellFormed (hf.isRoot _ (mem_roots_of_lt hid)) hrules
    obtain ⟨hsize, hgrammar⟩ := grammar_recounted hgrammars
    have hroots : (⟨t, w.lexers⟩ : Workspace).roots = w.roots :=
      roots_congr hsize (fun j hj => (hgrammar j hj).1) w.lexers
    have hold : (⟨t, w.lexers⟩ : Workspace).Sound := by
      refine hw.congr ⟨hsplit.wellFormed, fun x hx => ?_, fun x hx => ?_⟩ hsize
        (fun j hj => (hgrammar j hj).1) (fun j hj h hh => ?_) rfl
      · exact Nat.lt_of_lt_of_le (hf.lt_size x hx) hsplit.size_le
      · exact hsplit.roots x (hf.lt_size x hx) (hf.isRoot x hx)
      · rw [GrammarSet.Imports, (hgrammar j hj).2] at hh
        exact hw.registered j hj h hh
    refine ⟨t, _, hok, ?_⟩
    split
    · rw [Option.toList_none, List.append_nil]
      exact hold
    · refine hold.addLexer ?_ hsplit.lexer_isRoot fun hmem => ?_
      · obtain ⟨copies, hchildren, -⟩ := hsplit.children_lexer
        have hlast : lexerRules ∈ t.forest.children lexer.root := by
          rw [hchildren]
          exact List.mem_append_right _ (List.mem_singleton_self lexerRules)
        exact lt_size_of_mem_children hlast
      · rw [hroots] at hmem
        exact Nat.not_lt.mpr hsplit.new (hf.lt_size _ hmem)

theorem Sound.register (hw : w.Sound) (file : String) {i : Nat} {lexer : ImplicitLexer}
    (hi : w.lexers[i]? = some lexer) :
    (⟨(w.set.add file lexer.root).1, w.lexers.eraseIdx i⟩ : Workspace).Sound := by
  have hperm : (lexer.root :: (⟨w.set, w.lexers.eraseIdx i⟩ : Workspace).roots).Perm w.roots := by
    obtain ⟨hlt, rfl⟩ := List.getElem?_eq_some_iff.mp hi
    have hlexers := (List.getElem_cons_eraseIdx_perm hlt).map ImplicitLexer.root
    exact List.perm_middle.symm.trans (hlexers.append_left _)
  have hf := hw.rooted
  refine Sound.add file ⟨hf.wellFormed, fun x hx => ?_, fun x hx => ?_⟩
    (hperm.nodup_iff.mpr hw.nodup) hw.registered
  · exact hf.lt_size x (hperm.mem_iff.mp hx)
  · exact hf.isRoot x (hperm.mem_iff.mp hx)

end Workspace

namespace Transform

open Workspace

variable {w : Workspace} {t : Transform} {ts : List Transform}

/-- No transform fails. -/
theorem sound_run (hw : w.Sound) (ht : t.Fits w) : ∃ v, t.run w = .ok v ∧ v.Sound := by
  cases t with
  | load file source => exact ⟨_, rfl, hw.load file source⟩
  | addImport id delegate =>
    obtain ⟨-, hdelegate, hne⟩ := ht
    obtain ⟨set, hok, hsound⟩ := hw.addImport hdelegate hne
    exact ⟨_, by rw [run, hok], hsound⟩
  | integrate id =>
    obtain ⟨f, report, hok, hsound⟩ := hw.integrate ht
    exact ⟨_, by rw [run, hok], hsound⟩
  | extract id =>
    obtain ⟨set, lexer, hok, hsound⟩ := hw.extract ht
    exact ⟨_, by rw [run, hok], hsound⟩
  | register file lexer =>
    obtain ⟨made, hmade⟩ : ∃ made, w.lexers[lexer]? = some made :=
      ⟨_, List.getElem?_eq_getElem ht⟩
    exact ⟨_, by rw [run, hmade], hw.register file hmade⟩

theorem sound_runAll (hw : w.Sound) (hts : AllFit w ts) : ∃ v, runAll w ts = .ok v ∧ v.Sound := by
  induction ts generalizing w with
  | nil => exact ⟨w, rfl, hw⟩
  | cons t ts ih =>
    obtain ⟨ht, hrest⟩ := hts
    obtain ⟨u, hu, hsound⟩ := sound_run hw ht
    rw [hu] at hrest
    obtain ⟨v, hv, hfinal⟩ := ih hsound hrest
    refine ⟨v, ?_, hfinal⟩
    rw [runAll, hu]
    exact hv

end Transform

/-- The grammars of a set have trees of their own whose links agree. -/
structure GrammarSet.Apart (s : GrammarSet) : Prop where
  isRoot : ∀ g < s.size, s.forest.parent? (s.grammar g).root = none
  disjoint : ∀ g < s.size, ∀ h < s.size, g ≠ h →
    ∀ x, s.forest.Within x (s.grammar g).root → ¬ s.forest.Within x (s.grammar h).root
  links : ∀ g < s.size, s.forest.linksAgree (s.grammar g).root = true

theorem Workspace.Sound.apart {w : Workspace} (hw : w.Sound) : w.set.Apart := by
  refine ⟨fun g hg => hw.rooted.isRoot _ (mem_roots_of_lt hg), fun g hg h hh hne x hxg hxh => ?_,
    fun g _ => hw.rooted.wellFormed.linksAgree _⟩
  have hnodup := (List.nodup_append.mp hw.nodup).1
  have hroots := hxg.root_unique hxh (hw.rooted.isRoot _ (mem_roots_of_lt hg))
    (hw.rooted.isRoot _ (mem_roots_of_lt hh))
  exact hne (List.inj_on_of_nodup_map hnodup (List.mem_range.mpr hg) (List.mem_range.mpr hh) hroots)

namespace Transform

/-- Transforms from the empty set on never fail, and after each of them the trees of the grammars
are apart. -/
theorem apart_runAll_empty (ts : List Transform) (hts : AllFit .empty ts) :
    ∃ w, runAll .empty ts = .ok w ∧ w.set.Apart ∧
      ∀ t : Transform, t.Fits w → ∃ v, t.run w = .ok v ∧ v.set.Apart := by
  obtain ⟨w, hw, hsound⟩ := sound_runAll Workspace.Sound.empty hts
  refine ⟨w, hw, hsound.apart, fun t ht => ?_⟩
  obtain ⟨v, hv, hnext⟩ := sound_run hsound ht
  exact ⟨v, hv, hnext.apart⟩

/-- Two grammars that import each other, one of which gets a lexer. -/
def cyclic : List Transform :=
  [.load "A.g4" "(GRAMMAR:COMBINED_GRAMMAR ID:A (RULES (RULE RULE_REF:a) (RULE TOKEN_REF:B)))",
   .load "B.g4" "(GRAMMAR:PARSER_GRAMMAR ID:B)",
   .addImport 0 1, .addImport 1 0, .integrate 0, .extract 0, .register "A.g4" 0]

/-- A grammar that imports itself can be integrated, and its lexer can be registered. -/
theorem apart_runAll_cyclic :
    ∃ w, runAll .empty cyclic = .ok w ∧ w.set.Apart ∧
      ∀ t : Transform, t.Fits w → ∃ v, t.run w = .ok v ∧ v.set.Apart := by
  have hts : AllFit .empty cyclic := by decide +kernel
  exact apart_runAll_empty cyclic hts

end Transform

end GrammarTrees
