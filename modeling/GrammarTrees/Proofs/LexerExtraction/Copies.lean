import GrammarTrees.LexerExtraction
import GrammarTrees.Proofs.Grammar.Options

/-! Copying options and named actions to a new lexer. The copies form the tree of the lexer, which
has no sections with rules yet. The sections of the grammar that hold rules stay as they are
meanwhile, also when named actions are taken from the grammar. -/

namespace GrammarTrees.LexerExtraction

open Forest

variable {f g k : Forest} {root lexer target p a x : Nat} {l : Label} {t : Tree Label}
  {ts : List (Tree Label)} {secs as : List NodeId}

/-! ### Copies -/

/-- The options that are copied, of those below a node. -/
def copiedOptions (f : Forest) (options : NodeId) : List NodeId :=
  (f.children options).filter fun a => isCopiedOption (f.sectionName a)

/-- The section of options of a lexer, if it gets one. -/
def copiedSection (f : Forest) (root : NodeId) : List (Tree Label) :=
  match f.firstChildOfKind? root .options with
  | none => []
  | some options =>
    if f.childCount options = 0 then []
    else [.node (f.label options) ((copiedOptions f options).map f.labelTree)]

theorem newLexer_planted (hf : f.WellFormed) (root : NodeId) (name : String) :
    ∃ g l, newLexer root name f = .ok (g, f.size) ∧ l.text = GrammarType.lexer.rootText ∧
      f.Planted g f.size (.node l [.leaf (.make .id name)]) := by
  have hplanted := planted_alloc_relabel hf (.make .grammar GrammarType.lexer.rootText) fun l =>
    { l with tokens := (f.alloc (.make .grammar GrammarType.lexer.rootText)).1.tokens root }
  obtain ⟨k, hk, hbelow, -⟩ := (planted_alloc hplanted.wellFormed (.make .id name)).pushChild
    hplanted.wellFormed hplanted.root_lt
  refine ⟨k, _, ?_, rfl, hplanted.extend hbelow⟩
  rw [newLexer]
  simp only [alloc_snd, setTokens, hk]
  rfl

section Copies

variable (hf : f.WellFormed) (hg : f.Grown g)
include hf hg

theorem copy_plantedBelow (hp : target < g.size) (ha : a < f.size) :
    ∃ k, (g.copyTree a).1.pushChild target (g.copyTree a).2 = .ok k ∧
      g.PlantedBelow k target [f.labelTree a] ∧
      k.children target = g.children target ++ [(g.copyTree a).2] := by
  obtain ⟨k, hk, hbelow, -, hc, -⟩ := (planted_copyTree hg.wellFormed a).pushChild hg.wellFormed hp
  rw [hg.labelTree hf ha] at hbelow
  exact ⟨k, hk, hbelow, hc⟩

/-- The map holds the options below `target` that have been copied so far. -/
theorem copyOption_plantedBelow (hp : target < g.size) (ha : a < f.size) :
    ∃ k, copyOption target (g, g.readOptions target) a = .ok (k, k.readOptions target) ∧
      g.PlantedBelow k target
        (if isCopiedOption (f.sectionName a) then [f.labelTree a] else []) := by
  have hsame : (g.child? a 0).map g.text = (f.child? a 0).map f.text := by
    rw [map_text_child?, map_text_child?, hg.children ha]
    congr 2
    exact List.map_congr_left fun c hc => hg.labelTree hf (hf.lt_size_of_child hc)
  cases htext : (f.child? a 0).map f.text with
  | none =>
    rw [sectionName, htext]
    refine ⟨g, ?_, .refl hg.wellFormed target⟩
    simp only [copyOption, hsame, htext]
  | some name =>
    rw [sectionName, htext, Option.getD_some]
    by_cases hcopied : isCopiedOption name = true
    · obtain ⟨k, hk, hbelow, hc⟩ := copy_plantedBelow hf hg hp ha
      rw [if_pos hcopied]
      refine ⟨k, ?_, hbelow⟩
      have hname : (k.child? (g.copyTree a).2 0).map k.text = some name := by
        rw [map_text_child?, (hbelow.last hc).2, labelTree_eq hf ha, Tree.children,
          ← map_text_child?,
          htext]
      simp only [copyOption, hsame, htext, hcopied, if_true, hk]
      rw [hbelow.readOptions hg.wellFormed hc, readOption?_of_name hname, Option.map_map]
      rfl
    · rw [if_neg hcopied]
      refine ⟨g, ?_, .refl hg.wellFormed target⟩
      simp only [copyOption, hsame, htext, if_neg hcopied]

theorem copyAllOptions_plantedBelow (hnew : f.size ≤ target) (hp : target < g.size)
    (has : ∀ a ∈ as, a < f.size) :
    ∃ k, as.foldlM (copyOption target) (g, g.readOptions target) =
        .ok (k, k.readOptions target) ∧
      g.PlantedBelow k target
        ((as.filter fun a => isCopiedOption (f.sectionName a)).map f.labelTree) := by
  induction as generalizing g with
  | nil => exact ⟨g, rfl, .refl hg.wellFormed target⟩
  | cons a as ih =>
    rw [List.forall_mem_cons] at has
    obtain ⟨k, hk, hbelow⟩ := copyOption_plantedBelow hf hg hp has.1
    obtain ⟨m, hm, hrest⟩ := ih (hbelow.grown hg hnew) (Nat.lt_of_lt_of_le hp hbelow.size_le) has.2
    have htrees := hbelow.trans hg.wellFormed hp hrest
    refine ⟨m, ?_, ?_⟩
    · rw [List.foldlM_cons, hk]
      exact hm
    · rw [List.filter_cons]
      split at htrees <;> rename_i hcopied <;> simp only [hcopied] <;> exact htrees

theorem copyActions_plantedBelow (hnew : f.size ≤ lexer) (hp : lexer < g.size)
    (has : ∀ a ∈ as, a < f.size) :
    ∃ k, as.foldlM (copyAction lexer) g = .ok k ∧ g.PlantedBelow k lexer (as.map f.labelTree) := by
  induction as generalizing g with
  | nil => exact ⟨g, rfl, .refl hg.wellFormed lexer⟩
  | cons a as ih =>
    rw [List.forall_mem_cons] at has
    obtain ⟨k, hk, hbelow, -⟩ := copy_plantedBelow hf hg hp has.1
    obtain ⟨m, hm, hrest⟩ :=
      ih (hbelow.grown hg hnew) (Nat.lt_of_lt_of_le hp hbelow.size_le) has.2
    refine ⟨m, ?_, hbelow.trans hg.wellFormed hp hrest⟩
    rw [List.foldlM_cons]
    show ((g.copyTree a).1.pushChild lexer (g.copyTree a).2 >>= _) = _
    rw [hk]
    exact hm

end Copies

/-- The options that have been copied are those of the new tree. -/
theorem copyOptions_planted (hf : f.WellFormed) (hr : root < f.size)
    (hg : f.Planted g lexer (.node l ts)) (hts : ∀ t ∈ ts, t.label.kind ≠ .options) :
    ∃ k, copyOptions root lexer g = .ok (k, k.optionsOf lexer) ∧
      f.Planted k lexer (.node l (ts ++ copiedSection f root)) := by
  have hfirst : g.firstChildOfKind? root .options = f.firstChildOfKind? root .options :=
    firstChildOfKind?_congr (hg.toGrown.children hr) (fun c hc =>
      hg.toGrown.label (hf.lt_size_of_child hc)) _
  have hkinds : ∀ c ∈ g.children lexer, g.kind c ≠ .options := by
    intro c hc
    have htree := hg.labelTree_root
    rw [labelTree_eq hg.wellFormed hg.root_lt] at htree
    have hkind := hts (g.labelTree c) ((Tree.node.inj htree).2 ▸ List.mem_map_of_mem hc)
    rwa [label_labelTree, ← Forest.kind] at hkind
  have hnone : g.firstChildOfKind? lexer .options = none := by
    rw [firstChildOfKind?, List.find?_eq_none]
    intro c hc
    simpa using hkinds c hc
  have hempty : g.optionsOf lexer = .empty := by
    rw [optionsOf, hnone]
    rfl
  cases hoptions : f.firstChildOfKind? root .options with
  | none =>
    refine ⟨g, ?_, ?_⟩
    · simp only [copyOptions, hfirst, hoptions, hempty]
    · simp only [copiedSection, hoptions, List.append_nil]
      exact hg
  | some options =>
    have hlt : options < f.size := lt_size_of_parent?_eq (of_firstChildOfKind? hf hoptions).1
    have hcount : g.childCount options = f.childCount options := by
      rw [childCount, hg.toGrown.children hlt, childCount]
    by_cases hno : f.childCount options = 0
    · refine ⟨g, ?_, ?_⟩
      · simp only [copyOptions, hfirst, hoptions, hcount, if_pos hno, hempty]
      · simp only [copiedSection, hoptions, if_pos hno, List.append_nil]
        exact hg
    · obtain ⟨k, hk, hbelow, hsize, hc, -⟩ :=
        (planted_alloc hg.wellFormed (g.label options)).pushChild hg.wellFormed hg.root_lt
      have hgrown := hbelow.grown hg.toGrown (Nat.le_of_eq hg.root_eq.symm)
      have hold : ∀ a ∈ k.children options, a < f.size := by
        rw [hgrown.children hlt]
        exact fun a ha => hf.lt_size_of_child ha
      obtain ⟨m, hm, hcopies⟩ := copyAllOptions_plantedBelow hf hgrown hg.size_le
        (by rw [hsize, size_alloc]; exact Nat.lt_succ_self g.size) hold
      have hsection := hbelow.extendLast hg.wellFormed hg.root_lt hc hcopies
      rw [hgrown.children hlt, hg.toGrown.label hlt] at hsection
      have htarget : k.readOptions g.size = .empty := by
        rw [readOptions, List.map_eq_nil_iff.mp (hbelow.last hc).2]
        rfl
      have hlexer : lexer < g.size := hg.root_lt
      rw [size_alloc] at hsize
      have hkind : ∀ x < k.size, m.kind x = k.kind x := fun x hx =>
        kind_of_label (hcopies.label_eq hx)
      have hlast : m.children lexer = g.children lexer ++ [g.size] := by
        rw [hcopies.children_eq (by omega) (Nat.ne_of_lt hlexer), hc]
      have hread : m.optionsOf lexer = m.readOptions g.size := by
        refine optionsOf_of_children hlast (fun c hc => ?_) ?_
        · have hclt := hg.wellFormed.lt_size_of_child hc
          rw [hkind c (by omega), kind_of_label (hbelow.label_eq hclt)]
          exact hkinds c hc
        · rw [hkind g.size (by omega), Forest.kind, (hbelow.last hc).1]
          exact (kind_of_label (hg.toGrown.label hlt)).trans (of_firstChildOfKind? hf hoptions).2
      refine ⟨m, ?_, ?_⟩
      · simp only [copyOptions, hfirst, hoptions, hcount, if_neg hno, copyNode, alloc_snd]
        rw [htarget] at hm
        simp only [hk, bind, Except.bind, hread]
        exact hm
      · simp only [copiedSection, hoptions, if_neg hno]
        exact hg.extend hsection

/-- What stands below the root of a lexer before its rules. -/
def lexerTrees (f : Forest) (root : NodeId) : List (Tree Label) :=
  .leaf (.make .id (f.sectionName root ++ "Lexer")) ::
    (copiedSection f root ++ (f.childrenOfKind root .namedAction).map f.labelTree)

/-- The new tree that the copies make up. -/
theorem copies_planted (hf : f.WellFormed) (hr : root < f.size) :
    ∃ g₁ g₂ g₃ l, newLexer root (f.sectionName root ++ "Lexer") f = .ok (g₁, f.size) ∧
      copyOptions root f.size g₁ = .ok (g₂, g₃.optionsOf f.size) ∧
      (f.childrenOfKind root .namedAction).foldlM (copyAction f.size) g₂ = .ok g₃ ∧
      l.text = GrammarType.lexer.rootText ∧
      f.Planted g₃ f.size (.node l (lexerTrees f root)) := by
  have hactions : ∀ a ∈ f.childrenOfKind root .namedAction, a < f.size := fun a ha =>
    hf.lt_size_of_child (List.mem_of_mem_filter ha)
  obtain ⟨g₁, l, h₁, hl, hp₁⟩ := newLexer_planted hf root (f.sectionName root ++ "Lexer")
  obtain ⟨g₂, h₂, hp₂⟩ :=
    copyOptions_planted hf hr hp₁ (by simp [Tree.leaf, Tree.label, Label.make])
  obtain ⟨g₃, h₃, hbelow⟩ := copyActions_plantedBelow hf hp₂.toGrown (Nat.le_refl _) hp₂.root_lt
    hactions
  have hoptions : g₃.optionsOf f.size = g₂.optionsOf f.size := by
    refine hbelow.optionsOf hp₂.wellFormed hp₂.root_lt fun t ht => ?_
    obtain ⟨a, ha, rfl⟩ := List.mem_map.mp ht
    rw [label_labelTree, ← Forest.kind, ((mem_childrenOfKind hf).mp ha).2]
    decide
  refine ⟨g₁, g₂, g₃, l, h₁, hoptions ▸ h₂, h₃, hl, ?_⟩
  have hplanted := hp₂.extend hbelow
  rwa [List.append_assoc] at hplanted

theorem kind_of_mem_copiedSection (hf : f.WellFormed) (ht : t ∈ copiedSection f root) :
    t.label.kind = .options := by
  unfold copiedSection at ht
  split at ht
  · simp at ht
  · rename_i options hoptions
    split at ht
    · simp at ht
    · rw [List.mem_singleton.mp ht]
      exact (of_firstChildOfKind? hf hoptions).2

/-- No copy holds rules. -/
theorem holdsRules_of_mem_lexerTrees (hf : f.WellFormed) (ht : t ∈ lexerTrees f root) :
    t.label.kind.holdsRules = false := by
  rcases List.mem_cons.mp ht with rfl | ht
  · rfl
  · rcases List.mem_append.mp ht with ht | ht
    · rw [kind_of_mem_copiedSection hf ht]
      rfl
    · obtain ⟨a, ha, rfl⟩ := List.mem_map.mp ht
      rw [label_labelTree, ← Forest.kind, ((mem_childrenOfKind hf).mp ha).2]
      rfl

/-! ### The sections with rules -/

/-- `g` is `f` with a new tree at `lexer`, whose sections with rules are `secs`, and without some
other sections of the tree of `root`. -/
structure Prepared (f g : Forest) (root lexer : NodeId) (secs : List NodeId) : Prop where
  wellFormed : g.WellFormed
  roots : ∀ x < f.size, f.parent? x = none → g.parent? x = none
  label : ∀ x < f.size, g.label x = f.label x
  children : ∀ x < f.size, x ≠ root → g.children x = f.children x
  sections : g.sections root = f.sections root
  old : ∀ c ∈ g.children root, c < f.size
  new : f.size ≤ lexer
  lexer_lt : lexer < g.size
  isRoot : g.parent? lexer = none
  lexer_sections : g.sections lexer = secs

namespace Prepared

theorem of_planted (hf : f.WellFormed) (hr : root < f.size)
    (hg : f.Planted g lexer (.node l ts)) (hts : ∀ t ∈ ts, t.label.kind.holdsRules = false) :
    Prepared f g root lexer [] := by
  have hgrown := hg.toGrown
  refine ⟨hg.wellFormed, fun x hx hroot => (hgrown.parent? hx).trans hroot,
    fun x hx => hgrown.label hx, fun x hx _ => hgrown.children hx, hgrown.sections hf hr,
    fun c hc => hf.lt_size_of_child (hgrown.children hr ▸ hc), Nat.le_of_eq hg.root_eq.symm,
    hg.root_lt, hg.isRoot, ?_⟩
  have htree := hg.labelTree_root
  rw [labelTree_eq hg.wellFormed hg.root_lt] at htree
  rw [Forest.sections, List.filter_eq_nil_iff]
  intro c hc
  have hholds := hts (g.labelTree c) ((Tree.node.inj htree).2 ▸ List.mem_map_of_mem hc)
  rw [label_labelTree, ← Forest.kind] at hholds
  simp [hholds]

variable (hg : Prepared f g root lexer secs) (hr : root < f.size)
include hg

theorem size_le : f.size ≤ g.size := Nat.le_trans hg.new (Nat.le_of_lt hg.lexer_lt)

include hr

theorem plant {secs' : List NodeId} (hp : f.size ≤ p) (hk : g.PlantedBelow k p [t])
    (hx : k.children p = g.children p ++ [x])
    (hs : (if p = lexer ∧ t.label.kind.holdsRules then secs ++ [x] else secs) = secs') :
    Prepared f k root lexer secs' := by
  have hlt : ∀ y < f.size, y < g.size := fun y hy => Nat.lt_of_lt_of_le hy hg.size_le
  have hne : ∀ y < f.size, y ≠ p := fun y hy => Nat.ne_of_lt (Nat.lt_of_lt_of_le hy hp)
  refine ⟨hk.wellFormed, fun y hy hroot => ?_, fun y hy => ?_, fun y hy hyr => ?_, ?_,
    fun c hc => hg.old c ?_, hg.new, Nat.lt_of_lt_of_le hg.lexer_lt hk.size_le, ?_, ?_⟩
  · rw [hk.parent?_eq (hlt y hy), hg.roots y hy hroot]
  · rw [hk.label_eq (hlt y hy), hg.label y hy]
  · rw [hk.children_eq (hlt y hy) (hne y hy), hg.children y hy hyr]
  · rw [hk.sections hg.wellFormed (hlt root hr) (hne root hr), hg.sections]
  · rw [← hk.children_eq (hlt root hr) (hne root hr)]
    exact hc
  · rw [hk.parent?_eq hg.lexer_lt, hg.isRoot]
  · rw [← hs]
    by_cases he : p = lexer
    · subst he
      rw [(hk.sections_parent hg.wellFormed hx).2, hg.lexer_sections]
      by_cases hkind : t.label.kind.holdsRules = true <;> simp [hkind]
    · rw [hk.sections hg.wellFormed hg.lexer_lt (Ne.symm he), hg.lexer_sections]
      simp [he]

theorem delete (ha : a < f.size) (hkind : (f.kind a).holdsRules = false) :
    Prepared f (g.deleteChild root a).1 root lexer secs := by
  rw [deleteChild]
  split
  · rename_i hp
    have hne : ∀ y, y ≠ root → a ∉ g.children y := by
      intro y hy hmem
      rw [hg.wellFormed.mem_children.mp hmem] at hp
      exact hy (Option.some.inj hp)
    have hakind : (g.kind a).holdsRules = false := by
      rw [Forest.kind, hg.label a ha, ← Forest.kind]
      exact hkind
    have hlexer : lexer ≠ root := Nat.ne_of_gt (Nat.lt_of_lt_of_le hr hg.new)
    have hsections : ∀ y, (g.detach a).sections y = ((g.children y).erase a).filter fun c =>
        (g.kind c).holdsRules := by
      intro y
      rw [Forest.sections, children_detach hg.wellFormed]
      simp only [Forest.kind, label_detach]
    refine ⟨hg.wellFormed.detach a, fun y hy hroot => ?_, fun y hy => ?_, fun y hy hyr => ?_, ?_,
      fun c hc => hg.old c ?_, hg.new, ?_, ?_, ?_⟩
    · rw [parent?_detach hg.wellFormed, hg.roots y hy hroot, ite_self]
    · rw [label_detach, hg.label y hy]
    · rw [children_detach hg.wellFormed, List.erase_of_not_mem (hne y hyr), hg.children y hy hyr]
    · rw [hsections, filter_erase_of_neg hakind, ← hg.sections, Forest.sections]
    · rw [children_detach hg.wellFormed] at hc
      exact List.mem_of_mem_erase hc
    · rw [size_detach]
      exact hg.lexer_lt
    · rw [parent?_detach hg.wellFormed, hg.isRoot, ite_self]
    · rw [hsections, List.erase_of_not_mem (hne lexer hlexer), ← hg.lexer_sections, Forest.sections]
  · exact hg

theorem deleteAll (has : ∀ a ∈ as, a < f.size ∧ (f.kind a).holdsRules = false) :
    Prepared f (as.foldl (fun f a => (f.deleteChild root a).1) g) root lexer secs := by
  induction as generalizing g with
  | nil => exact hg
  | cons a as ih =>
    rw [List.forall_mem_cons] at has
    exact ih (hg.delete hr has.1.1 has.1.2) has.2

end Prepared

end GrammarTrees.LexerExtraction
