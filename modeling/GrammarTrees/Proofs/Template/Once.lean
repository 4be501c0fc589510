import GrammarTrees.Proofs.LexerExtraction.CopiedNodes
import GrammarTrees.Proofs.Template.Expansion

/-! Actions are expanded at most once. An inline template starts with a space, which no rendering
takes away, so what an action is rendered as holds no code. It is left alone by all later
expansions, and so are its copies in lexers that are split off. -/

namespace GrammarTrees

open Forest LexerExtraction

/-! ### What is rendered starts with a space -/

namespace Template

variable {group : Group} {limit : Nat} {body new text source : String} {kind : Kind}
  {chunks : List Chunk} {messages : List Message}

theorem chunksOf_char (c : Char) (pieces : List Piece) :
    ∃ cs rest, chunksOf (.char c :: pieces) = .text (c :: cs) :: rest := by
  unfold chunksOf
  split
  · exact ⟨_, _, rfl⟩
  · exact ⟨_, _, rfl⟩

theorem readPieces_of_space {size : Nat} {cs : List Char} {pieces : List Piece}
    (h : readPieces size 0 0 (' ' :: cs) = .ok pieces) : ∃ rest, pieces = .char ' ' :: rest := by
  have hpiece : pieceAt size 0 ' ' cs = .ok (some (.char ' '), 0) := rfl
  rw [readPieces, hpiece] at h
  cases hrest : readPieces size (0 + ' '.utf8Size) 0 cs with
  | error e =>
    simp only [hrest, bind, Except.bind] at h
    exact nomatch h
  | ok rest =>
    simp only [hrest, bind, Except.bind] at h
    exact ⟨rest, (Except.ok.inj h).symm⟩

theorem compileBody_of_space (h : compileBody (" " ++ source) = .ok chunks) :
    ∃ cs rest, chunks = .text (' ' :: cs) :: rest := by
  have hchars : (" " ++ source).toList = ' ' :: source.toList := by
    rw [String.toList_append]
    rfl
  simp only [compileBody, hchars] at h
  cases hpieces : readPieces (byteLength (' ' :: source.toList)) 0 0 (' ' :: source.toList) with
  | error e =>
    simp only [hpieces, bind, Except.bind] at h
    exact nomatch h
  | ok pieces =>
    obtain ⟨rest, rfl⟩ := readPieces_of_space hpieces
    simp only [hpieces, bind, Except.bind] at h
    rw [← Except.ok.inj h]
    exact chunksOf_char ' ' rest

theorem render_of_space {t : Template} {cs : List Char} {rest : List Chunk}
    (ht : t.chunks = .text (' ' :: cs) :: rest) (h : render group limit t = (some new, messages)) :
    new.toList.head? = some ' ' := by
  have hvalue : (renderChunks (.outermost group limit) ⟨t, [], false⟩ t.chunks).value.head? =
      some ' ' := by
    rw [ht]
    rfl
  unfold render at h
  revert hvalue h
  rcases renderChunks (.outermost group limit) ⟨t, [], false⟩ t.chunks with
    ⟨value, _ | ⟨message, more⟩⟩
  · intro h hvalue
    rw [← Option.some.inj (Prod.mk.inj h).1, String.toList_ofList]
    exact hvalue
  · intro h
    exact nomatch (Prod.mk.inj h).1

theorem renderInline_of_space
    (h : renderInline group limit (" " ++ source) = (some new, messages)) :
    new.toList.head? = some ' ' := by
  unfold renderInline Template.compile at h
  cases hchunks : compileBody (" " ++ source) with
  | error e =>
    simp only [hchunks, bind, Except.bind] at h
    exact nomatch h
  | ok chunks =>
    obtain ⟨cs, rest, rfl⟩ := compileBody_of_space hchunks
    simp only [hchunks, bind, Except.bind] at h
    exact render_of_space rfl h

theorem CodeText.head (h : CodeText kind body text) : text.toList.head? = some '\x7b' := by
  cases h with
  | action =>
    rw [String.toList_append, String.toList_append]
    rfl
  | predicate =>
    rw [String.toList_append, String.toList_append]
    rfl

end Template

open Template

variable {γ : Type} {engine : Engine γ} {store : Store} {config : Config} {limit : Nat}
  {s t u : GrammarSet} {id : GrammarId} {x y z : NodeId}

/-! ### Nodes without code -/

theorem Forest.grown_read {f : Forest} (hf : f.WellFormed) (source : String) :
    f.Grown (f.read source).1 := by
  unfold Forest.read
  rcases TreeText.read source with ⟨e, trees⟩ | tree
  · exact grown_plantAll hf trees
  · exact (planted_plant hf tree).toGrown

/-- `y` is a node that holds no code. -/
structure Settled (t : GrammarSet) (y : NodeId) : Prop where
  wellFormed : t.forest.WellFormed
  lt : (y : Nat) < t.forest.size
  code : ∀ body, ¬ CodeText (t.forest.kind y) body (t.forest.text y)

/-- Expanding a grammar does not change the node `y`, and nothing is said about it. -/
structure Spares (engine : Engine γ) (store : Store) (config : Config) (id : GrammarId)
    (t : GrammarSet) (y : NodeId) : Prop where
  label : (t.expand engine store config id).1.forest.label y = t.forest.label y
  unloaded : ∀ loading, loadGroupOf engine store config t (t.grammar id) = (none, loading) →
    (t.expand engine store config id).2 = loading
  silent : ∀ group loading,
    loadGroupOf engine store config t (t.grammar id) = (some group, loading) →
    ∃ report, (t.expand engine store config id).2 =
        loading ++ (t.forest.tree (t.grammar id).root).preorder.flatMap report ∧
      Expanded engine group (t.grammar id) t (t.expand engine store config id).1 report ∧
      report y = []

/-- A run changes nothing, or expands the tree of the grammar. -/
theorem expand_cases (engine : Engine γ) (store : Store) (config : Config) (id : GrammarId)
    (hf : s.forest.WellFormed) :
    (∃ loading, loadGroupOf engine store config s (s.grammar id) = (none, loading) ∧
      s.expand engine store config id = (s, loading)) ∨
    ∃ group loading t, loadGroupOf engine store config s (s.grammar id) = (some group, loading) ∧
      s.expand engine store config id = (t, loading ++
        (s.forest.tree (s.grammar id).root).preorder.flatMap fun x =>
          (expandAction engine group s (s.grammar id) x).2) ∧
      Expanded engine group (s.grammar id) s t fun x =>
        (expandAction engine group s (s.grammar id) x).2 := by
  rcases hload : loadGroupOf engine store config s (s.grammar id) with ⟨_ | group, loading⟩
  · exact .inl ⟨loading, rfl, expand_of_none hload⟩
  · obtain ⟨t, hrun, ht⟩ := expandWith_expanded engine group (s.grammar id) hf
    refine .inr ⟨group, loading, t, rfl, ?_, ht⟩
    rw [expand_of_some hload, hrun]

/-- Only code is replaced. -/
theorem Template.Expansion.text_of_not_code {group : γ} {site : ActionSite} {kind : Kind}
    {text new : String} {report : Report} (h : Expansion engine group site kind text new report)
    (hcode : ∀ body, ¬ CodeText kind body text) : new = text := by
  cases h with
  | rendered hbody => exact (hcode _ hbody).elim
  | failed => rfl
  | other => rfl

theorem Template.Expanded.text_of_not_code {group : γ} {g : Grammar} {report : NodeId → Report}
    (h : Expanded engine group g s t report)
    (hcode : ∀ body, ¬ CodeText (s.forest.kind x) body (s.forest.text x)) :
    t.forest.text x = s.forest.text x := by
  by_cases hx : x ∈ (s.forest.tree g.root).preorder
  · exact (h.nodes x hx).text_of_not_code hcode
  · exact h.outside x hx

theorem Settled.spares (h : Settled t y) (engine : Engine γ) (store : Store) (config : Config)
    (id : GrammarId) : Spares engine store config id t y := by
  rcases expand_cases engine store config id h.wellFormed with
    ⟨loading, hload, hrun⟩ | ⟨group, loading, u, hload, hrun, hu⟩
  · refine ⟨by rw [hrun], fun loading' hload' => ?_, fun group loading' hload' => ?_⟩
    · rw [hrun, ← (Prod.mk.inj (hload.symm.trans hload')).2]
    · exact nomatch (Prod.mk.inj (hload.symm.trans hload')).1
  · refine ⟨?_, fun loading' hload' => ?_, fun group' loading' hload' => ?_⟩
    · rw [hrun, hu.reworded.label, hu.text_of_not_code h.code]
      rfl
    · exact nomatch (Prod.mk.inj (hload.symm.trans hload')).1
    · obtain ⟨hgroup, rfl⟩ := Prod.mk.inj (hload.symm.trans hload')
      obtain rfl := Option.some.inj hgroup
      rw [hrun]
      refine ⟨_, rfl, hu, ?_⟩
      rw [expandAction_of_not_codeText engine group _ h.code]

/-- A node stays without code if its kind and its text stay. -/
theorem Settled.congr (h : Settled t y) (hu : u.forest.WellFormed) (hlt : z < u.forest.size)
    (hlabel : (u.forest.label z).unowned = (t.forest.label y).unowned) : Settled u z := by
  have hkind : u.forest.kind z = t.forest.kind y := by
    rw [← unowned_kind, hlabel, unowned_kind]
  have htext : u.forest.text z = t.forest.text y := by
    rw [← unowned_text, hlabel, unowned_text]
  refine ⟨hu, hlt, ?_⟩
  rw [hkind, htext]
  exact h.code

theorem Settled.expand (h : Settled t y) (engine : Engine γ) (store : Store) (config : Config)
    (id : GrammarId) : Settled (t.expand engine store config id).1 y := by
  have hlabel := (h.spares engine store config id).label
  rcases expand_cases engine store config id h.wellFormed with
    ⟨loading, -, hrun⟩ | ⟨group, loading, u, -, hrun, hu⟩
  · rw [hrun]
    exact h
  · rw [hrun] at hlabel ⊢
    exact h.congr (hu.reworded.wellFormed h.wellFormed) (hu.reworded.size ▸ h.lt)
      (congrArg Label.unowned hlabel)

theorem Settled.extract {lexer : Option ImplicitLexer} (h : Settled t y)
    (hok : t.extractLexer id = .ok (u, lexer)) : Settled u y := by
  have hu := GrammarSet.extractLexer_extracted h.wellFormed hok
  exact h.congr hu.wellFormed (Nat.lt_of_lt_of_le h.lt hu.size_le) (hu.label y h.lt)

theorem Settled.copy {lexer : ImplicitLexer} (h : Settled t y)
    (hok : t.extractLexer id = .ok (u, some lexer))
    (hcopy : (y, z) ∈ (copiedNodes t.forest (t.grammar id).root).zip
      (copiedNodes u.forest lexer.root)) : Settled u z := by
  have hu := GrammarSet.extractLexer_extracted h.wellFormed hok
  exact h.congr hu.wellFormed
    (lt_size_of_mem_copiedNodes hu.wellFormed (List.of_mem_zip hcopy).2)
    (List.forall₂_zip (hu.copies h.wellFormed) hcopy)

theorem Settled.add (h : Settled t y) (file : String) (root : NodeId) :
    Settled (t.add file root).1 y := by
  have hu := reowned_setOwnerBelow h.wellFormed root t.size
  refine h.congr hu.wellFormed (hu.size ▸ h.lt) ?_
  obtain ⟨owner, hlabel⟩ := hu.label y
  rw [GrammarSet.add, hlabel]
  rfl

theorem Settled.load (h : Settled t y) (file source : String) :
    Settled (t.load file source).1 y := by
  have hg := grown_read h.wellFormed source
  have hread : Settled (t.withForest (t.forest.read source).1) y :=
    h.congr hg.wellFormed (Nat.lt_of_lt_of_le h.lt hg.size_le)
      (congrArg Label.unowned (hg.label h.lt))
  unfold GrammarSet.load
  revert hread
  rcases t.forest.read source with ⟨f, e | root⟩
  · exact fun hread => hread
  · exact fun hread => hread.add file root

theorem Settled.addImport {delegate : GrammarId} (h : Settled t y)
    (hok : t.addImport id delegate = .ok u) : Settled u y := by
  unfold GrammarSet.addImport at hok
  split at hok
  · exact nomatch hok
  · rw [← Except.ok.inj hok]
    exact ⟨h.wellFormed, h.lt, h.code⟩

/-- In `t`, `y` is the node `x` of `s` or a copy of it in a lexer. Between `s` and `t`, grammars
have been read, registered and expanded, and lexers split off. -/
inductive Descends (s : GrammarSet) (x : NodeId) : (t : GrammarSet) → (y : NodeId) → Prop
  | refl : Descends s x s x
  | load {t : GrammarSet} {y : NodeId} (h : Descends s x t y) (file source : String) :
      Descends s x (t.load file source).1 y
  | add {t : GrammarSet} {y : NodeId} (h : Descends s x t y) (file : String) (root : NodeId) :
      Descends s x (t.add file root).1 y
  | addImport {t u : GrammarSet} {y : NodeId} {id delegate : GrammarId} (h : Descends s x t y)
      (hok : t.addImport id delegate = .ok u) : Descends s x u y
  | expand {t : GrammarSet} {y : NodeId} (h : Descends s x t y) {γ : Type} (engine : Engine γ)
      (store : Store) (config : Config) (id : GrammarId) :
      Descends s x (t.expand engine store config id).1 y
  | extract {t u : GrammarSet} {y : NodeId} {id : GrammarId} {lexer : Option ImplicitLexer}
      (h : Descends s x t y) (hok : t.extractLexer id = .ok (u, lexer)) : Descends s x u y
  | copy {t u : GrammarSet} {y z : NodeId} {id : GrammarId} {lexer : ImplicitLexer}
      (h : Descends s x t y) (hok : t.extractLexer id = .ok (u, some lexer))
      (hcopy : (y, z) ∈ (copiedNodes t.forest (t.grammar id).root).zip
        (copiedNodes u.forest lexer.root)) : Descends s x u z

theorem Descends.settled (h : Descends s x t y) (hs : Settled s x) : Settled t y := by
  induction h with
  | refl => exact hs
  | load _ file source ih => exact ih.load file source
  | add _ file root ih => exact ih.add file root
  | addImport _ hok ih => exact ih.addImport hok
  | expand _ engine store config id ih => exact ih.expand engine store config id
  | extract _ hok ih => exact ih.extract hok
  | copy _ hok hcopy ih => exact ih.copy hok hcopy

/-! ### The first run -/

/-- What is put in the place of code holds no code. -/
theorem Template.Expansion.not_code {group : Group} {site : ActionSite} {kind : Kind}
    {text new : String} {report : Report}
    (h : Expansion (Engine.ofStore store limit) group site kind text new report)
    (hne : new ≠ text) (kind' : Kind) (body : String) : ¬ CodeText kind' body new := by
  cases h with
  | @rendered code _ messages hcode hrender =>
    have hhead : new.toList.head? = some ' ' := by
      rw [String.append_assoc] at hrender
      exact renderInline_of_space hrender
    intro hbody
    have hbrace := hbody.head
    rw [hhead] at hbrace
    exact absurd hbrace (by decide)
  | failed => exact (hne rfl).elim
  | other => exact (hne rfl).elim

/-- A node that is replaced is settled. -/
theorem settled_of_replaced {group : Group} {g : Grammar} {report : NodeId → Report}
    (hf : s.forest.WellFormed) (h : Expanded (Engine.ofStore store limit) group g s t report)
    (hx : t.forest.text x ≠ s.forest.text x) : Settled t x := by
  obtain ⟨body, hcode⟩ : ∃ body, CodeText (s.forest.kind x) body (s.forest.text x) := by
    by_contra hnone
    exact hx (h.text_of_not_code (not_exists.mp hnone))
  have hmem : x ∈ (s.forest.tree g.root).preorder := by
    by_contra hout
    exact hx (h.outside x hout)
  refine ⟨h.reworded.wellFormed hf, ?_, (h.nodes x hmem).not_code hx _⟩
  rw [h.reworded.size]
  exact lt_size_of_codeText hcode

/-! ### The same run again -/

/-- A name that ends in the suffix of group files is no code. -/
theorem not_code_of_hasSuffix {kind : Kind} {text : String}
    (h : Path.hasSuffix text groupSuffix = true) (body : String) : ¬ CodeText kind body text := by
  have hlast : text.toList.getLast? = some 'g' := by
    obtain ⟨front, hfront⟩ := List.isSuffixOf_iff_suffix.mp h
    rw [← hfront, List.getLast?_append]
    rfl
  intro hcode
  cases hcode with
  | action =>
    have hbrace : "\x7d".toList.getLast? = some '\x7d' := rfl
    rw [String.toList_append, List.getLast?_append, hbrace, Option.some_or] at hlast
    exact absurd hlast (by decide)
  | predicate =>
    have hmark : "\x7d?".toList.getLast? = some '?' := rfl
    rw [String.toList_append, List.getLast?_append, hmark, Option.some_or] at hlast
    exact absurd hlast (by decide)

theorem hasSuffix_of_loadReferred {f : Forest} {own : Grammar} {r : GroupReference} {group : γ}
    {loading : Report}
    (h : loadReferred engine store config f own r = (some group, loading)) :
    Path.hasSuffix r.file engine.suffix = true := by
  by_contra hsuffix
  rw [Bool.not_eq_true] at hsuffix
  simp [loadReferred, hsuffix] at h

/-- Loading a group does not depend on the forest unless it fails. -/
theorem loadReferred_congr {f : Forest} {own : Grammar} {r : GroupReference} {group : γ}
    {loading : Report} (h : loadReferred engine store config f own r = (some group, loading))
    (g : Forest) : loadReferred engine store config g own r = (some group, loading) := by
  have hsuffix := hasSuffix_of_loadReferred h
  simp only [loadReferred, hsuffix, Bool.not_true, Bool.false_eq_true, if_false] at h ⊢
  cases hpath : resolve? store config own.file r.file with
  | none => simp [hpath] at h
  | some path =>
    simp only [hpath] at h ⊢
    cases hload : (engine.load path).1 with
    | error fault => simp [hload] at h
    | ok loaded => simpa only [hload] using h

/-- The value of the option that names the group is not replaced. -/
theorem optionValue_of_expanded {group : Group} {g : Grammar} {report : NodeId → Report}
    {value : NodeId} (h : Expanded (Engine.ofStore store limit) group g s t report)
    (hsuffix : Path.hasSuffix (s.forest.optionValue value) groupSuffix = true) :
    t.forest.optionValue value = s.forest.optionValue value := by
  have hcode : ∀ body, ¬ CodeText (s.forest.kind value) body (s.forest.text value) := by
    intro body hbody
    by_cases hliteral : s.forest.kind value = .stringLiteral
    · rw [hliteral] at hbody
      exact absurd hbody.holdsCode (by decide)
    · rw [optionValue, if_neg hliteral] at hsuffix
      exact not_code_of_hasSuffix hsuffix body hbody
  rw [optionValue, optionValue, h.reworded.kind, h.text_of_not_code hcode]

theorem loadGroupOf_of_expanded {group : Group} {loading : Report} {g : Grammar}
    {report : NodeId → Report}
    (hload : loadGroupOf (Engine.ofStore store limit) store config s g = (some group, loading))
    (h : Expanded (Engine.ofStore store limit) group g s t report) :
    loadGroupOf (Engine.ofStore store limit) store config t g = (some group, loading) := by
  unfold loadGroupOf at hload
  cases href : reference? config s.forest g with
  | none => simp [href] at hload
  | some r =>
    simp only [href] at hload
    have hsame : reference? config t.forest g = some r := by
      unfold reference? at href ⊢
      split at href
      · exact href
      · obtain ⟨value, hvalue, rfl⟩ := Option.map_eq_some_iff.mp href
        rw [hvalue, Option.map_some,
          optionValue_of_expanded h (hasSuffix_of_loadReferred hload)]
    unfold loadGroupOf
    simp only [hsame]
    exact loadReferred_congr hload t.forest

/-- An expanded tree is not changed by the same group: what has been replaced holds no code, and
what could not be rendered cannot be rendered now. -/
theorem eq_of_expanded_twice {group : Group} {g : Grammar} {report report' : NodeId → Report}
    (hf : s.forest.WellFormed)
    (h : Expanded (Engine.ofStore store limit) group g s t report)
    (h' : Expanded (Engine.ofStore store limit) group g t u report') : u = t := by
  have htext : ∀ x, u.forest.text x = t.forest.text x := by
    intro x
    by_cases hsame : t.forest.text x = s.forest.text x
    · by_cases hmem : x ∈ (s.forest.tree g.root).preorder
      · have hfirst := h.nodes x hmem
        rw [← h.reworded.tree] at hmem
        have hagain := h'.nodes x hmem
        rw [codeFile_congr h.grammars h.reworded, h.reworded.position, h.reworded.range,
          h.reworded.kind] at hagain
        rw [← hsame] at hfirst
        exact hagain.unique hfirst
      · rw [← h.reworded.tree] at hmem
        exact h'.outside x hmem
    · exact h'.text_of_not_code (settled_of_replaced hf h hsame).code
  have hforest := h'.reworded.eq_of_text htext
  have hgrammars := h'.grammars
  revert hforest hgrammars
  rcases u with ⟨f, gs⟩
  rcases t with ⟨f', gs'⟩
  rintro rfl rfl
  rfl

namespace GrammarSet

/-- A node whose text has been replaced is left alone by every later run, as are its copies in
lexers, and the same run changes nothing more. -/
theorem expand_once (hf : s.forest.WellFormed) (store : Store) (limit : Nat) (config : Config)
    (id : GrammarId) :
    ∃ first report, s.expand (Engine.ofStore store limit) store config id = (first, report) ∧
      (∀ x t y, first.forest.text x ≠ s.forest.text x → Descends first x t y →
        ∀ (γ : Type) (engine : Engine γ) (store' : Store) (config' : Config) (id' : GrammarId),
          Spares engine store' config' id' t y) ∧
      (first.expand (Engine.ofStore store limit) store config id).1 = first := by
  rcases expand_cases (Engine.ofStore store limit) store config id hf with
    ⟨loading, hload, hrun⟩ | ⟨group, loading, t, hload, hrun, ht⟩
  · refine ⟨s, loading, hrun, fun x t y hx => (hx rfl).elim, ?_⟩
    rw [hrun]
  · refine ⟨t, _, hrun, fun x u y hx hu γ engine store' config' id' => ?_, ?_⟩
    · exact (hu.settled (settled_of_replaced hf ht hx)).spares engine store' config' id'
    · have hgrammar : t.grammar id = s.grammar id := by
        rw [grammar, ht.grammars, ← grammar]
      have hagain := loadGroupOf_of_expanded hload ht
      rw [← hgrammar] at hagain ht
      obtain ⟨u, hrun', hu⟩ := expandWith_expanded (Engine.ofStore store limit) group (t.grammar id)
        (ht.reworded.wellFormed hf)
      rw [expand_of_some hagain, hrun']
      exact eq_of_expanded_twice hf ht hu

/-- A combined grammar with a token rule and an action, which its lexer gets a copy of. -/
def membersTree : Tree Label :=
  .node (.make .grammar "COMBINED_GRAMMAR")
    [.leaf (.make .id "G"),
     .node (.ofKind .namedAction) [.leaf (.make .id "members"), .leaf (.make .action "\x7bm\x7d")],
     .node (.ofKind .rules) [literalRule "A" "'a'"]]

def members : GrammarSet :=
  ⟨(Forest.empty.plant membersTree).1, #[⟨"G", "G.g4", .combined, 0, .empty, [], 0⟩]⟩

def emptyGroup : Store := Store.empty.add "t.stg" (.file (some ""))

def emptyGroupConfig : Config := ⟨none, none, some "t.stg"⟩

/-- The copy of the action in the lexer is not expanded when the lexer is. -/
theorem expand_once_members :
    ∃ first report u lexer,
      members.expand (Engine.ofStore emptyGroup 1) emptyGroup emptyGroupConfig 0 =
        (first, report) ∧
      first.forest.text 4 ≠ members.forest.text 4 ∧
      first.extractLexer 0 = .ok (u, some lexer) ∧
      Descends first 4 (u.add "GLexer.g4" lexer.root).1 15 ∧
      Spares (Engine.ofStore emptyGroup 1) emptyGroup emptyGroupConfig 1
        (u.add "GLexer.g4" lexer.root).1 15 ∧
      (first.expand (Engine.ofStore emptyGroup 1) emptyGroup emptyGroupConfig 0).1 = first := by
  have hplanted := planted_plant Forest.WellFormed.empty membersTree
  obtain ⟨first, report, hrun, honce, hagain⟩ :=
    expand_once (s := members) hplanted.wellFormed emptyGroup 1 emptyGroupConfig 0
  have hfirst : first =
      (members.expand (Engine.ofStore emptyGroup 1) emptyGroup emptyGroupConfig 0).1 := by
    rw [hrun]
  have htext : first.forest.text 4 ≠ members.forest.text 4 := by
    rw [hfirst]
    decide
  have hcopied : (first.extractLexer 0).toOption.any (fun r => r.2.any fun lexer =>
      ((copiedNodes first.forest (first.grammar 0).root).zip
        (copiedNodes r.1.forest lexer.root)).contains (4, 15)) = true := by
    rw [hfirst]
    decide
  rcases hok : first.extractLexer 0 with e | ⟨u, _ | lexer⟩
  · simp [hok, Except.toOption] at hcopied
  · simp [hok, Except.toOption] at hcopied
  · rw [hok] at hcopied
    have hmem := List.contains_iff_mem.mp hcopied
    have hdescends := (Descends.refl.copy hok hmem).add "GLexer.g4" lexer.root
    exact ⟨first, report, u, lexer, hrun, htext, hok, hdescends,
      honce _ _ _ htext hdescends _ _ _ _ _, hagain⟩

end GrammarSet

end GrammarTrees
