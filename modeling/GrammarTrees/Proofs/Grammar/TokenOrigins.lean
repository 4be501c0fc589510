import GrammarTrees.Grammar.TokenOrigin
import GrammarTrees.Proofs.Forest.NewTrees
import GrammarTrees.Proofs.Grammar.Options
import GrammarTrees.Proofs.TreeText.Tokens
import Mathlib.Data.List.Find

/-! The tokens of copied elements. Each element is given the tokens of the node that it was copied
from, as its last options with a token index tell. The tokens that are looked up stand in another
tree, so no step reads what a step before it has written. -/

namespace GrammarTrees

/-! ### Last values -/

/-- `value` belongs to the last entry of a list that has a value. -/
def IsLast {α β : Type} (Has : α → β → Prop) (l : List α) (value : β) : Prop :=
  ∃ before a after, l = before ++ a :: after ∧ Has a value ∧ ∀ b ∈ after, ∀ other, ¬ Has b other

theorem isLast_iff {α β : Type} {Has : α → β → Prop} {get? : α → Option β}
    (hget : ∀ a value, Has a value ↔ get? a = some value) {l : List α} {value : β} :
    IsLast Has l value ↔ (l.filterMap get?).getLast? = some value := by
  constructor
  · rintro ⟨before, a, after, rfl, ha, hafter⟩
    have hnone : after.filterMap get? = [] := by
      rw [List.filterMap_eq_nil_iff]
      intro b hb
      rw [Option.eq_none_iff_forall_ne_some]
      exact fun other hother => hafter b hb other ((hget b other).mpr hother)
    rw [List.filterMap_append, List.filterMap_cons_some ((hget a value).mp ha), hnone]
    simp
  · intro hlast
    induction l using List.reverseRecOn with
    | nil => simp at hlast
    | append_singleton l a ih =>
      rw [List.filterMap_append] at hlast
      cases ha : get? a with
      | some other =>
        rw [List.filterMap_cons_some ha, List.filterMap_nil, List.getLast?_append] at hlast
        obtain rfl : other = value := by simpa using hlast
        exact ⟨l, a, [], rfl, (hget a other).mpr ha, by simp⟩
      | none =>
        rw [List.filterMap_cons_none ha, List.filterMap_nil, List.append_nil] at hlast
        obtain ⟨before, b, after, rfl, hb, hafter⟩ := ih hlast
        refine ⟨before, b, after ++ [a], by simp, hb, fun c hc => ?_⟩
        rcases List.mem_append.mp hc with hc | hc
        · exact hafter c hc
        · rw [List.mem_singleton.mp hc]
          intro other hother
          simp [(hget a other).mp hother] at ha

/-- Decimal digits, with or without a plus sign in front, that spell a number of 32 bits. -/
def SpellsNumber (cs : List Char) (n : Nat) : Prop :=
  ∃ digits, (cs = digits ∨ cs = '+' :: digits) ∧ TreeText.IsDigits digits ∧
    digitsValue digits = n ∧ n < UInt32.size

theorem readDigits_eq_some_iff {cs : List Char} {n : Nat} : readDigits cs = some n ↔
    TreeText.IsDigits cs ∧ digitsValue cs = n ∧ n < UInt32.size := by
  rw [readDigits, Option.ite_none_right_eq_some, Option.some.injEq, List.all_eq_true]
  constructor
  · rintro ⟨⟨hne, hdigits, hlt⟩, rfl⟩
    exact ⟨⟨hne, hdigits⟩, rfl, hlt⟩
  · rintro ⟨⟨hne, hdigits⟩, rfl, hlt⟩
    exact ⟨⟨hne, hdigits, hlt⟩, rfl⟩

theorem readNumber_eq_some_iff {cs : List Char} {n : Nat} :
    readNumber cs = some n ↔ SpellsNumber cs n := by
  rw [readNumber.eq_def]
  split
  · rename_i digits
    rw [readDigits_eq_some_iff]
    refine ⟨fun h => ⟨digits, .inr rfl, h⟩, ?_⟩
    rintro ⟨_, rfl | hcs, h⟩
    · exact absurd (h.1.2 '+' (by simp)) (by decide)
    · rwa [List.tail_eq_of_cons_eq hcs]
  · rename_i hplus
    rw [readDigits_eq_some_iff]
    refine ⟨fun h => ⟨cs, .inl rfl, h⟩, ?_⟩
    rintro ⟨digits, rfl | rfl, h⟩
    · exact h
    · exact absurd rfl (hplus digits)

/-- The node with other tokens. -/
def Node.withTokens (n : Node) (span : TokenSpan) : Node :=
  { n with label := { n.label with tokens := span } }

namespace Forest

variable {f g : Forest} {o e root tree x : Nat} {index : Nat} {os es : List NodeId}

/-! ### What elements tell -/

/-- `option` assigns `value` to the token index. -/
def AssignsTokenIndex (f : Forest) (option value : NodeId) : Prop :=
  ∃ name, f.child? option 0 = some name ∧ f.text name = tokenIndexOption ∧
    f.child? option 1 = some value

/-- The last token index among the options is a number. -/
def HasTokenIndex (f : Forest) (options : NodeId) (index : Nat) : Prop :=
  ∃ value, IsLast f.AssignsTokenIndex (f.children options) value ∧
    SpellsNumber (f.text value).toList index

/-- The token index of an element. It may have options more than once. -/
def ElementIndex (f : Forest) (element : NodeId) (index : Nat) : Prop :=
  IsLast f.HasTokenIndex (f.childrenOfKind element .elementOptions) index

/-- The tokens that belong to a token index in the tree of `root`. -/
inductive Origin (f : Forest) (root : NodeId) (index : Nat) : TokenSpan → Prop
  | found {before : List NodeId} {n : NodeId} {after : List NodeId}
      (htree : (f.tree root).preorder = before ++ n :: after)
      (hn : (f.tokens n).index = some index)
      (hbefore : ∀ m ∈ before, (f.tokens m).index ≠ some index) :
      Origin f root index ⟨some index, (f.tokens n).start, (f.tokens n).stop⟩
  | alone (hnone : ∀ m, f.Within m root → (f.tokens m).index ≠ some index) :
      Origin f root index ⟨some index, some index, some index⟩

theorem assignsTokenIndex_iff (f : Forest) (o value : NodeId) : f.AssignsTokenIndex o value ↔
    ((f.readOption? o).bind fun e => if e.1 = tokenIndexOption then some e.2 else none) =
      some value := by
  rw [AssignsTokenIndex, readOption?]
  cases f.child? o 0 with
  | none => simp
  | some name => cases f.child? o 1 <;> simp

theorem hasTokenIndex_iff (f : Forest) (o : NodeId) (index : Nat) :
    f.HasTokenIndex o index ↔ f.tokenIndex? o = some index := by
  rw [HasTokenIndex, tokenIndex?, readOptions, OrderedMap.get?_ofList, List.filterMap_filterMap,
    Option.bind_eq_some_iff]
  simp only [isLast_iff f.assignsTokenIndex_iff, readNumber_eq_some_iff]

theorem elementIndex_iff : f.ElementIndex x index ↔
    ((f.childrenOfKind x .elementOptions).filterMap f.tokenIndex?).getLast? = some index :=
  isLast_iff f.hasTokenIndex_iff

theorem origin_originOf (h : f.WellFormed) (hroot : root < f.size) (index : Nat) :
    f.Origin root index (f.originOf root index) := by
  rw [originOf, nodeOfToken?, preorder_eq h hroot]
  cases hfind : (f.tree root).preorder.find? fun n => (f.tokens n).index = some index with
  | some n =>
    obtain ⟨hn, before, after, htree, hbefore⟩ := List.find?_eq_some_iff_append.mp hfind
    exact .found htree (by simpa using hn) fun m hm => by simpa using hbefore m hm
  | none =>
    refine .alone fun m hm => ?_
    rw [List.find?_eq_none] at hfind
    simpa using hfind m ((mem_preorder_tree h hroot).mpr hm)

/-! ### The run -/

/-- A step that restores tokens from the tree of `root` reads the same in `g` as in `f`. -/
structure ReadsAlike (f g : Forest) (root : NodeId) : Prop where
  size : g.size = f.size
  children : ∀ x, g.children x = f.children x
  parent? : ∀ x, g.parent? x = f.parent? x
  text : ∀ x, g.text x = f.text x
  tokens : ∀ x, f.Within x root → g.tokens x = f.tokens x

theorem node_setTokens (f : Forest) (e : NodeId) (span : TokenSpan) (x : NodeId) :
    (f.setTokens e span).node x =
      if x = e ∧ x < f.size then (f.node x).withTokens span else f.node x :=
  node_modify ..

theorem ReadsAlike.setTokens (hg : f.ReadsAlike g root) (he : ¬ f.Within e root)
    (span : TokenSpan) : f.ReadsAlike (g.setTokens e span) root := by
  refine ⟨(size_relabel ..).trans hg.size, fun x => (children_relabel ..).trans (hg.children x),
    fun x => (parent?_relabel ..).trans (hg.parent? x), fun x => ?_, fun x hx => ?_⟩
  · rw [← hg.text, Forest.text, Forest.label, node_setTokens]
    split <;> rfl
  · have hne : x ≠ e := fun heq => he (heq ▸ hx)
    rw [← hg.tokens x hx, Forest.tokens, Forest.label, node_setTokens, if_neg fun h => hne h.1]
    rfl

theorem ReadsAlike.tokenIndex? (hg : f.ReadsAlike g root) (o : NodeId) :
    g.tokenIndex? o = f.tokenIndex? o := by
  have hoption : g.readOption? = f.readOption? := by
    funext c
    simp only [readOption?, child?, hg.children, hg.text]
  rw [Forest.tokenIndex?, Forest.tokenIndex?, readOptions, readOptions, hg.children, hoption]
  simp only [hg.text]

theorem ReadsAlike.preorder (hg : f.ReadsAlike g root) (x : NodeId) :
    g.preorder x = f.preorder x := by
  have hvisit : ∀ bound pending, g.visit bound pending = f.visit bound pending := by
    intro bound
    induction bound with
    | zero => exact fun _ => rfl
    | succ bound ih =>
      intro pending
      cases pending with
      | nil => rfl
      | cons a pending => rw [visit, visit, hg.children, ih]
  rw [Forest.preorder, Forest.preorder, hg.size, hvisit]

theorem ReadsAlike.originOf (h : f.WellFormed) (hg : f.ReadsAlike g root) (index : Nat) :
    g.originOf root index = f.originOf root index := by
  have htokens : ∀ x ∈ f.preorder root, g.tokens x = f.tokens x := fun x hx =>
    hg.tokens x (within_of_mem_preorder h hx)
  have hnode : g.nodeOfToken? root index = f.nodeOfToken? root index := by
    rw [nodeOfToken?, nodeOfToken?, hg.preorder]
    refine List.find?_congr fun x hx => ?_
    rw [htokens x hx]
  rw [Forest.originOf, Forest.originOf, hnode]
  cases hfind : f.nodeOfToken? root index with
  | none => rfl
  | some n => simp only [htokens n (List.mem_of_find?_eq_some hfind)]

/-- The node `x` after its tokens are restored by the options `os`. -/
def restoredNode (f : Forest) (root x : NodeId) (os : List NodeId) : Node :=
  match (os.filterMap f.tokenIndex?).getLast? with
  | some index => (f.node x).withTokens (f.originOf root index)
  | none => f.node x

theorem restoredNode_of_none (hnone : ∀ index, (os.filterMap f.tokenIndex?).getLast? ≠ some index) :
    f.restoredNode root x os = f.node x := by
  rw [restoredNode, Option.eq_none_iff_forall_ne_some.mpr hnone]

theorem restoredNode_concat (f : Forest) (root x : NodeId) (os : List NodeId) (o : NodeId) :
    f.restoredNode root x (os ++ [o]) =
      match f.tokenIndex? o with
      | some index => (f.node x).withTokens (f.originOf root index)
      | none => f.restoredNode root x os := by
  rw [restoredNode, List.filterMap_append]
  cases ho : f.tokenIndex? o with
  | some index => simp [ho]
  | none => simp [ho, restoredNode]

/-- The elements of the options `os` stand below `tree`. -/
def BelongBelow (f : Forest) (tree : NodeId) (os : List NodeId) : Prop :=
  ∀ o ∈ os, ∀ e, f.parent? o = some e → f.Within e tree

section Run

variable (h : f.WellFormed) (hapart : ∀ x, f.Within x tree → ¬ f.Within x root)
include h hapart

/-- What is restored at a node is told by its own options, as they stood at the start. -/
theorem foldl_restoreOrigin (hos : f.BelongBelow tree os) :
    f.ReadsAlike (os.foldl (restoreOrigin root) f) root ∧
      ∀ x < f.size, (os.foldl (restoreOrigin root) f).node x =
        f.restoredNode root x (os.filter fun o => f.parent? o = some x) := by
  -- The steps so far have written tokens below `tree` only, and tokens are read below `root`.
  induction os using List.reverseRecOn with
  | nil => exact ⟨⟨rfl, fun _ => rfl, fun _ => rfl, fun _ => rfl, fun _ _ => rfl⟩, fun _ _ => rfl⟩
  | append_singleton os o ih =>
    obtain ⟨halike, hnode⟩ := ih fun o ho => hos o (List.mem_append_left _ ho)
    rw [List.foldl_append, List.foldl_cons, List.foldl_nil]
    generalize os.foldl (restoreOrigin root) f = g at halike hnode
    rw [restoreOrigin, halike.parent?, halike.tokenIndex?]
    cases hparent : f.parent? o with
    | none =>
      refine ⟨halike, fun x hx => ?_⟩
      simp [List.filter_append, hparent, hnode x hx]
    | some e =>
      have he : ¬ f.Within e root := hapart e (hos o (by simp) e hparent)
      cases hindex : f.tokenIndex? o with
      | none =>
        refine ⟨halike, fun x hx => ?_⟩
        rw [hnode x hx, List.filter_append]
        by_cases hxe : e = x
        · simp [hparent, hxe, restoredNode_concat, hindex]
        · simp [hparent, hxe]
      | some index =>
        refine ⟨halike.setTokens he _, fun x hx => ?_⟩
        rw [node_setTokens, halike.originOf h, halike.size, List.filter_append]
        by_cases hxe : e = x
        · subst hxe
          rw [if_pos ⟨rfl, hx⟩, hnode e hx]
          simp only [hparent, List.filter_cons_of_pos, List.filter_nil, decide_true,
            restoredNode_concat, hindex]
          rw [restoredNode]
          split <;> rfl
        · rw [if_neg fun hc => hxe hc.1.symm, hnode x hx]
          simp [hparent, hxe]

theorem foldl_restoreOrigin_congr {os' : List NodeId} (hos : f.BelongBelow tree os)
    (hos' : f.BelongBelow tree os')
    (hsame : ∀ x, (os.filter fun o => f.parent? o = some x) =
      os'.filter fun o => f.parent? o = some x) :
    os.foldl (restoreOrigin root) f = os'.foldl (restoreOrigin root) f := by
  obtain ⟨halike, hnode⟩ := foldl_restoreOrigin h hapart hos
  obtain ⟨halike', hnode'⟩ := foldl_restoreOrigin h hapart hos'
  refine eq_of_node (halike.size.trans halike'.size.symm) fun x => ?_
  by_cases hx : x < f.size
  · rw [hnode x hx, hnode' x hx, hsame]
  · have hle : f.size ≤ x := Nat.le_of_not_lt hx
    rw [node_of_size_le (halike.size ▸ hle), node_of_size_le (halike'.size ▸ hle)]

end Run

/-! ### The elements of a tree -/

/-- The options of the elements `es`, one element after the other. -/
def optionsOfAll (f : Forest) (es : List NodeId) : List NodeId :=
  es.flatMap fun e => f.childrenOfKind e .elementOptions

section Elements

variable (h : f.WellFormed)
include h

/-- The options of `x` come in their order, wherever the elements stand. -/
theorem filter_optionsOfAll (hes : es.Nodup) (x : NodeId) :
    ((f.optionsOfAll es).filter fun o => f.parent? o = some x) =
      if x ∈ es then f.childrenOfKind x .elementOptions else [] := by
  unfold optionsOfAll
  induction es with
  | nil => rfl
  | cons e es ih =>
    rw [List.nodup_cons] at hes
    rw [List.flatMap_cons, List.filter_append, ih hes.2]
    by_cases hxe : x = e
    · subst hxe
      rw [if_neg hes.1, if_pos List.mem_cons_self, List.append_nil, List.filter_eq_self]
      exact fun o ho => by simpa using ((mem_childrenOfKind h).mp ho).1
    · have hnil : (f.childrenOfKind e .elementOptions).filter
          (fun o => f.parent? o = some x) = [] := by
        rw [List.filter_eq_nil_iff]
        intro o ho
        simpa [((mem_childrenOfKind h).mp ho).1] using Ne.symm hxe
      rw [hnil, List.nil_append]
      simp only [List.mem_cons, hxe, false_or]

theorem belongBelow_optionsOfAll (hes : ∀ e ∈ es, f.Within e tree) :
    f.BelongBelow tree (f.optionsOfAll es) := by
  intro o ho e he
  obtain ⟨e', he', ho⟩ := List.mem_flatMap.mp ho
  obtain rfl : e = e' := Option.some.inj (he.symm.trans ((mem_childrenOfKind h).mp ho).1)
  exact hes e he'

variable (htree : tree < f.size) (hroot : f.parent? tree = none)
include hroot

theorem belongBelow_descendants :
    f.BelongBelow tree (f.descendantsOfKind tree .elementOptions) := by
  intro o ho e he
  have hw := within_of_mem_preorder h (List.mem_of_mem_filter ho)
  rcases within_iff.mp hw with rfl | ⟨p, hp, hpt⟩
  · simp [hroot] at he
  · obtain rfl : e = p := Option.some.inj (he.symm.trans hp)
    exact hpt

include htree in
theorem filter_descendants_options (x : NodeId) :
    ((f.descendantsOfKind tree .elementOptions).filter fun o => f.parent? o = some x) =
      if x ∈ (f.tree tree).preorder then f.childrenOfKind x .elementOptions else [] := by
  rw [descendantsOfKind, preorder_eq h htree, List.filter_comm]
  by_cases hx : x ∈ (f.tree tree).preorder
  · rw [if_pos hx, filter_parent?_preorder_tree h htree ((mem_preorder_tree h htree).mp hx)]
    rfl
  · have hnil : ((f.tree tree).preorder.filter fun o => f.parent? o = some x) = [] := by
      rw [List.filter_eq_nil_iff]
      intro o ho he
      rw [mem_preorder_tree h htree] at ho hx
      rcases within_iff.mp ho with rfl | ⟨p, hp, hpt⟩
      · simp [hroot] at he
      · rw [decide_eq_true_eq, hp] at he
        exact hx (Option.some.inj he ▸ hpt)
    rw [if_neg hx, hnil]
    rfl

end Elements

/-! ### Restored origins -/

/-- `g` is `f` with the tokens of the elements of `tree` restored from the tree of `root`. -/
structure OriginsRestored (f g : Forest) (root tree : NodeId) : Prop where
  size : g.size = f.size
  /-- An element with a token index says what it said before, but for its tokens. -/
  element : ∀ x, f.Within x tree → ∀ index, f.ElementIndex x index → ∃ span,
    f.Origin root index span ∧ g.node x = (f.node x).withTokens span
  /-- All other nodes stay as they are. -/
  other : ∀ x, (f.Within x tree → ∀ index, ¬ f.ElementIndex x index) → g.node x = f.node x

/-- Where a tree stands apart from that of a grammar, its elements are given the tokens that they
have in the grammar and nothing else is changed, in whatever order the elements are taken. -/
theorem restoreOrigins_restored (h : f.WellFormed) (hroot : root < f.size) (htree : tree < f.size)
    (hparent : f.parent? tree = none) (hapart : ∀ x, f.Within x tree → ¬ f.Within x root) :
    f.OriginsRestored (f.restoreOrigins root tree) root tree ∧
      ∀ es : List NodeId, es.Perm (f.tree tree).preorder →
        (f.optionsOfAll es).foldl (restoreOrigin root) f = f.restoreOrigins root tree := by
  have hbelow := belongBelow_descendants h hparent
  obtain ⟨halike, hnode⟩ := foldl_restoreOrigin h hapart hbelow
  simp only [filter_descendants_options h htree hparent] at hnode
  refine ⟨⟨halike.size, fun x hx index hindex => ?_, fun x hx => ?_⟩, fun es hes => ?_⟩
  · have hlt : x < f.size := hx.lt_size htree
    refine ⟨_, origin_originOf h hroot index, ?_⟩
    rw [restoreOrigins, hnode x hlt, if_pos ((mem_preorder_tree h htree).mpr hx), restoredNode,
      elementIndex_iff.mp hindex]
  · by_cases hlt : x < f.size
    · rw [restoreOrigins, hnode x hlt]
      split
      · rename_i hmem
        have hw := (mem_preorder_tree h htree).mp hmem
        exact restoredNode_of_none fun index hindex => hx hw index (elementIndex_iff.mpr hindex)
      · rfl
    · have hle : f.size ≤ x := Nat.le_of_not_lt hlt
      rw [node_of_size_le hle, restoreOrigins, node_of_size_le (halike.size.symm ▸ hle)]
  · have hmem : ∀ {e}, e ∈ es ↔ e ∈ (f.tree tree).preorder := hes.mem_iff
    refine foldl_restoreOrigin_congr h hapart
      (belongBelow_optionsOfAll h fun e he => (mem_preorder_tree h htree).mp (hmem.mp he)) hbelow
      fun x => ?_
    rw [filter_optionsOfAll h (hes.nodup_iff.mpr (nodup_preorder_tree h htree)),
      filter_descendants_options h htree hparent]
    simp only [hmem]

/-- A rule in which two nodes were built from token 5. -/
def numberedRule : Tree Label :=
  .node (.make .rule "r")
    [.leaf { Label.make .ruleRef "x" with tokens := ⟨some 5, some 5, some 7⟩ },
      .leaf { Label.make .ruleRef "y" with tokens := ⟨some 5, some 6, some 6⟩ }]

def optionsTree (values : List String) : Tree Label :=
  .node (.ofKind .elementOptions) (values.map fun value =>
    .node (.ofKind .assign) [.leaf (.make .id tokenIndexOption), .leaf (.make .int value)])

/-- An alternative of two elements. The last options of the first have no number, and the second
stands for a token that nothing in the rule was built from. -/
def copiedAlt : Tree Label :=
  .node (.ofKind .alt)
    [.node (.make .ruleRef "x") [optionsTree ["4", "5"], optionsTree ["9", "+"]],
      .node (.make .ruleRef "z") [optionsTree ["+9"]]]

/-- The rule at node 0 and the alternative at node 3. -/
def copiedForest : Forest := ((empty.plant numberedRule).1.plant copiedAlt).1

theorem restoreOrigins_restored_copied :
    copiedForest.OriginsRestored (copiedForest.restoreOrigins 0 3) 0 3 ∧
      (copiedForest.restoreOrigins 0 3).tokens 4 = ⟨some 5, some 5, some 7⟩ ∧
      (copiedForest.restoreOrigins 0 3).tokens 19 = ⟨some 9, some 9, some 9⟩ := by
  have hrule : (empty.plant numberedRule).1.WellFormed := wellFormed_plant_empty _
  have hplanted := planted_plant hrule copiedAlt
  refine ⟨(restoreOrigins_restored hplanted.wellFormed (by decide +kernel) (by decide +kernel)
    (by decide +kernel) fun x hx hroot => ?_).1, by decide +kernel, by decide +kernel⟩
  have hnew := ((within_plant_iff hrule copiedAlt).mp hx).1
  have hold := (hplanted.lt_size_iff_of_within hrule hroot).mpr (by decide +kernel)
  exact Nat.not_lt.mpr hnew hold

end Forest

end GrammarTrees
