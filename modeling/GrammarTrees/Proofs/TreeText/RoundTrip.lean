import GrammarTrees.Proofs.Forest.Planting
import GrammarTrees.Proofs.TreeText.Reading

/-! Trees that were read from any text have texts that can be written, so reading and writing are
inverse to each other up to what is not written: reading a written tree gives it back, and what was
read is written in one way. -/

namespace GrammarTrees

namespace TreeText

variable {l : Label} {r r' : Reader} {outer : List OpenNode} {n : OpenNode} {stage : Stage}
  {x : Lexeme Token} {xs : List (Lexeme Token)}

/-- Every text that an open node has so far can be written. -/
def OpenNode.Writable (n : OpenNode) : Prop :=
  n.label.Writable ∧ ∀ t ∈ n.children, ∀ l ∈ t.preorder, l.Writable

/-- Every text of the stage can be written. -/
def Stage.Writable : Stage → Prop
  | .inside n => n.Writable
  | .finished t => ∀ l ∈ t.preorder, l.Writable
  | _ => True

/-- Every text that a reader has read can be written. -/
def Reader.Writable : Reader → Prop
  | .settled outer stage => (∀ n ∈ outer, n.Writable) ∧ stage.Writable
  | .pending outer _ l _ => (∀ n ∈ outer, n.Writable) ∧ l.Writable

theorem OpenNode.Writable.tree (h : n.Writable) : ∀ l ∈ n.tree.preorder, l.Writable := by
  intro l hl
  rw [OpenNode.tree, Tree.preorder_node, List.mem_cons] at hl
  rcases hl with rfl | hl
  · exact h.1
  · obtain ⟨t, ht, hl⟩ := List.mem_flatMap.mp hl
    exact h.2 t (List.mem_reverse.mp ht) l hl

theorem OpenNode.Writable.add {t : Tree Label} (h : n.Writable)
    (ht : ∀ l ∈ t.preorder, l.Writable) : (n.add t).Writable :=
  ⟨h.1, List.forall_mem_cons.mpr ⟨ht, h.2⟩⟩

theorem writable_afterTree {t : Tree Label} (ho : ∀ n ∈ outer, n.Writable)
    (ht : ∀ l ∈ t.preorder, l.Writable) : (Reader.ofStage (afterTree outer t)).Writable := by
  cases outer with
  | nil => exact ⟨ho, ht⟩
  | cons n outer =>
    rw [List.forall_mem_cons] at ho
    exact ⟨ho.2, ho.1.add ht⟩

theorem writable_afterNode {opens : Bool} (ho : ∀ n ∈ outer, n.Writable) (hl : l.Writable) :
    (Reader.ofStage (afterNode outer opens l)).Writable := by
  cases opens with
  | true => exact ⟨ho, hl, by simp⟩
  | false => exact writable_afterTree ho (by simpa [Tree.leaf] using hl)

theorem Reader.Writable.settle (h : r.Writable) : (Reader.ofStage r.settle).Writable := by
  cases r with
  | settled outer stage => exact h
  | pending outer opens l mayHaveText => exact writable_afterNode h.1 h.2

theorem Reader.Writable.grow (h : r.Writable) (hr : r.grow? x = some r') : r'.Writable := by
  rw [Reader.grow?.eq_def] at hr
  split at hr
  · obtain rfl := Option.some.inj hr
    exact ⟨h.1, trivial⟩
  · obtain rfl := Option.some.inj hr
    exact writable_afterNode h.1 h.2
  · simp at hr

theorem writable_readKind {opens : Bool} (ho : ∀ n ∈ outer, n.Writable)
    (h : readKind outer opens x = .ok r) : r.Writable := by
  rw [readKind] at h
  split at h
  · obtain rfl := Except.ok.inj h
    exact ⟨ho, .inl rfl⟩
  · simp at h

theorem writable_readNode (ho : ∀ n ∈ outer, n.Writable) (h : readNode outer x = .ok r) :
    r.Writable := by
  rw [readNode.eq_def] at h
  split at h
  · obtain rfl := Except.ok.inj h
    exact ⟨ho, trivial⟩
  · exact writable_readKind ho h
  · simp [unexpected] at h

theorem writable_readText {opens : Bool} {kind : Kind} (ho : ∀ n ∈ outer, n.Writable)
    (hx : ∀ t, x.token = some t → t.Spells x.chars)
    (h : readIn outer (.text opens kind) x = .ok r) : r.Writable := by
  have htext : (Label.make kind x.text).text.toList = x.chars := by
    rw [Label.make, Lexeme.text, String.toList_ofList]
  rw [readIn] at h
  split at h
  · obtain rfl := Except.ok.inj h
    exact ⟨ho, .inr (.inl (htext ▸ hx .word ‹_›))⟩
  · obtain rfl := Except.ok.inj h
    exact ⟨ho, .inr (.inr (.inl (htext ▸ hx .quoted ‹_›)))⟩
  · obtain rfl := Except.ok.inj h
    exact ⟨ho, .inr (.inr (.inr (htext ▸ hx .braced ‹_›)))⟩
  · simp [unexpected] at h

/-- Reading one more lexeme keeps all texts such that they can be written. -/
theorem writable_readIn (hx : ∀ t, x.token = some t → t.Spells x.chars)
    (hw : (Reader.settled outer stage).Writable) (h : readIn outer stage x = .ok r) :
    r.Writable := by
  cases stage with
  | start => exact writable_readNode hw.1 h
  | head =>
    rw [readIn] at h
    split at h
    · exact writable_readKind hw.1 h
    · simp [unexpected] at h
  | text opens kind => exact writable_readText hw.1 hx h
  | inside node =>
    rw [readIn] at h
    split at h
    · obtain rfl := Except.ok.inj h
      exact writable_afterTree hw.1 hw.2.tree
    · exact writable_readNode (List.forall_mem_cons.mpr ⟨hw.2, hw.1⟩) h
  | finished tree => simp [readIn, unexpected] at h

theorem writable_readLexemes {t : Tree Label}
    (hxs : ∀ x ∈ xs, ∀ t, x.token = some t → t.Spells x.chars) (hr : r.Writable)
    (h : readLexemes r xs = .ok t) : ∀ l ∈ t.preorder, l.Writable := by
  induction xs generalizing r with
  | nil =>
    have hs := hr.settle
    rw [readLexemes] at h
    generalize r.settle = s at h hs
    obtain ⟨outer, stage⟩ := s
    cases stage with
    | finished tree =>
      obtain rfl : tree = t := by simpa [finish] using h
      exact hs.2
    | _ => simp [finish] at h
  | cons x xs ih =>
    rw [List.forall_mem_cons] at hxs
    rw [readLexemes] at h
    split at h
    · exact ih hxs.2 (hr.grow ‹_›) h
    · have hs := hr.settle
      simp only at h
      split at h
      · exact ih hxs.2 (writable_readIn hxs.1 hs ‹_›) h
      · simp at h

theorem spells_readFrom (cs : List Char) (offset skip : Nat) :
    ∀ x ∈ Lexeme.readFrom scan (fun _ => false) offset skip cs,
      ∀ t, x.token = some t → t.Spells x.chars := by
  induction cs generalizing offset skip with
  | nil => simp [Lexeme.readFrom]
  | cons c cs ih =>
    cases skip with
    | succ skip => exact ih _ _
    | zero =>
      simp only [Lexeme.readFrom, Bool.false_eq_true, if_false, List.forall_mem_cons]
      refine ⟨fun t ht => spells_of_scan (n := (scan c cs).further) ?_, ih _ _⟩
      rw [← ht]

/-- A tree that was read has texts that can be written. -/
theorem writable_of_read {source : String} {t : Tree Label} (h : read source = .ok t) :
    ∀ l ∈ t.preorder, l.Writable := by
  rw [read] at h
  split at h
  · simp at h
  · refine writable_readLexemes (r := .settled [] .start) (fun x hx => ?_) ⟨by simp, trivial⟩ h
    exact spells_readFrom source.toList 0 0 x (List.mem_of_mem_filter hx)

mutual

/-- What is written for a tree depends on the kinds and texts alone. -/
theorem chars_map_bare : (t : Tree Label) → chars (t.map Label.bare) = chars t
  | .node l ts => by
    rw [Tree.map_node, chars, chars, childChars_map_bare ts, List.isEmpty_map]
    rfl

theorem childChars_map_bare : (ts : List (Tree Label)) →
    childChars (ts.map (Tree.map Label.bare)) = childChars ts
  | [] => rfl
  | t :: ts => by
    rw [List.map_cons, childChars, childChars, chars_map_bare t, childChars_map_bare ts]

end

end TreeText

namespace Forest

variable {f g k : Forest} {id root : Nat}

/-- Every text of the subtree of `id` can be written. -/
def Writable (f : Forest) (id : NodeId) : Prop := ∀ n, f.Within n id → (f.label n).Writable

/-- The labels of a subtree are those of the nodes at or below its root. -/
theorem mem_preorder_labelTree (h : f.WellFormed) (hid : id < f.size) (l : Label) :
    l ∈ (f.labelTree id).preorder ↔ ∃ n, f.Within n id ∧ f.label n = l := by
  refine h.induction_down
    (P := fun id => l ∈ (f.labelTree id).preorder ↔ ∃ n, f.Within n id ∧ f.label n = l)
    (fun a ha ih => ?_) hid
  rw [labelTree_eq h ha, Tree.preorder_node, List.mem_cons, List.mem_flatMap]
  constructor
  · rintro (rfl | ⟨t, ht, hl⟩)
    · exact ⟨a, .refl f a, rfl⟩
    · obtain ⟨c, hc, rfl⟩ := List.mem_map.mp ht
      obtain ⟨n, hn, hl⟩ := (ih c hc).mp hl
      exact ⟨n, hn.trans (.of_parent (h.mem_children.mp hc) (.refl f a)), hl⟩
  · rintro ⟨n, hn, rfl⟩
    rcases Relation.ReflTransGen.cases_tail hn with rfl | ⟨c, hnc, hca⟩
    · exact .inl rfl
    · have hc := h.mem_children.mpr hca
      exact .inr ⟨_, List.mem_map_of_mem hc, (ih c hc).mpr ⟨n, hnc, rfl⟩⟩

theorem writable_iff (h : f.WellFormed) (hid : id < f.size) :
    f.Writable id ↔ ∀ l ∈ (f.labelTree id).preorder, l.Writable := by
  constructor
  · intro hw l hl
    obtain ⟨n, hn, rfl⟩ := (mem_preorder_labelTree h hid l).mp hl
    exact hw n hn
  · intro hw n hn
    exact hw _ ((mem_preorder_labelTree h hid _).mpr ⟨n, hn, rfl⟩)

theorem read_of_ok {source : String} {t : Tree Label} (h : TreeText.read source = .ok t) :
    k.read source = ((k.plant t).1, .ok (k.plant t).2) := by
  rw [Forest.read, h]

/-- What was read is a new tree. -/
theorem planted_of_read {source : String} (hk : k.WellFormed)
    (h : k.read source = (g, .ok root)) :
    ∃ t, TreeText.read source = .ok t ∧ k.Planted g root t := by
  rw [Forest.read] at h
  split at h
  · rename_i t ht
    obtain ⟨rfl, hroot⟩ := Prod.mk.inj h
    obtain rfl := Except.ok.inj hroot
    exact ⟨t, ht, planted_plant hk t⟩
  · simp at h

/-- A written tree is read back in any forest. -/
theorem read_write (hf : f.WellFormed) (hk : k.WellFormed) (hid : id < f.size)
    (hw : f.Writable id) :
    ∃ g root, k.read (f.write id) = (g, .ok root) ∧
      k.Planted g root ((f.labelTree id).map Label.bare) := by
  have hread := TreeText.read_write ((writable_iff hf hid).mp hw)
  exact ⟨_, _, read_of_ok hread, planted_plant hk _⟩

theorem writable_of_read {source : String} (hk : k.WellFormed)
    (h : k.read source = (g, .ok root)) : g.Writable root := by
  obtain ⟨t, ht, hg⟩ := planted_of_read hk h
  rw [writable_iff hg.wellFormed hg.root_lt, hg.labelTree_root]
  exact TreeText.writable_of_read ht

/-- Reading undoes writing: where all texts can be written, the tree that is read has the shape, the
kinds and the texts of the one that was written. Whatever is read has such texts, and what is
written for it is read and written as it stands. -/
theorem read_undoes_write (hf : f.WellFormed) (hk : k.WellFormed) :
    (∀ id < f.size, f.Writable id → ∃ g root, k.read (f.write id) = (g, .ok root) ∧
      g.labelTree root = (f.labelTree id).map Label.bare) ∧
    ∀ source g root, f.read source = (g, .ok root) → g.Writable root ∧
      ∃ g' root', k.read (g.write root) = (g', .ok root') ∧ g'.write root' = g.write root := by
  refine ⟨fun id hid hw => ?_, fun source g root h => ?_⟩
  · obtain ⟨g, root, hread, hg⟩ := read_write hf hk hid hw
    exact ⟨g, root, hread, hg.labelTree_root⟩
  · have hw := writable_of_read hf h
    obtain ⟨t, -, hg⟩ := planted_of_read hf h
    obtain ⟨g', root', hread, hg'⟩ := read_write hg.wellFormed hk hg.root_lt hw
    refine ⟨hw, g', root', hread, ?_⟩
    rw [write, write, hg'.labelTree_root, TreeText.write, TreeText.write, TreeText.chars_map_bare]

/-- A rule with a text of each form. -/
def actionRule : Tree Label :=
  .node (.ofKind .rule) [.leaf (.make .ruleRef "item"), .leaf (.make .stringLiteral "'\\' ('"),
    .leaf (.make .sempred "\x7b \x7ba\x7d : b \x7d?")]

theorem writable_actionRule : ∀ l ∈ actionRule.preorder, l.Writable := by
  have hquote : TreeText.scan '\'' "\\' ('".toList = ⟨some .quoted, 5⟩ := rfl
  have hquoted : TreeText.IsQuoted "'\\' ('".toList := TreeText.spells_of_scan hquote
  have hbrace : TreeText.scan '\x7b' " \x7ba\x7d : b \x7d?".toList = ⟨some .braced, 11⟩ := rfl
  have hbraced : TreeText.IsBraced "\x7b \x7ba\x7d : b \x7d?".toList :=
    TreeText.spells_of_scan hbrace
  have hitem : TreeText.scan 'i' "tem".toList = ⟨some .word, 3⟩ := rfl
  have hword : TreeText.IsWord "item".toList := TreeText.spells_of_scan hitem
  intro l hl
  simp only [actionRule, Tree.leaf, Tree.preorder_node, List.flatMap_cons, List.flatMap_nil,
    List.mem_cons, List.append_nil, List.cons_append, List.nil_append, List.not_mem_nil] at hl
  rcases hl with rfl | rfl | rfl | rfl | hl
  · exact .inl rfl
  · exact .inr (.inl hword)
  · exact .inr (.inr (.inl hquoted))
  · exact .inr (.inr (.inr hbraced))
  · exact hl.elim

theorem read_undoes_write_actionRule :
    (∃ g root, empty.read ((empty.plant actionRule).1.write 0) = (g, .ok root) ∧
      g.labelTree root = ((empty.plant actionRule).1.labelTree 0).map Label.bare) ∧
    ∃ g root, empty.read (TreeText.write actionRule) = (g, .ok root) ∧ g.Writable root ∧
      ∃ g' root', empty.read (g.write root) = (g', .ok root') ∧ g'.write root' = g.write root := by
  have hf : empty.Planted (empty.plant actionRule).1 0 actionRule := planted_plant .empty actionRule
  refine ⟨(read_undoes_write hf.wellFormed .empty).1 0 hf.root_lt ?_, _, _,
    read_of_ok (TreeText.read_write writable_actionRule), ?_⟩
  · rw [writable_iff hf.wellFormed hf.root_lt, hf.labelTree_root]
    exact writable_actionRule
  · exact (read_undoes_write .empty .empty).2 _ _ _
      (read_of_ok (TreeText.read_write writable_actionRule))

end Forest

end GrammarTrees
