import GrammarTrees.Proofs.Forest.Planting

/-! Changes to the texts of nodes. They leave alone all links and whatever else a node says. -/

namespace GrammarTrees.Forest

variable {f g k : Forest} {id x : Nat}

/-- `g` is `f` with other texts. -/
structure Reworded (f g : Forest) : Prop where
  size : g.size = f.size
  children : ∀ x, g.children x = f.children x
  parent? : ∀ x, g.parent? x = f.parent? x
  childIndex : ∀ x, g.childIndex x = f.childIndex x
  label : ∀ x, g.label x = { f.label x with text := g.text x }

theorem label_setText (f : Forest) (id : NodeId) (text : String) (x : NodeId) :
    (f.setText id text).label x =
      if x = id ∧ x < f.size then { f.label x with text } else f.label x := by
  unfold setText relabel Forest.label
  rw [node_modify]
  split <;> rfl

theorem text_setText_of_ne (h : x ≠ id) (text : String) :
    (f.setText id text).text x = f.text x := by
  unfold Forest.text
  rw [label_setText, if_neg fun hx => h hx.1]

theorem text_setText_self (h : id < f.size) (text : String) :
    (f.setText id text).text id = text := by
  unfold Forest.text
  rw [label_setText, if_pos ⟨rfl, h⟩]

namespace Reworded

theorem refl (f : Forest) : f.Reworded f :=
  ⟨rfl, fun _ => rfl, fun _ => rfl, fun _ => rfl, fun _ => rfl⟩

theorem setText (f : Forest) (id : NodeId) (text : String) : f.Reworded (f.setText id text) := by
  refine ⟨size_relabel .., fun x => children_relabel .., fun x => parent?_relabel ..,
    fun x => childIndex_relabel .., fun x => ?_⟩
  unfold Forest.text
  rw [label_setText]
  split <;> rfl

theorem trans (hfg : f.Reworded g) (hgk : g.Reworded k) : f.Reworded k := by
  refine ⟨hgk.size.trans hfg.size, fun x => (hgk.children x).trans (hfg.children x),
    fun x => (hgk.parent? x).trans (hfg.parent? x),
    fun x => (hgk.childIndex x).trans (hfg.childIndex x), fun x => ?_⟩
  rw [hgk.label, hfg.label]

variable (h : f.Reworded g)
include h

theorem wellFormed (hf : f.WellFormed) : g.WellFormed :=
  hf.congr h.children h.parent? h.childIndex

theorem kind (x : NodeId) : g.kind x = f.kind x := by
  rw [Forest.kind, h.label, Forest.kind]

theorem position (x : NodeId) : g.position x = f.position x := by
  rw [Forest.position, h.label, Forest.position]

theorem range (x : NodeId) : g.range x = f.range x := by
  rw [Forest.range, h.label, Forest.range]

theorem owner (x : NodeId) : g.owner x = f.owner x := by
  rw [Forest.owner, h.label, Forest.owner]

theorem tree (a : NodeId) : g.tree a = f.tree a := by
  have hto : ∀ n a, g.treeTo n a = f.treeTo n a := by
    intro n
    induction n with
    | zero => exact fun _ => rfl
    | succ n ih =>
      intro a
      rw [treeTo, treeTo, h.children, funext ih]
  rw [Forest.tree, Forest.tree, h.size, hto]

/-- Forests with the same texts are the same. -/
theorem eq_of_text (htext : ∀ x, g.text x = f.text x) : g = f := by
  have hnode : ∀ x, g.node x = f.node x := by
    intro x
    have hlabel : (g.node x).label = (f.node x).label := by
      show g.label x = f.label x
      rw [h.label, htext]
      rfl
    have hchildren : (g.node x).children = (f.node x).children := h.children x
    have hparent : (g.node x).parent = (f.node x).parent := h.parent? x
    have hindex : (g.node x).index = (f.node x).index := h.childIndex x
    revert hlabel hchildren hparent hindex
    rcases g.node x with ⟨l, cs, p, i⟩
    rcases f.node x with ⟨l', cs', p', i'⟩
    rintro rfl rfl rfl rfl
    rfl
  exact eq_of_node h.size hnode

end Reworded

theorem setText_text (f : Forest) (id : NodeId) : f.setText id (f.text id) = f := by
  apply (Reworded.setText f id (f.text id)).eq_of_text
  intro x
  by_cases hx : x = id
  · subst hx
    unfold Forest.text
    rw [label_setText]
    split <;> rfl
  · exact text_setText_of_ne hx _

theorem kind_of_size_le (h : f.size ≤ x) : f.kind x = .grammar := by
  unfold Forest.kind Forest.label
  rw [node_of_size_le h]
  rfl

end GrammarTrees.Forest
