import GrammarTrees.Proofs.Integration.Runs

/-! The named actions of a grammar while its imports are merged, one after the other. Of the
definitions so far with one scope and name, the first one is in the tree of the grammar, with the
code of all that are from other grammars. -/

namespace GrammarTrees.Integration

open Forest

variable {f g k : Forest} {T : NodeId → Prop} {scope : String} {root t a x : Nat}
  {done rest : List NodeId} {actions : ActionMerge} {key : String × String}

/-! ### What does not change -/

section Congr

variable (hchildren : g.children a = f.children a)
include hchildren

theorem actionKey?_congr (htext : ∀ c ∈ (f.children a).dropLast, g.text c = f.text c)
    (scope : String) : actionKey? g scope a = actionKey? f scope a := by
  rw [actionKey?, actionKey?, NamedAction.of?, NamedAction.of?, hchildren]
  rcases hc : f.children a with _ | ⟨b, _ | ⟨c, _ | ⟨d, _ | ⟨e, l⟩⟩⟩⟩ <;> rw [hc] at htext <;>
    simp [htext]

theorem actionCode_congr (htext : ∀ c, (f.children a).getLast? = some c → g.text c = f.text c) :
    actionCode g a = actionCode f a := by
  rw [actionCode, actionCode, hchildren]
  cases hc : (f.children a).getLast? with
  | none => rfl
  | some c => rw [Option.map_some, Option.map_some, htext c hc]

end Congr

theorem actionKey?_eq_none_iff :
    actionKey? f scope a = none ↔ f.childCount a ≠ 2 ∧ f.childCount a ≠ 3 := by
  rw [actionKey?, Option.map_eq_none_iff, NamedAction.of?, childCount]
  rcases f.children a with _ | ⟨b, _ | ⟨c, _ | ⟨d, _ | ⟨e, l⟩⟩⟩⟩ <;> simp

section Steady

variable (hg : f.Steady T g) (hT : f.Rooted T) (ha : f.IsAction T a)
include hg hT ha

theorem actionKey?_of_steady (scope : String) : actionKey? g scope a = actionKey? f scope a :=
  actionKey?_congr (hg.below a a ha (.refl f a)) (fun _ hc =>
    text_of_label (hg.label _ (hT.wellFormed.lt_size_of_child (List.dropLast_subset _ hc)))) scope

theorem actionCode_of_steady : actionCode g a = actionCode f a :=
  actionCode_congr (hg.below a a ha (.refl f a)) fun _ hc =>
    text_of_label (hg.label _ (hT.wellFormed.lt_size_of_child (List.mem_of_getLast? hc)))

omit ha in
theorem definitions_of_steady (ht : T t) (scope : String) (key : String × String) :
    definitions g scope key (g.childrenOfKind t .namedAction) =
      definitions f scope key (f.childrenOfKind t .namedAction) := by
  rw [definitions, hg.actions t ht, definitions]
  refine List.filter_congr fun a ha => ?_
  obtain ⟨hp, hk⟩ := (mem_childrenOfKind hT.wellFormed).mp ha
  rw [actionKey?_of_steady hg hT ⟨hk, t, ht, hp⟩]

end Steady

/-- Named actions do not stand below each other. -/
theorem IsAction.eq_of_within {b : Nat} (hT : f.Rooted T) (ha : f.IsAction T a)
    (hb : f.IsAction T b) (hw : f.Within a b) : a = b := by
  rcases within_iff.mp hw with rfl | ⟨p, hp, hpb⟩
  · rfl
  · obtain ⟨-, t, ht, hat⟩ := ha
    obtain rfl : p = t := Option.some.inj (hp.symm.trans hat)
    exact absurd (hpb.eq_of_root (hT.isRoot p ht)).symm (hb.ne_of_root (hT.isRoot p ht))

/-! ### Definitions that have been taken -/

/-- The trees belong to different grammars. -/
structure Unmixed (f : Forest) (T : NodeId → Prop) : Prop where
  rooted : f.Rooted T
  owner : ∀ t u, T t → T u → ∀ a b, f.parent? a = some t → f.parent? b = some u →
    (f.owner a = f.owner b ↔ t = u)

/-- In `g`, the named actions of the trees `done` of `f` have been merged into the tree of `root`,
and those of the trees `rest` have not. -/
structure ActionsTaken (f g : Forest) (T : NodeId → Prop) (scope : String) (root : NodeId)
    (done rest : List NodeId) : Prop where
  rooted : g.Rooted T
  size_le : f.size ≤ g.size
  isAction : ∀ a, f.IsAction T a → g.IsAction T a
  below : ∀ a x, f.IsAction T a → f.Within x a → g.children x = f.children x
  label : ∀ x < f.size, g.label x = { f.label x with text := g.text x }
  text : ∀ x < f.size, (∀ key a, (definers f scope key (root :: done)).head? = some a →
    (f.children a).getLast? ≠ some x) → g.text x = f.text x
  ownKept : ∀ key, definitions f scope key (f.childrenOfKind root .namedAction) ≠ [] →
    definitions g scope key (g.childrenOfKind root .namedAction) =
      definitions f scope key (f.childrenOfKind root .namedAction)
  ownTaken : ∀ key, definitions f scope key (f.childrenOfKind root .namedAction) = [] →
    definitions g scope key (g.childrenOfKind root .namedAction) =
      (definers f scope key done).head?.toList
  begun : done = [] → g.childrenOfKind root .namedAction = f.childrenOfKind root .namedAction
  code : ∀ key a, (definers f scope key (root :: done)).head? = some a →
    actionCode g a = joinAll (actionCode f a)
      (foreignCode f a (definers f scope key (root :: done)))
  todo : ∀ t ∈ rest, g.childrenOfKind t .namedAction = f.childrenOfKind t .namedAction
  bare : ∀ a, f.IsAction T a → actionKey? f scope a = none → g.parent? a = f.parent? a

theorem definers_cons (f : Forest) (scope : String) (key : String × String) (t : NodeId)
    (roots : List NodeId) : definers f scope key (t :: roots) =
      definitions f scope key (f.childrenOfKind t .namedAction) ++ definers f scope key roots :=
  List.flatMap_cons ..

/-- Definitions by one grammar take in nothing from each other. -/
theorem foreignCode_eq_nil {ids : List NodeId} (h : ∀ b ∈ ids, f.owner b = f.owner a) :
    foreignCode f a ids = [] := by
  rw [foreignCode, List.filter_eq_nil_iff.mpr fun b hb => by simp [h b hb], List.map_nil]

theorem Unmixed.foreignCode_eq_nil (hf : Unmixed f T) (ht : T t)
    (ha : a ∈ definitions f scope key (f.childrenOfKind t .namedAction)) :
    foreignCode f a (definitions f scope key (f.childrenOfKind t .namedAction)) = [] := by
  refine Integration.foreignCode_eq_nil fun b hb => ?_
  exact (hf.owner t t ht ht b a ((mem_definitions hf.rooted.wellFormed).mp hb).1
    ((mem_definitions hf.rooted.wellFormed).mp ha).1).mpr rfl

theorem ActionsTaken.start (hf : Unmixed f T) (ht : T root) (rest : List NodeId) :
    ActionsTaken f f T scope root [] rest := by
  refine ⟨hf.rooted, Nat.le_refl _, fun _ ha => ha, fun _ _ _ _ => rfl, fun _ _ => rfl,
    fun _ _ _ => rfl, fun _ _ => rfl, fun key hnone => hnone, fun _ => rfl, fun key a ha => ?_,
    fun _ _ => rfl, fun _ _ _ => rfl⟩
  have hown : definers f scope key [root] =
      definitions f scope key (f.childrenOfKind root .namedAction) := List.flatMap_singleton ..
  rw [hown] at ha ⊢
  rw [hf.foreignCode_eq_nil ht (List.mem_of_head? ha)]
  rfl

namespace ActionsTaken

variable (h : ActionsTaken f g T scope root done rest)
include h

theorem owner (hx : x < f.size) : g.owner x = f.owner x := by
  rw [Forest.owner, h.label x hx, Forest.owner]

theorem within (hf : f.WellFormed) (ha : f.IsAction T a) (hw : f.Within x a) : g.Within x a := by
  induction hw using Relation.ReflTransGen.head_induction_on with
  | refl => exact .refl g a
  | head hxp hpw ih =>
    refine .of_parent (h.rooted.wellFormed.mem_children.mp ?_) ih
    rw [h.below a _ ha hpw]
    exact hf.mem_children.mpr hxp

/-- Scopes and names are not code. -/
theorem text_of_mem_dropLast {c : Nat} (hf : f.WellFormed) (hc : c ∈ (f.children a).dropLast) :
    g.text c = f.text c := by
  have hmem := List.dropLast_subset _ hc
  refine h.text c (hf.lt_size_of_child hmem) fun key b _ hlast => ?_
  obtain rfl := hf.children_disjoint hmem (List.mem_of_getLast? hlast)
  exact not_mem_dropLast (hf.nodup_children a) hlast hc

theorem key_eq (hf : f.WellFormed) (ha : f.IsAction T a) :
    actionKey? g scope a = actionKey? f scope a :=
  actionKey?_congr (h.below a a ha (.refl f a)) (fun _ hc => h.text_of_mem_dropLast hf hc) scope

/-- The code of the trees that follow is what it was. -/
theorem code_todo (hf : f.WellFormed) (ha : f.IsAction T a) (hp : f.parent? a = some t)
    (hnew : t ∉ root :: done) : actionCode g a = actionCode f a := by
  refine actionCode_congr (h.below a a ha (.refl f a)) fun c hc => ?_
  have hmem := List.mem_of_getLast? hc
  refine h.text c (hf.lt_size_of_child hmem) fun key b hhead hlast => hnew ?_
  obtain rfl := hf.children_disjoint hmem (List.mem_of_getLast? hlast)
  obtain ⟨u, hu, hau, -⟩ := mem_definers hf (List.mem_of_head? hhead)
  exact Option.some.inj (hp.symm.trans hau) ▸ hu

/-- A named action without a key stays as it is. -/
theorem labelTree (hT : f.Rooted T) (hdone : ∀ u ∈ root :: done, T u) (ha : f.IsAction T a)
    (hkey : actionKey? f scope a = none) : g.labelTree a = f.labelTree a := by
  have hf := hT.wellFormed
  refine labelTree_congr (S := fun x => f.Within x a) hf h.rooted.wellFormed
    (fun _ hx _ hc => .of_parent (hf.mem_children.mp hc) hx) (fun x hx => h.below a x ha hx)
    (fun x hx => ?_) (.refl f a) ha.lt_size h.size_le
  have hlt := hx.lt_size ha.lt_size
  rw [h.label x hlt, h.text x hlt]
  · rfl
  -- Code that is changed stands below a named action with a key.
  intro key b hhead hlast
  obtain ⟨u, hu, hbu, hbk, hbkey⟩ := mem_definers hf (List.mem_of_head? hhead)
  have hb : f.IsAction T b := ⟨hbk, u, hdone u hu, hbu⟩
  have hpart := hf.mem_children.mp (List.mem_of_getLast? hlast)
  rcases within_iff.mp hx with rfl | ⟨p, hxp, hpa⟩
  · obtain ⟨-, v, hv, hxv⟩ := ha
    obtain rfl : b = v := Option.some.inj (hpart.symm.trans hxv)
    exact hb.ne_of_root (hT.isRoot b hv) rfl
  · obtain rfl : p = b := Option.some.inj (hxp.symm.trans hpart)
    rw [IsAction.eq_of_within hT hb ha hpa, hkey] at hbkey
    simp at hbkey

/-- The first definition in the tree of the grammar is the first of all. -/
theorem own_head? (key : String × String) :
    (definitions g scope key (g.childrenOfKind root .namedAction)).head? =
      (definers f scope key (root :: done)).head? := by
  rw [definers_cons, List.head?_append]
  by_cases hnone : definitions f scope key (f.childrenOfKind root .namedAction) = []
  · rw [h.ownTaken key hnone, hnone]
    cases (definers f scope key done).head? <;> rfl
  · rw [h.ownKept key hnone]
    obtain ⟨d, ds, hd⟩ := List.exists_cons_of_ne_nil hnone
    rw [hd]
    rfl

/-- The definitions in the tree of the grammar are all by one grammar. -/
theorem own_owner (hf : Unmixed f T) (hr : T root)
    (ha : (definers f scope key (root :: done)).head? = some a) :
    ∀ b ∈ definitions g scope key (g.childrenOfKind root .namedAction),
      b < f.size ∧ f.owner b = f.owner a := by
  intro b hb
  rw [← h.own_head? key] at ha
  by_cases hnone : definitions f scope key (f.childrenOfKind root .namedAction) = []
  · rw [h.ownTaken key hnone] at ha hb
    rw [Option.mem_toList] at hb
    obtain ⟨u, -, hbu, -⟩ := mem_definers hf.rooted.wellFormed (List.mem_of_head? hb)
    rw [Option.mem_def.mp hb, Option.toList_some, List.head?_cons, Option.some.injEq] at ha
    exact ⟨lt_size_of_parent?_eq hbu, by rw [ha]⟩
  · rw [h.ownKept key hnone] at ha hb
    have hbp := ((mem_definitions hf.rooted.wellFormed).mp hb).1
    have hap := ((mem_definitions hf.rooted.wellFormed).mp (List.mem_of_head? ha)).1
    exact ⟨lt_size_of_parent?_eq hbp, (hf.owner root root hr hr b a hbp hap).mpr rfl⟩

theorem steady (hf : f.WellFormed) (hs : g.Steady T k) (hroot : T root)
    (hdone : ∀ u ∈ root :: done, T u) (hrest : ∀ u ∈ rest, T u) :
    ActionsTaken f k T scope root done rest := by
  have hlt : ∀ x < f.size, x < g.size := fun x hx => Nat.lt_of_lt_of_le hx h.size_le
  have htext : ∀ x < f.size, k.text x = g.text x := fun x hx =>
    text_of_label (hs.label x (hlt x hx))
  have hown := definitions_of_steady hs h.rooted hroot scope
  refine ⟨hs.rooted h.rooted, Nat.le_trans h.size_le hs.size_le,
    fun a ha => hs.isAction (h.isAction a ha), fun a x ha hx => ?_, fun x hx => ?_,
    fun x hx hcode => ?_, fun key hsome => ?_, fun key hnone => ?_, fun hnil => ?_,
    fun key a ha => ?_, fun t ht => ?_, fun a ha hkey => ?_⟩
  · rw [hs.below a x (h.isAction a ha) (h.within hf ha hx), h.below a x ha hx]
  · rw [hs.label x (hlt x hx), h.label x hx, htext x hx]
  · rw [htext x hx, h.text x hx hcode]
  · rw [hown, h.ownKept key hsome]
  · rw [hown, h.ownTaken key hnone]
  · rw [hs.actions root hroot, h.begun hnil]
  · obtain ⟨u, hu, hp, hk, -⟩ := mem_definers hf (List.mem_of_head? ha)
    rw [actionCode_of_steady hs h.rooted (h.isAction a ⟨hk, u, hdone u hu, hp⟩), h.code key a ha]
  · rw [hs.actions t (hrest t ht), h.todo t ht]
  · have hp := h.bare a ha hkey
    obtain ⟨-, u, hu, hau⟩ := ha
    rw [hs.hangs u a hu (hp.trans hau), hau]

end ActionsTaken

/-! ### One pass -/

theorem eq_toList_of_mem {l : List Nat} {o : Option Nat} (hl : l.Nodup)
    (h : ∀ v, v ∈ l ↔ o = some v) : l = o.toList := by
  cases o with
  | none => exact List.eq_nil_iff_forall_not_mem.mpr fun v hv => by simp [h v] at hv
  | some a =>
    refine List.perm_singleton.mp ((List.perm_ext_iff_of_nodup hl (List.nodup_singleton a)).mpr ?_)
    intro v
    rw [h v, List.mem_singleton, Option.some.injEq, eq_comm]

section Placing

variable (hT : g.Rooted T) (hr : T root) (ht : T t)
  (hc : Combined g scope (g.childrenOfKind root .namedAction ++ g.childrenOfKind t .namedAction)
    actions)
  (hp : Placed actions.forest k root
    (actions.named.values.filter fun id => g.parent? id ≠ some root))

include hr hc hp in
theorem placed_isAction (ha : g.IsAction T a) : k.IsAction T a := by
  obtain ⟨hk, u, hu, hau⟩ := ha
  refine ⟨(placed_kind hc.recoded hp a).trans hk, ?_⟩
  rw [placed_parent? hc.recoded hp]
  split
  · exact ⟨root, hr, rfl⟩
  · exact ⟨u, hu, hau⟩

include hT hc

theorem combined_kept (hget : actions.named.get? key = some a) :
    (g.parent? a = some root ∨ g.parent? a = some t) ∧ g.kind a = .namedAction ∧
      actionKey? g scope a = some key := by
  obtain ⟨hmem, hkey⟩ := hc.mem_of_get? hget
  rcases List.mem_append.mp hmem with hmem | hmem
  · obtain ⟨hp, hk⟩ := (mem_childrenOfKind hT.wellFormed).mp hmem
    exact ⟨.inl hp, hk, hkey⟩
  · obtain ⟨hp, hk⟩ := (mem_childrenOfKind hT.wellFormed).mp hmem
    exact ⟨.inr hp, hk, hkey⟩

/-- What is moved comes from the next tree. -/
theorem combined_moved
    (ha : a ∈ actions.named.values.filter fun id => g.parent? id ≠ some root) :
    g.parent? a = some t ∧ ∃ key, actions.named.get? key = some a := by
  rw [List.mem_filter, decide_eq_true_eq] at ha
  obtain ⟨key, -, hget⟩ := hc.get?_of_mem_values ha.1
  exact ⟨(combined_kept hT hc hget).1.resolve_left ha.2, key, hget⟩

include hp

theorem placed_children (hx : x ≠ root) (hxt : x ≠ t) : k.children x = g.children x := by
  rw [hp.children x hx, hc.recoded.children]
  exact filter_children_of_ne hT.wellFormed (fun a ha => (combined_moved hT hc ha).1) hxt

include hr ht

theorem placed_children_of_within (ha : g.IsAction T a) (hx : g.Within x a) :
    k.children x = g.children x := by
  have hne : ∀ u, T u → x ≠ u := by
    rintro u hu rfl
    exact ha.ne_of_root (hT.isRoot x hu) (hx.eq_of_root (hT.isRoot x hu)).symm
  exact placed_children hT hc hp (hne root hr) (hne t ht)

theorem placed_actionKey? (ha : g.IsAction T a) :
    actionKey? k scope a = actionKey? g scope a := by
  rw [← hc.recoded.actionKey?_eq hT.wellFormed]
  refine actionKey?_congr ?_ (fun c _ => text_of_label (hp.label c)) scope
  rw [placed_children_of_within hT hr ht hc hp ha (.refl g a), hc.recoded.children]

theorem placed_actionCode (ha : g.IsAction T a) :
    actionCode k a = actionCode actions.forest a := by
  refine actionCode_congr ?_ fun c _ => text_of_label (hp.label c)
  rw [placed_children_of_within hT hr ht hc hp ha (.refl g a), hc.recoded.children]

/-- Definitions of a key that the grammar has stay, and none is moved to them. -/
theorem placed_own_of_ne_nil
    (hown : definitions g scope key (g.childrenOfKind root .namedAction) ≠ []) :
    definitions k scope key (k.childrenOfKind root .namedAction) =
      definitions g scope key (g.childrenOfKind root .namedAction) := by
  have hg := hT.wellFormed
  have hsame : ∀ c, g.IsAction T c →
      (decide (actionKey? k scope c = some key) && decide (k.kind c = .namedAction)) =
        (decide (actionKey? g scope c = some key) && decide (g.kind c = .namedAction)) :=
    fun c hcAction => by
      rw [placed_actionKey? hT hr ht hc hp hcAction, placed_kind hc.recoded hp]
  rw [definitions, childrenOfKind, List.filter_filter, hp.filter_children (fun c hmoved => ?_),
    hc.recoded.children, definitions, childrenOfKind, List.filter_filter]
  · refine List.filter_congr fun c hmem => ?_
    by_cases hck : g.kind c = .namedAction
    · exact hsame c ⟨hck, root, hr, hg.mem_children.mp hmem⟩
    · rw [placed_kind hc.recoded hp, decide_eq_false hck, Bool.and_false, Bool.and_false]
  obtain ⟨hct, key', hget⟩ := combined_moved hT hc hmoved
  obtain ⟨-, hck, hckey⟩ := combined_kept hT hc hget
  rw [hsame c ⟨hck, t, ht, hct⟩, hckey, Bool.and_eq_false_iff, decide_eq_false_iff_not]
  refine .inl fun he => ?_
  obtain rfl := Option.some.inj he
  -- The first one with the key is one of those in the grammar.
  obtain ⟨d, ds, hd⟩ := List.exists_cons_of_ne_nil hown
  have hfirst : (definitions g scope key'
      (g.childrenOfKind root .namedAction ++ g.childrenOfKind t .namedAction)).head? = some d := by
    rw [definitions_append, hd]
    rfl
  rw [hc.named, hfirst] at hget
  obtain rfl := Option.some.inj hget
  have hdp := ((mem_definitions hg).mp (hd ▸ List.mem_cons_self)).1
  exact of_decide_eq_true (List.mem_filter.mp hmoved).2 hdp

/-- A definition is moved to the grammar if it has none of its key but the first one. -/
theorem placed_own_of_first
    (hown : ∀ a ∈ definitions g scope key (g.childrenOfKind root .namedAction),
      actions.named.get? key = some a) :
    definitions k scope key (k.childrenOfKind root .namedAction) =
      (actions.named.get? key).toList := by
  have hg := hT.wellFormed
  refine eq_toList_of_mem ((hp.wellFormed.nodup_children root).filter _ |>.filter _) fun a => ?_
  rw [mem_definitions hp.wellFormed, placed_kind hc.recoded hp]
  constructor
  · rintro ⟨hpar, hka, hak⟩
    rw [placed_parent? hc.recoded hp] at hpar
    split at hpar
    · rename_i hmem
      obtain ⟨hat, key', hget⟩ := combined_moved hT hc hmem
      rw [placed_actionKey? hT hr ht hc hp ⟨hka, t, ht, hat⟩] at hak
      obtain rfl : key' = key :=
        Option.some.inj ((combined_kept hT hc hget).2.2.symm.trans hak)
      exact hget
    · rw [placed_actionKey? hT hr ht hc hp ⟨hka, root, hr, hpar⟩] at hak
      exact hown a ((mem_definitions hg).mpr ⟨hpar, hka, hak⟩)
  · intro hget
    obtain ⟨hpar, hka, hak⟩ := combined_kept hT hc hget
    have haction : g.IsAction T a := by
      rcases hpar with hpar | hpar
      · exact ⟨hka, root, hr, hpar⟩
      · exact ⟨hka, t, ht, hpar⟩
    refine ⟨?_, hka, (placed_actionKey? hT hr ht hc hp haction).trans hak⟩
    by_cases hstays : g.parent? a = some root
    · exact placed_hangs hc.recoded hp hstays
    · rw [placed_parent? hc.recoded hp, if_pos]
      refine List.mem_filter.mpr ⟨?_, decide_eq_true hstays⟩
      exact List.mem_map_of_mem (f := Prod.snd) (OrderedMap.mem_entries_of_get? hget)

end Placing

/-! ### Merging the next tree -/

namespace ActionsTaken

variable (hf : Unmixed f T) (h : ActionsTaken f g T scope root done (t :: rest))
  (hturn : Turn T root t done rest)
include hf h hturn

/-- The next tree still has all of its definitions. -/
theorem next (key : String × String) : definitions g scope key (g.childrenOfKind t .namedAction) =
    definitions f scope key (f.childrenOfKind t .namedAction) := by
  rw [definitions, h.todo t List.mem_cons_self, definitions]
  refine List.filter_congr fun a ha => ?_
  obtain ⟨hp, hk⟩ := (mem_childrenOfKind hf.rooted.wellFormed).mp ha
  rw [h.key_eq hf.rooted.wellFormed ⟨hk, t, hturn.tree, hp⟩]

/-- The definitions to be merged: those in the grammar, and those in the next tree. -/
theorem candidates (key : String × String) :
    definitions g scope key
      (g.childrenOfKind root .namedAction ++ g.childrenOfKind t .namedAction) =
      definitions g scope key (g.childrenOfKind root .namedAction) ++
        definitions f scope key (f.childrenOfKind t .namedAction) := by
  rw [← h.next hf hturn, definitions_append]

/-- The next tree adds the same code as before. -/
theorem foreignCode_next (hlt : a < f.size) (key : String × String) :
    foreignCode g a (definitions f scope key (f.childrenOfKind t .namedAction)) =
      foreignCode f a (definitions f scope key (f.childrenOfKind t .namedAction)) := by
  have hb : ∀ b ∈ definitions f scope key (f.childrenOfKind t .namedAction),
      g.owner b = f.owner b ∧ actionCode g b = actionCode f b := by
    intro b hb
    obtain ⟨hp, hk, -⟩ := (mem_definitions hf.rooted.wellFormed).mp hb
    exact ⟨h.owner (lt_size_of_parent?_eq hp),
      h.code_todo hf.rooted.wellFormed ⟨hk, t, hturn.tree, hp⟩ hp hturn.new⟩
  rw [foreignCode, h.owner hlt, List.filter_congr fun b hmem => by rw [(hb b hmem).1], foreignCode]
  exact List.map_congr_left fun b hmem => (hb b (List.mem_of_mem_filter hmem)).2

/-- The first definition of a key has the code so far, and takes in none from its own grammar. -/
theorem code_before (ha : (definers f scope key (root :: (done ++ [t]))).head? = some a) :
    actionCode g a = joinAll (actionCode f a)
        (foreignCode f a (definers f scope key (root :: done))) ∧
      foreignCode g a (definitions g scope key (g.childrenOfKind root .namedAction)) = [] := by
  cases hhead : (definers f scope key (root :: done)).head? with
  | none =>
    have hown := h.own_head? key
    rw [← List.cons_append, definers_concat, List.head?_append, hhead, Option.none_or] at ha
    rw [hhead, List.head?_eq_none_iff] at hown
    rw [List.head?_eq_none_iff.mp hhead, hown]
    obtain ⟨hp, hk, -⟩ := (mem_definitions hf.rooted.wellFormed).mp (List.mem_of_head? ha)
    exact ⟨h.code_todo hf.rooted.wellFormed ⟨hk, t, hturn.tree, hp⟩ hp hturn.new, rfl⟩
  | some d =>
    rw [← List.cons_append, definers_concat, List.head?_append, hhead, Option.some_or,
      Option.some.injEq] at ha
    subst ha
    refine ⟨h.code key d hhead, foreignCode_eq_nil fun b hb => ?_⟩
    obtain ⟨hlt, howner⟩ := h.own_owner hf hturn.rootTree hhead b hb
    obtain ⟨u, -, hp, -⟩ := mem_definers hf.rooted.wellFormed (List.mem_of_head? hhead)
    rw [h.owner hlt, howner, h.owner (lt_size_of_parent?_eq hp)]

variable (hc : Combined g scope
  (g.childrenOfKind root .namedAction ++ g.childrenOfKind t .namedAction) actions)
include hc

/-- The definition of a key that is kept is the first of all. -/
theorem get?_eq (key : String × String) :
    actions.named.get? key = (definers f scope key (root :: (done ++ [t]))).head? := by
  rw [hc.named, h.candidates hf hturn, List.head?_append, h.own_head?, ← List.cons_append,
    definers_concat, List.head?_append]

/-- The code of a definition that was taken, with the code of the next tree added. -/
theorem joined (ha : (definers f scope key (root :: (done ++ [t]))).head? = some a) :
    actionCode actions.forest a = joinAll (actionCode f a)
      (foreignCode f a (definers f scope key (root :: (done ++ [t])))) := by
  have hget := (h.get?_eq hf hturn hc key).trans ha
  obtain ⟨hcode, hown⟩ := h.code_before hf hturn ha
  obtain ⟨u, -, hp, -⟩ := mem_definers hf.rooted.wellFormed (List.mem_of_head? ha)
  rw [hc.joined key a hget, h.candidates hf hturn, foreignCode_append, hown, List.nil_append,
    h.foreignCode_next hf hturn (lt_size_of_parent?_eq hp), hcode, ← List.cons_append,
    definers_concat, foreignCode_append, joinAll, joinAll, joinAll, List.foldl_append]

/-- What is kept is a named action of one of the trees so far. -/
theorem isAction_of_get? (hget : actions.named.get? key = some a) : f.IsAction T a := by
  rw [h.get?_eq hf hturn hc] at hget
  obtain ⟨u, hu, hau, hak, -⟩ := mem_definers hf.rooted.wellFormed (List.mem_of_head? hget)
  refine ⟨hak, u, ?_, hau⟩
  rw [← List.cons_append, List.mem_append, List.mem_singleton] at hu
  exact hu.elim (hturn.earlier u) fun he => he ▸ hturn.tree

/-- Only the code of first definitions changes. -/
theorem merged_text (hx : x < f.size)
    (hcode : ∀ key a, (definers f scope key (root :: (done ++ [t]))).head? = some a →
      (f.children a).getLast? ≠ some x) : actions.forest.text x = f.text x := by
  have hchanged : ∀ key a, actions.named.get? key = some a → (g.children a).getLast? ≠ some x := by
    intro key a hget
    rw [h.below a a (h.isAction_of_get? hf hturn hc hget) (.refl f a)]
    exact hcode key a ((h.get?_eq hf hturn hc key).symm.trans hget)
  rw [hc.text_eq hchanged]
  refine h.text x hx fun key a ha => hcode key a ?_
  rw [← List.cons_append, definers_concat, List.head?_append, ha, Option.some_or]

theorem merge (hp : Placed actions.forest k root
      (actions.named.values.filter fun id => g.parent? id ≠ some root)) :
    ActionsTaken f k T scope root (done ++ [t]) rest := by
  have hT := h.rooted
  have hr := hturn.rootTree
  have ht := hturn.tree
  have hff := hf.rooted.wellFormed
  have htext : ∀ x, k.text x = actions.forest.text x := fun x => text_of_label (hp.label x)
  refine ⟨merged_rooted hT hr ht hc hp, (placed_size hc.recoded hp).symm ▸ h.size_le,
    fun a ha => placed_isAction hr hc hp (h.isAction a ha), fun a x ha hx => ?_, fun x hx => ?_,
    fun x hx hcode => ?_, fun key hsome => ?_, fun key hnone => ?_,
    fun hnil => absurd hnil (by simp), fun key a ha => ?_, fun u hu => ?_, fun a ha hakey => ?_⟩
  · rw [placed_children_of_within hT hr ht hc hp (h.isAction a ha) (h.within hff ha hx),
      h.below a x ha hx]
  · rw [hp.label, hc.recoded.label, h.label x hx, htext]
  · rw [htext, h.merged_text hf hturn hc hx hcode]
  · have hown := h.ownKept key hsome
    rw [placed_own_of_ne_nil hT hr ht hc hp (hown ▸ hsome), hown]
  · have hown : ∀ a ∈ definitions g scope key (g.childrenOfKind root .namedAction),
        actions.named.get? key = some a := by
      intro a ha
      rw [h.ownTaken key hnone, Option.mem_toList] at ha
      rw [h.get?_eq hf hturn hc, definers_cons, hnone, List.nil_append, definers_concat,
        List.head?_append, Option.mem_def.mp ha, Option.some_or]
    rw [placed_own_of_first hT hr ht hc hp hown, h.get?_eq hf hturn hc, definers_cons, hnone,
      List.nil_append]
  · have haction := h.isAction_of_get? hf hturn hc ((h.get?_eq hf hturn hc key).trans ha)
    rw [placed_actionCode hT hr ht hc hp (h.isAction a haction)]
    exact h.joined hf hturn hc ha
  · obtain ⟨-, hu'⟩ := hturn.later u hu
    rw [← h.todo u (List.mem_cons_of_mem _ hu), childrenOfKind, childrenOfKind,
      placed_children hT hc hp (fun he => hu' (by simp [he])) (fun he => hu' (by simp [he]))]
    exact List.filter_congr fun c _ => by rw [placed_kind hc.recoded hp]
  · rw [placed_parent? hc.recoded hp, if_neg, h.bare a ha hakey]
    intro hmem
    obtain ⟨-, key, hget⟩ := combined_moved hT hc hmem
    have hgkey := (combined_kept hT hc hget).2.2
    rw [h.key_eq hff ha, hakey] at hgkey
    simp at hgkey

end ActionsTaken

end GrammarTrees.Integration
