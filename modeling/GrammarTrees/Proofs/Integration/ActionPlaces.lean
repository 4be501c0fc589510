import GrammarTrees.Proofs.Integration.Repeats

/-! Merging the named actions of two grammars succeeds. Those that are kept hang below the root
then, and the sections that hold rules are what they were. -/

namespace GrammarTrees.Integration

open Forest

variable {f g k : Forest} {scope : String} {root importRoot : Nat}

/-! ### Places -/

/-- `g` is `f` with the nodes `moved` below `root`, right after its first child and the last one
first. -/
structure Placed (f g : Forest) (root : NodeId) (moved : List NodeId) : Prop where
  wellFormed : g.WellFormed
  size : g.size = f.size
  label : ∀ x, g.label x = f.label x
  children_root : g.children root =
    (f.children root).take 1 ++ (moved.reverse ++ (f.children root).drop 1)
  children : ∀ x, x ≠ root → g.children x = (f.children x).filter (· ∉ moved)
  parent? : ∀ x, g.parent? x = if x ∈ moved then some root else f.parent? x

theorem Placed.refl (hf : f.WellFormed) (root : NodeId) : Placed f f root [] :=
  ⟨hf, rfl, fun _ => rfl, by rw [List.reverse_nil, List.nil_append, List.take_append_drop],
    fun x _ => by simp, fun x => by simp⟩

/-- Placing does not change which other nodes stand below a node, and in which order. -/
theorem Placed.filter_children {moved : List NodeId} (hg : Placed f g root moved)
    {P : NodeId → Bool} (hP : ∀ c ∈ moved, P c = false) (t : NodeId) :
    (g.children t).filter P = (f.children t).filter P := by
  have hmoved : moved.reverse.filter P = [] := by
    rw [List.filter_eq_nil_iff]
    intro c hc
    simp [hP c (List.mem_reverse.mp hc)]
  by_cases ht : t = root
  · rw [ht, hg.children_root, List.filter_append, List.filter_append, hmoved, List.nil_append,
      ← List.filter_append, List.take_append_drop]
  · rw [hg.children t ht, List.filter_filter]
    refine List.filter_congr fun c _ => ?_
    by_cases hc : c ∈ moved
    · rw [hP c hc, Bool.false_and]
    · simp [hc]

theorem Placed.trans {front back : List NodeId} (hpos : f.children root ≠ [])
    (hk : Placed f k root front) (hg : Placed k g root back) : Placed f g root (front ++ back) := by
  refine ⟨hg.wellFormed, hg.size.trans hk.size, fun x => (hg.label x).trans (hk.label x), ?_,
    fun x hx => ?_, fun x => ?_⟩
  · obtain ⟨c, cs, hc⟩ := List.exists_cons_of_ne_nil hpos
    rw [hg.children_root, hk.children_root, hc]
    simp
  · rw [hg.children x hx, hk.children x hx, List.filter_filter]
    exact List.filter_congr fun y _ => by simp [Bool.and_comm]
  · rw [hg.parent?, hk.parent?]
    by_cases hx : x ∈ back
    · simp [hx]
    · simp [hx]

/-- A named action of some grammar is placed in the grammar at `root`, unless it stands there. -/
theorem placeAction_placed {id t : NodeId} (hf : f.WellFormed) (hr : f.parent? root = none)
    (hlt : root < f.size) (hpos : f.children root ≠ []) (hp : f.parent? id = some t)
    (ht : f.parent? t = none) :
    ∃ g, placeAction root f id = .ok g ∧
      Placed f g root ([id].filter fun id => f.parent? id ≠ some root) := by
  have hidlt := lt_size_of_parent?_eq hp
  have hwithin : f.isWithin id root = true ↔ f.parent? id = some root := by
    rw [hf.isWithin_iff hidlt, within_iff, hp]
    constructor
    · rintro (rfl | ⟨p, hpt, hpr⟩)
      · simp [hr] at hp
      · rw [hpt, hpr.eq_of_root (Option.some.inj hpt ▸ ht)]
    · intro heq
      exact .inr ⟨root, heq, .refl f root⟩
  rw [placeAction]
  by_cases hstays : f.parent? id = some root
  · rw [if_pos (hwithin.mpr hstays), List.filter_cons_of_neg (by simp [hstays])]
    exact ⟨f, rfl, .refl hf root⟩
  rw [if_neg (hwithin.not.mpr hstays), List.filter_cons_of_pos (by simpa using hstays)]
  have hnot : id ∉ f.children root := fun hmem => hstays (hf.mem_children.mp hmem)
  have hapart : ¬ f.Within root id := by
    intro hw
    rw [hw.eq_of_root hr, hr] at hp
    simp at hp
  obtain ⟨c, cs, hc⟩ := List.exists_cons_of_ne_nil hpos
  have hindex : 1 ≤ ((f.children root).erase id).length := by
    rw [List.erase_of_not_mem hnot, hc]
    exact Nat.succ_le_succ (Nat.zero_le _)
  obtain ⟨g, hg, hmoved⟩ := insertChild_eq_ok hf hlt hidlt hapart hindex
  refine ⟨g, hg, hmoved.wellFormed, hmoved.size, hmoved.label, ?_, fun x hx => ?_, fun x => ?_⟩
  · rw [hmoved.children, if_pos rfl, List.erase_of_not_mem hnot, hc]
    rfl
  · rw [hmoved.children, if_neg hx, (hf.nodup_children x).erase_eq_filter]
    exact List.filter_congr fun y _ => by by_cases hy : y = id <;> simp [hy]
  · rw [hmoved.parent?]
    simp

theorem placeActions_placed (hf : f.WellFormed) (hr : f.parent? root = none) (hlt : root < f.size)
    (hpos : f.children root ≠ []) {ids : List NodeId} (hnodup : ids.Nodup)
    (hids : ∀ id ∈ ids, ∃ t, f.parent? id = some t ∧ f.parent? t = none) :
    ∃ g, ids.foldlM (placeAction root) f = .ok g ∧
      Placed f g root (ids.filter fun id => f.parent? id ≠ some root) := by
  induction ids generalizing f with
  | nil => exact ⟨f, rfl, .refl hf root⟩
  | cons id ids ih =>
    rw [List.forall_mem_cons] at hids
    obtain ⟨⟨t, hp, ht⟩, hids⟩ := hids
    obtain ⟨hnew, hnodup⟩ := List.nodup_cons.mp hnodup
    obtain ⟨k, hk, hstep⟩ := placeAction_placed hf hr hlt hpos hp ht
    -- The step moves no other node than `id`.
    have hparent : ∀ x ≠ id, k.parent? x = f.parent? x := by
      intro x hx
      rw [hstep.parent?, if_neg]
      exact fun hmem => hx (List.mem_singleton.mp (List.mem_of_mem_filter hmem))
    have hroot : ∀ x, f.parent? x = none → k.parent? x = none := by
      intro x hx
      rw [hparent x, hx]
      rintro rfl
      simp [hp] at hx
    have hids' : ∀ j ∈ ids, ∃ t, k.parent? j = some t ∧ k.parent? t = none := by
      intro j hj
      obtain ⟨u, hju, hu⟩ := hids j hj
      exact ⟨u, (hparent j fun he => hnew (he ▸ hj)).trans hju, hroot u hu⟩
    have hkpos : k.children root ≠ [] := by
      obtain ⟨c, cs, hc⟩ := List.exists_cons_of_ne_nil hpos
      rw [hstep.children_root, hc]
      exact List.cons_ne_nil c _
    obtain ⟨g, hg, hplaced⟩ := ih hstep.wellFormed (hroot root hr) (hstep.size ▸ hlt) hkpos hnodup
      hids'
    have hfilter : (ids.filter fun j => decide (k.parent? j ≠ some root)) =
        ids.filter fun j => decide (f.parent? j ≠ some root) :=
      List.filter_congr fun j hj => by rw [hparent j fun he => hnew (he ▸ hj)]
    refine ⟨g, ?_, ?_⟩
    · rw [List.foldlM_cons, hk]
      exact hg
    · rw [← List.singleton_append, List.filter_append, ← hfilter]
      exact hstep.trans hpos hplaced

/-- What is merged are named actions that hang below roots. -/
theorem hangs_of_mem_actions (hf : f.WellFormed) (hr : f.parent? root = none)
    (hi : f.parent? importRoot = none) {id : NodeId}
    (hid : id ∈ f.childrenOfKind root .namedAction ++ f.childrenOfKind importRoot .namedAction) :
    f.kind id = .namedAction ∧ ∃ t, f.parent? id = some t ∧ f.parent? t = none := by
  rcases List.mem_append.mp hid with hid | hid
  · obtain ⟨hp, hk⟩ := (mem_childrenOfKind hf).mp hid
    exact ⟨hk, root, hp, hr⟩
  · obtain ⟨hp, hk⟩ := (mem_childrenOfKind hf).mp hid
    exact ⟨hk, importRoot, hp, hi⟩

/-- Merging the named actions of two grammars succeeds, also of a grammar with itself. -/
theorem mergeActions_eq_ok {child : NodeId} (hf : f.WellFormed) (hr : f.parent? root = none)
    (hi : f.parent? importRoot = none) (hc : f.parent? child = some root) (scope : String)
    (fileOf : Option GrammarId → String) (repeated : List NodeId) :
    ∃ m g, mergeActions scope fileOf root importRoot repeated f = .ok (g, m.repeated, m.report) ∧
      Combined f scope
        (f.childrenOfKind root .namedAction ++ f.childrenOfKind importRoot .namedAction) m ∧
      ((f.childrenOfKind root .namedAction ++ f.childrenOfKind importRoot .namedAction).Nodup →
        Reported f scope fileOf repeated
          (f.childrenOfKind root .namedAction ++ f.childrenOfKind importRoot .namedAction) m) ∧
      Placed m.forest g root (m.named.values.filter fun id => f.parent? id ≠ some root) := by
  have hcombined := (Combined.start f scope repeated).addAll hf fileOf
    (f.childrenOfKind root .namedAction ++ f.childrenOfKind importRoot .namedAction)
  have hreported := (Reported.start f scope fileOf repeated).addAll hf (.start f scope repeated)
    (f.childrenOfKind root .namedAction ++ f.childrenOfKind importRoot .namedAction)
  rw [List.nil_append] at hcombined hreported
  rw [mergeActions]
  generalize (f.childrenOfKind root .namedAction ++ f.childrenOfKind importRoot .namedAction).foldl
    (ActionMerge.add scope fileOf) ⟨f, .empty, repeated, []⟩ = m at hcombined hreported
  have hreworded := hcombined.recoded.toReworded
  have hlt := hf.lt_size_of_parent hc
  have hids : ∀ id ∈ m.named.values, ∃ t, m.forest.parent? id = some t ∧
      m.forest.parent? t = none := by
    intro id hid
    obtain ⟨key, -, hget⟩ := hcombined.get?_of_mem_values hid
    simp only [hreworded.parent?]
    exact (hangs_of_mem_actions hf hr hi (hcombined.mem_of_get? hget).1).2
  have hpos : m.forest.children root ≠ [] := by
    rw [hreworded.children]
    exact List.ne_nil_of_mem (hf.mem_children.mpr hc)
  obtain ⟨g, hg, hplaced⟩ := placeActions_placed (hreworded.wellFormed hf)
    ((hreworded.parent? root).trans hr) (hreworded.size ▸ hlt) hpos hcombined.nodup_values hids
  simp only [hreworded.parent?] at hplaced
  refine ⟨m, g, ?_, hcombined, hreported, hplaced⟩
  simp only [hg]
  rfl

/-! ### Sections that hold rules -/

section Apart

variable {ids : List NodeId} (hf : f.WellFormed)
  (hids : ∀ id ∈ ids, f.kind id = .namedAction ∧ ∃ t, f.parent? id = some t ∧ f.parent? t = none)
include hf hids

/-- Code does not stand in sections that hold rules. -/
theorem Recoded.apart (hg : Recoded f g scope ids) : f.Apart g := by
  have hsections : ∀ t, g.sections t = f.sections t := by
    intro t
    rw [sections, hg.children, sections]
    exact List.filter_congr fun c _ => by rw [hg.kind]
  refine ⟨hg.wellFormed hf, Nat.le_of_eq hg.size.symm, fun x _ hx => (hg.parent? x).trans hx,
    fun t _ _ => hsections t, fun t _ _ l hl => hl.congr (hg.children t) fun c _ => hg.kind c,
    fun x y hy hxy => ⟨?_, hg.children x⟩⟩
  rw [hg.label, hg.text x]
  · rfl
  rintro id hid parts hparts rfl
  obtain ⟨hk, t, hp, ht⟩ := hids id hid
  have houtside : f.Outside id := outside_of_kind hp ht (by rw [hk]; rfl)
  exact houtside.of_parent (hf.mem_children.mp (action_mem_children hparts)) hp y hy hxy

/-- Named actions that move to another root leave the sections of all roots alone. -/
theorem Placed.apart (hr : f.parent? root = none) (hg : Placed f g root ids) : f.Apart g := by
  have hkind : ∀ x, g.kind x = f.kind x := fun x => kind_of_label (hg.label x)
  have hholds : ∀ c, (f.kind c).holdsRules = true → c ∉ ids := by
    intro c hc hmem
    rw [(hids c hmem).1] at hc
    exact Bool.noConfusion hc
  refine ⟨hg.wellFormed, Nat.le_of_eq hg.size.symm, fun x _ hx => ?_, fun t _ _ => ?_,
    fun t _ _ l hl => ?_, fun x y hy hxy => ⟨hg.label x, ?_⟩⟩
  · rw [hg.parent?, if_neg, hx]
    intro hmem
    obtain ⟨-, t, hxt, -⟩ := hids x hmem
    simp [hx] at hxt
  · rw [sections, funext fun c => congrArg Kind.holdsRules (hkind c), sections]
    refine hg.filter_children (fun c hc => ?_) t
    rw [(hids c hc).1]
    rfl
  · by_cases ht : t = root
    · subst ht
      exact hl.insert hg.children_root fun c _ => hkind c
    · obtain ⟨front, hsplit, x, hx, hk⟩ := hl.split
      have hstays : ∀ c, (f.kind c).holdsRules = true → (g.kind c).holdsRules = true :=
        fun c hc => (hkind c).symm ▸ hc
      refine ⟨fun c hc => hstays c (hl.holds c hc), front.filter (· ∉ ids), ?_, x,
        List.mem_filter.mpr ⟨hx, decide_eq_true (hholds x hk)⟩, hstays x hk⟩
      rw [hg.children t ht, hsplit, List.filter_append]
      refine congrArg _ (List.filter_eq_self.mpr fun c hc => ?_)
      exact decide_eq_true (hholds c (hl.holds c hc))
  · have hne : ∀ t, f.parent? t = none → x ≠ t := by
      rintro t ht rfl
      exact outside_of_root ht y hy hxy
    rw [hg.children x (hne root hr), List.filter_eq_self]
    intro c hc
    rw [decide_eq_true_eq]
    intro hmem
    obtain ⟨-, t, hct, ht⟩ := hids c hmem
    exact hne t ht (Option.some.inj ((hf.mem_children.mp hc).symm.trans hct))

end Apart

/-- Merging named actions leaves alone the sections that hold rules. -/
theorem mergeActions_apart {child : NodeId} (hf : f.WellFormed) (hr : f.parent? root = none)
    (hi : f.parent? importRoot = none) (hc : f.parent? child = some root) (scope : String)
    (fileOf : Option GrammarId → String) (repeated : List NodeId) :
    ∃ g repeated' report, mergeActions scope fileOf root importRoot repeated f =
      .ok (g, repeated', report) ∧ f.Apart g := by
  obtain ⟨m, g, hg, hcombined, -, hplaced⟩ :=
    mergeActions_eq_ok hf hr hi hc scope fileOf repeated
  have hreworded := hcombined.recoded.toReworded
  have hfm := hcombined.recoded.apart hf fun id hid => hangs_of_mem_actions hf hr hi hid
  refine ⟨g, m.repeated, m.report, hg, hfm.trans hf ?_⟩
  refine hplaced.apart hfm.wellFormed (fun id hid => ?_) ((hreworded.parent? root).trans hr)
  obtain ⟨key, -, hget⟩ := hcombined.get?_of_mem_values (List.mem_of_mem_filter hid)
  obtain ⟨hk, t, hp, ht⟩ := hangs_of_mem_actions hf hr hi (hcombined.mem_of_get? hget).1
  refine ⟨(hreworded.kind id).trans hk, t, (hreworded.parent? id).trans hp, ?_⟩
  rw [hreworded.parent?, ht]

end GrammarTrees.Integration
