import GrammarTrees.Proofs.Integration.ActionPlaces
import GrammarTrees.Proofs.Integration.OtherSections

/-! What integration does to the nodes of all trees. Those of the grammar and of its imports stay in
their trees or come to the tree of the grammar, and all other trees are left alone. -/

namespace GrammarTrees

namespace Forest

variable {f g k : Forest} {T : NodeId → Prop} {kind : Kind} {root source t x : Nat}

/-- In `g`, the tree of `root` has absorbed nodes of the trees of `T`. No node is anywhere else. -/
structure Absorbed (T : NodeId → Prop) (root : NodeId) (f g : Forest) : Prop where
  wellFormed : g.WellFormed
  size_le : f.size ≤ g.size
  owner : ∀ x < f.size, g.owner x = f.owner x
  isRoot : ∀ x < f.size, f.parent? x = none → g.parent? x = none
  stays : ∀ x p, f.parent? x = some p → g.parent? x = some p ∨ g.Within x root
  others : ∀ x < f.size, (∀ t, T t → ¬ f.Within x t) →
    g.label x = f.label x ∧ g.children x = f.children x

namespace Absorbed

variable (hg : Absorbed T root f g)
include hg

/-- A node stays in its tree, or it comes to the tree of `root`. -/
theorem within_or (hx : f.Within x t) : g.Within x t ∨ g.Within x root := by
  induction hx using Relation.ReflTransGen.head_induction_on with
  | refl => exact .inl (.refl g t)
  | @head x p hxp _ ih =>
    rcases hg.stays x p hxp with hp | hw
    · exact ih.imp (.of_parent hp) (.of_parent hp)
    · exact .inr hw

theorem within_root (hx : f.Within x root) : g.Within x root := (hg.within_or hx).elim id id

section Others

variable (hf : f.WellFormed) (hx : x < f.size) (hout : ∀ t, T t → ¬ f.Within x t)
include hf hx hout

theorem parent?_of_others : g.parent? x = f.parent? x := by
  cases hp : f.parent? x with
  | none => exact hg.isRoot x hx hp
  | some p =>
    have hpout : ∀ t, T t → ¬ f.Within p t := fun t ht hw => hout t ht (.of_parent hp hw)
    apply hg.wellFormed.mem_children.mp
    rw [(hg.others p (hf.lt_size_of_parent hp) hpout).2]
    exact hf.mem_children.mpr hp

theorem node_of_others : g.node x = f.node x := by
  obtain ⟨hlabel, hchildren⟩ := hg.others x hx hout
  refine hf.node_eq hg.wellFormed hlabel hchildren (hg.parent?_of_others hf hx hout) fun p hp => ?_
  exact (hg.others p (hf.lt_size_of_parent hp) fun t ht hw => hout t ht (.of_parent hp hw)).2

/-- No node comes to a tree of `T` from outside of these trees. -/
theorem not_within_of_others (ht : T t) : ¬ g.Within x t := by
  intro hw
  induction hw using Relation.ReflTransGen.head_induction_on with
  | refl => exact hout t ht (.refl f t)
  | @head x p hxp _ ih =>
    have hp : g.parent? x = some p := hxp
    rw [hg.parent?_of_others hf hx hout] at hp
    exact ih (hf.lt_size_of_parent hp) fun t ht hw => hout t ht (.of_parent hp hw)

end Others

theorem trans (hf : f.WellFormed) (hk : Absorbed T root g k) : Absorbed T root f k := by
  have hlt : ∀ x < f.size, x < g.size := fun x hx => Nat.lt_of_lt_of_le hx hg.size_le
  refine ⟨hk.wellFormed, Nat.le_trans hg.size_le hk.size_le, fun x hx => ?_, fun x hx hroot => ?_,
    fun x p hp => ?_, fun x hx hout => ?_⟩
  · rw [hk.owner x (hlt x hx), hg.owner x hx]
  · exact hk.isRoot x (hlt x hx) (hg.isRoot x hx hroot)
  · rcases hg.stays x p hp with hp | hw
    · exact hk.stays x p hp
    · exact .inr (hk.within_root hw)
  · obtain ⟨hlabel, hchildren⟩ := hg.others x hx hout
    obtain ⟨hlabel', hchildren'⟩ := hk.others x (hlt x hx) fun t ht =>
      hg.not_within_of_others hf hx hout ht
    exact ⟨hlabel'.trans hlabel, hchildren'.trans hchildren⟩

end Absorbed

theorem Shifted.absorbed (ht : T root) (hi : T source) (hg : Shifted kind root source f g) :
    Absorbed T root f g := by
  refine ⟨hg.wellFormed, hg.size_le, fun x hx => ?_, hg.isRoot, hg.stays, fun x hx hout =>
    ⟨hg.label x hx, hg.children x hx ?_ fun hpart => ?_⟩⟩
  · rw [Forest.owner, hg.label x hx, ← Forest.owner]
  · rintro rfl
    exact hout x ht (.refl f x)
  · rcases hpart.2 with hp | hp
    · exact hout root ht (.of_parent hp (.refl f root))
    · exact hout source hi (.of_parent hp (.refl f source))

/-! ### Sections that are kept -/

section Items

variable (hf : f.WellFormed) (hg : Keeps kind T f g) (ht : T t)
include hf hg ht

theorem Keeps.sectionItems_eq : g.sectionItems t kind = f.sectionItems t kind := by
  rw [sectionItems, sectionItems, hg.firstChildOfKind?_eq ht]
  cases hs : f.firstChildOfKind? t kind with
  | none => rfl
  | some s =>
    have hmem := (mem_childrenOfKind hf).mpr (of_firstChildOfKind? hf hs)
    rw [Option.map_some, Option.map_some, (hg.below t s s ht hmem (.refl f s)).1]

theorem Keeps.text_of_mem_sectionItems (hx : x ∈ f.sectionItems t kind) :
    g.text x = f.text x := by
  rw [sectionItems] at hx
  cases hs : f.firstChildOfKind? t kind with
  | none => simp [hs] at hx
  | some s =>
    rw [hs, Option.map_some, Option.getD_some] at hx
    have hmem := (mem_childrenOfKind hf).mpr (of_firstChildOfKind? hf hs)
    exact text_of_label
      (hg.below t s x ht hmem (.of_parent (hf.mem_children.mp hx) (.refl f s))).2

end Items

theorem Keeps.channelNames_eq (hf : f.WellFormed) (hg : Keeps .channels T f g) (ht : T t) :
    g.channelNames t = f.channelNames t := by
  rw [channelNames, channelNames, hg.sectionItems_eq hf ht]
  exact List.map_congr_left fun x hx => hg.text_of_mem_sectionItems hf ht hx

end Forest

namespace Integration

open Forest

variable {f g k : Forest} {T : NodeId → Prop} {kind : Kind} {scope : String}
  {root importRoot x : Nat} {ids : List NodeId} {m : ActionMerge}

/-! ### Named actions -/

section Actions

variable (hf : f.WellFormed)
  (hids : ∀ id ∈ ids, f.kind id = .namedAction ∧ ∃ t, T t ∧ f.parent? id = some t)
include hf hids

/-- Code stands in trees of `T`. -/
theorem Recoded.absorbed (hg : Recoded f g scope ids) (root : NodeId) : Absorbed T root f g := by
  refine ⟨hg.wellFormed hf, Nat.le_of_eq hg.size.symm, fun x _ => hg.owner x,
    fun x _ hx => (hg.parent? x).trans hx, fun x p hp => .inl ((hg.parent? x).trans hp),
    fun x _ hout => ⟨?_, hg.children x⟩⟩
  rw [hg.label, hg.text x]
  · rfl
  rintro id hid parts hparts rfl
  obtain ⟨-, t, ht, hp⟩ := hids id hid
  exact hout t ht (.of_parent (hf.mem_children.mp (action_mem_children hparts))
    (.of_parent hp (.refl f t)))

/-- No section but a named action has merged code in it. -/
theorem Recoded.keeps (hT : f.Rooted T) (hg : Recoded f g scope ids) (hkind : kind ≠ .namedAction) :
    Keeps kind T f g := by
  refine ⟨fun t _ => ?_, fun t s x ht hs hw => ⟨hg.children x, ?_⟩⟩
  · rw [childrenOfKind, hg.children, childrenOfKind]
    exact List.filter_congr fun c _ => by rw [hg.kind]
  rw [hg.label, hg.text x]
  · rfl
  rintro id hid parts hparts rfl
  obtain ⟨hk, u, hu, hp⟩ := hids id hid
  obtain ⟨hsp, hsk⟩ := (mem_childrenOfKind hf).mp hs
  have hx := hf.mem_children.mp (action_mem_children hparts)
  rcases within_iff.mp hw with he | ⟨q, hxq, hqs⟩
  · rw [he, hsp] at hx
    rw [← Option.some.inj hx, hT.isRoot t ht] at hp
    simp at hp
  obtain rfl : id = q := Option.some.inj (hx.symm.trans hxq)
  rcases within_iff.mp hqs with rfl | ⟨v, hidv, hvs⟩
  · exact hkind (hsk.symm.trans hk)
  · obtain rfl : u = v := Option.some.inj (hp.symm.trans hidv)
    rw [hvs.eq_of_root (hT.isRoot u hu), hT.isRoot u hu] at hsp
    simp at hsp

/-- No section but a named action moves. -/
theorem Placed.keeps (hT : f.Rooted T) (hg : Placed f g root ids) (ht : T root)
    (hkind : kind ≠ .namedAction) : Keeps kind T f g := by
  refine ⟨fun t _ => ?_, fun t s x ht' hs hw => ⟨?_, hg.label x⟩⟩
  · have hkinds : ∀ c, decide (g.kind c = kind) = decide (f.kind c = kind) := fun c => by
      rw [kind_of_label (hg.label c)]
    rw [childrenOfKind, funext hkinds, childrenOfKind]
    exact hg.filter_children (fun c hc =>
      decide_eq_false fun he => hkind (he.symm.trans (hids c hc).1)) t
  · obtain ⟨hsp, -⟩ := (mem_childrenOfKind hf).mp hs
    have htop : ∀ u, T u → x ≠ u := by
      rintro u hu rfl
      rw [hw.eq_of_root (hT.isRoot x hu), hT.isRoot x hu] at hsp
      simp at hsp
    rw [hg.children x (htop root ht), List.filter_eq_self]
    intro c hc
    rw [decide_eq_true_eq]
    intro hmem
    obtain ⟨-, u, hu, hp⟩ := hids c hmem
    exact htop u hu (Option.some.inj ((hf.mem_children.mp hc).symm.trans hp))

/-- Named actions that move are absorbed. -/
theorem Placed.absorbed (hg : Placed f g root ids) (ht : T root) : Absorbed T root f g := by
  refine ⟨hg.wellFormed, Nat.le_of_eq hg.size.symm, fun x _ => ?_, fun x _ hx => ?_,
    fun x p hp => ?_, fun x _ hout => ⟨hg.label x, ?_⟩⟩
  · rw [Forest.owner, hg.label, ← Forest.owner]
  · rw [hg.parent?, if_neg, hx]
    intro hmem
    obtain ⟨-, t, -, hp⟩ := hids x hmem
    simp [hx] at hp
  · by_cases hmem : x ∈ ids
    · refine .inr (.of_parent ?_ (.refl g root))
      rw [hg.parent?, if_pos hmem]
    · rw [hg.parent?, if_neg hmem]
      exact .inl hp
  · have hne : x ≠ root := by
      rintro rfl
      exact hout x ht (.refl f x)
    rw [hg.children x hne, List.filter_eq_self]
    intro c hc
    rw [decide_eq_true_eq]
    intro hmem
    obtain ⟨-, t, ht, hp⟩ := hids c hmem
    rw [hf.mem_children.mp hc] at hp
    exact hout x (Option.some.inj hp ▸ ht) (.refl f x)

end Actions

/-- Merging the named actions of two trees moves some of them, and no other section changes. -/
theorem merged_absorbed (hT : f.Rooted T) (ht : T root) (hi : T importRoot)
    (hm : Combined f scope
      (f.childrenOfKind root .namedAction ++ f.childrenOfKind importRoot .namedAction) m)
    (hg : Placed m.forest g root (m.named.values.filter fun id => f.parent? id ≠ some root)) :
    Absorbed T root f g ∧ ∀ kind ≠ .namedAction, Keeps kind T f g := by
  have hf := hT.wellFormed
  have hids : ∀ id ∈ f.childrenOfKind root .namedAction ++ f.childrenOfKind importRoot .namedAction,
      f.kind id = .namedAction ∧ ∃ t, T t ∧ f.parent? id = some t := by
    intro id hid
    rcases List.mem_append.mp hid with hid | hid
    · obtain ⟨hp, hk⟩ := (mem_childrenOfKind hf).mp hid
      exact ⟨hk, root, ht, hp⟩
    · obtain ⟨hp, hk⟩ := (mem_childrenOfKind hf).mp hid
      exact ⟨hk, importRoot, hi, hp⟩
  have hrecoded := hm.recoded
  have hfm := hrecoded.absorbed hf hids root
  have hTm : m.forest.Rooted T := ⟨hfm.wellFormed, fun t ht => hrecoded.size ▸ hT.lt_size t ht,
    fun t ht => (hrecoded.parent? t).trans (hT.isRoot t ht)⟩
  have hmoved : ∀ id ∈ m.named.values.filter fun id => f.parent? id ≠ some root,
      m.forest.kind id = .namedAction ∧ ∃ t, T t ∧ m.forest.parent? id = some t := by
    intro id hid
    obtain ⟨key, -, hget⟩ := hm.get?_of_mem_values (List.mem_of_mem_filter hid)
    rw [hrecoded.kind, hrecoded.parent?]
    exact hids id (hm.mem_of_get? hget).1
  refine ⟨hfm.trans hf (hg.absorbed hfm.wellFormed hmoved ht), fun kind hkind => ?_⟩
  exact (hrecoded.keeps hf hids hT hkind).trans hf hfm.wellFormed
    (hg.keeps hfm.wellFormed hmoved hTm ht hkind)

/-! ### One import -/

/-- What one pass does to the nodes: in `g`, the import at `importRoot` has given its tokens and the
names of its channels to the grammar at `root`. -/
structure Brought (T : NodeId → Prop) (root importRoot : NodeId) (f g : Forest) : Prop where
  absorbed : Absorbed T root f g
  tokens : importRoot ≠ root → g.sectionItems root .tokensSpec =
      f.sectionItems root .tokensSpec ++ f.sectionItems importRoot .tokensSpec ∧
    g.sectionItems importRoot .tokensSpec = [] ∧
    g.firstChildOfKind? importRoot .tokensSpec = f.firstChildOfKind? importRoot .tokensSpec
  otherTokens : Keeps .tokensSpec (fun t => T t ∧ t ≠ root ∧ t ≠ importRoot) f g
  channels : (f.channelNames importRoot).Nodup → g.channelNames root =
    f.channelNames root ++ (f.channelNames importRoot).filter (· ∉ f.channelNames root)
  otherChannels : Keeps .channels (fun t => T t ∧ t ≠ root) f g

/-- Steps that leave all tokens and channels alone may follow. -/
theorem Brought.trans (hT : f.Rooted T) (ht : T root) (hi : T importRoot)
    (hg : Brought T root importRoot f g) (hk : Absorbed T root g k)
    (htokens : Keeps .tokensSpec T g k) (hchannels : Keeps .channels T g k) :
    Brought T root importRoot f k := by
  have hf := hT.wellFormed
  have hw := hg.absorbed.wellFormed
  refine ⟨hg.absorbed.trans hf hk, fun hne => ?_,
    hg.otherTokens.trans hf hw (htokens.mono fun t ht => ht.1), fun hnodup => ?_,
    hg.otherChannels.trans hf hw (hchannels.mono fun t ht => ht.1)⟩
  · rw [htokens.sectionItems_eq hw ht, htokens.sectionItems_eq hw hi,
      htokens.firstChildOfKind?_eq hi]
    exact hg.tokens hne
  · rw [hchannels.channelNames_eq hw ht]
    exact hg.channels hnodup

/-- Once channels and tokens have been taken over, they have been brought. -/
theorem Brought.of_shifted (hT : f.Rooted T) (ht : T root) (hi : T importRoot)
    (hg : Shifted .channels root root f g) (hk : Shifted .tokensSpec root importRoot g k)
    (hchannels : (f.channelNames importRoot).Nodup → g.channelNames root =
      f.channelNames root ++ (f.channelNames importRoot).filter (· ∉ f.channelNames root))
    (htokens : importRoot ≠ root → k.sectionItems root .tokensSpec =
        g.sectionItems root .tokensSpec ++ g.sectionItems importRoot .tokensSpec ∧
      k.sectionItems importRoot .tokensSpec = []) : Brought T root importRoot f k := by
  have hf := hT.wellFormed
  have hr := hT.isRoot root ht
  have hTg := (hg.steady hT ht ht (by decide)).rooted hT
  have hfg : Keeps .tokensSpec T f g := hg.keeps hT hr hr fun _ _ => .inl (by decide)
  have hgk : Keeps .channels T g k :=
    hk.keeps hTg (hTg.isRoot root ht) (hTg.isRoot importRoot hi) fun _ _ => .inl (by decide)
  refine ⟨(hg.absorbed ht ht).trans hf (hk.absorbed ht hi), fun hne => ?_,
    (hfg.mono fun t ht => ht.1).trans hf hg.wellFormed
      (hk.keeps (hTg.mono fun t ht => ht.1) (hTg.isRoot root ht) (hTg.isRoot importRoot hi)
        fun t ht => .inr ht.2),
    fun hnodup => ?_,
    (hg.keeps (hT.mono fun t ht => ht.1) hr hr fun t ht => .inr ⟨ht.2, ht.2⟩).trans hf
      hg.wellFormed (hgk.mono fun t ht => ht.1)⟩
  · obtain ⟨hroot, hempty⟩ := htokens hne
    refine ⟨?_, hempty, ?_⟩
    · rw [hroot, hfg.sectionItems_eq hf ht, hfg.sectionItems_eq hf hi]
    · rw [← hfg.firstChildOfKind?_eq hi]
      exact firstChildOfKind?_congr (hk.children_of_root (hTg.lt_size _ hi) (hTg.isRoot _ hi) hne)
        (fun c hc => hk.label c (hTg.wellFormed.lt_size_of_child hc)) .tokensSpec
  · rw [hgk.channelNames_eq hg.wellFormed ht, hchannels hnodup]

end Integration

end GrammarTrees
