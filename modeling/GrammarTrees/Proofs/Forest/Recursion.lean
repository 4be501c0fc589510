import GrammarTrees.Forest.Rewrite
import GrammarTrees.Proofs.Forest.Operations
import GrammarTrees.Proofs.Forest.Replacing
import GrammarTrees.Proofs.Forest.Walks

/-! Rewriting as a recursion on trees: the children from left to right, and the node after them or
before them. A visitor that only makes new trees cannot disturb it. What the recursion builds stands
in the old place, what is replaced stays as it was, and no node is visited twice. -/

namespace GrammarTrees

/-- A visited node with its subtree at that time, and whether it was replaced. -/
structure Visit where
  seen : NodeTree
  replaced : Bool

def Visit.node (v : Visit) : NodeId := v.seen.root

namespace Visitor

variable {σ : Type}

/-- The visitor changes no nodes that are there, and the nodes that it names are roots of trees that
it has made on that visit. Operations on new nodes do no more, by `Operation.grown_runAll`. -/
structure BuildsFresh (visitor : Visitor σ) : Prop where
  grown : ∀ (s : σ) (f : Forest) (id : NodeId), f.WellFormed → id < f.size →
    f.Grown (visitor s f id).2.1
  fresh : ∀ (s : σ) (f : Forest) (id r : NodeId), f.WellFormed → id < f.size →
    (visitor s f id).2.2 = some r →
      f.size ≤ r ∧ r < (visitor s f id).2.1.size ∧ (visitor s f id).2.1.parent? r = none

end Visitor

namespace Forest

variable {σ : Type} {visitor : Visitor σ} {s s' : σ} {f g k : Forest} {a p : Nat}
  {x : NodeId × Label} {t t' : NodeTree} {ts ts' : List NodeTree} {v : Visit} {vs ws : List Visit}
  {done : List NodeId}

/-! ### The recursion -/

/-- In the forest `f`, the visitor is shown the root of `t`. Afterwards `t'` stands in its place. -/
inductive Answers (visitor : Visitor σ) :
    σ → Forest → NodeTree → Visit → σ → Forest → NodeTree → Prop
  | kept {s s' : σ} {f g : Forest} {t : NodeTree} (h : visitor s f t.root = (s', g, none)) :
    Answers visitor s f t ⟨t, false⟩ s' g t
  | replaced {s s' : σ} {f g k : Forest} {t : NodeTree} {r : NodeId}
    (h : visitor s f t.root = (s', k, some r)) (hg : k.Replaced g t.root r) :
    Answers visitor s f t ⟨t, true⟩ s' g (k.nodeTree r)

mutual

/-- `Rewrites visitor order s f t vs s' g t'`: rewriting turns the tree `t` in the forest `f` into
`t'` in `g`, and takes the visits `vs`. -/
inductive Rewrites (visitor : Visitor σ) :
    VisitOrder → σ → Forest → NodeTree → List Visit → σ → Forest → NodeTree → Prop
  | post {s₀ s₁ s₂ : σ} {f₀ f₁ f₂ : Forest} {x : NodeId × Label} {ts ts' : List NodeTree}
    {t : NodeTree} {vs : List Visit} {v : Visit}
    (hchildren : RewritesAll visitor .post s₀ f₀ ts vs s₁ f₁ ts')
    (hnode : Answers visitor s₁ f₁ (.node x ts') v s₂ f₂ t) :
    Rewrites visitor .post s₀ f₀ (.node x ts) (vs ++ [v]) s₂ f₂ t
  | pre {s₀ s₁ s₂ : σ} {f₀ f₁ f₂ : Forest} {t : NodeTree} {x : NodeId × Label}
    {ts ts' : List NodeTree} {v : Visit} {vs : List Visit}
    (hnode : Answers visitor s₀ f₀ t v s₁ f₁ (.node x ts))
    (hchildren : RewritesAll visitor .pre s₁ f₁ ts vs s₂ f₂ ts') :
    Rewrites visitor .pre s₀ f₀ t ([v] ++ vs) s₂ f₂ (.node x ts')

/-- The trees are rewritten from left to right. -/
inductive RewritesAll (visitor : Visitor σ) :
    VisitOrder → σ → Forest → List NodeTree → List Visit → σ → Forest → List NodeTree → Prop
  | nil {order : VisitOrder} {s : σ} {f : Forest} : RewritesAll visitor order s f [] [] s f []
  | cons {order : VisitOrder} {s₀ s₁ s₂ : σ} {f₀ f₁ f₂ : Forest} {t t' : NodeTree}
    {ts ts' : List NodeTree} {vs ws : List Visit}
    (hfirst : Rewrites visitor order s₀ f₀ t vs s₁ f₁ t')
    (hrest : RewritesAll visitor order s₁ f₁ ts ws s₂ f₂ ts') :
    RewritesAll visitor order s₀ f₀ (t :: ts) (vs ++ ws) s₂ f₂ (t' :: ts')

end

/-! ### Trees and their places -/

/-- `t` is a subtree of the forest. -/
structure Stands (f : Forest) (t : NodeTree) : Prop where
  wellFormed : f.WellFormed
  root_lt : t.root < f.size
  nodeTree : f.nodeTree t.root = t

/-- The trees `ts` stand below `p`, after the children `done`. -/
structure StandBelow (f : Forest) (p : NodeId) (done : List NodeId) (ts : List NodeTree) :
    Prop where
  wellFormed : f.WellFormed
  parent_lt : p < f.size
  children : f.children p = done ++ ts.map Tree.root
  nodeTree : ∀ t ∈ ts, f.nodeTree t.root = t

theorem stands_nodeTree (h : f.WellFormed) (ha : a < f.size) : f.Stands (f.nodeTree a) := by
  refine ⟨h, ?_, ?_⟩ <;> rw [root_nodeTree]
  exact ha

theorem Stands.below (h : f.Stands (.node x ts)) : f.StandBelow x.1 [] ts := by
  have htree : f.nodeTree x.1 = .node x ts := h.nodeTree
  rw [nodeTree_eq h.wellFormed (show x.1 < f.size from h.root_lt)] at htree
  obtain ⟨-, rfl⟩ := Tree.node.inj htree
  refine ⟨h.wellFormed, h.root_lt, ?_, List.forall_mem_map.mpr fun c _ => ?_⟩
  · rw [List.nil_append, List.map_map]
    exact (List.map_id'' (root_nodeTree f) _).symm
  · rw [root_nodeTree]

namespace StandBelow

theorem parent?_of_mem (h : f.StandBelow p done ts) (ht : t ∈ ts) : f.parent? t.root = some p := by
  rw [← h.wellFormed.mem_children, h.children]
  exact List.mem_append_right done (List.mem_map_of_mem ht)

theorem child?_end (h : f.StandBelow p done []) : f.child? p done.length = none := by
  rw [Forest.child?, h.children, List.map_nil, List.append_nil]
  exact List.getElem?_eq_none (Nat.le_refl _)

variable (h : f.StandBelow p done (t :: ts))
include h

theorem parent? : f.parent? t.root = some p := h.parent?_of_mem List.mem_cons_self

theorem first : f.Stands t :=
  ⟨h.wellFormed, lt_size_of_parent?_eq h.parent?, h.nodeTree t List.mem_cons_self⟩

theorem child? : f.child? p done.length = some t.root := by
  rw [Forest.child?, h.children, List.getElem?_append_right (Nat.le_refl _), Nat.sub_self]
  rfl

theorem ne_root {d : NodeId} (hd : d ∈ done ++ ts.map Tree.root) : d ≠ t.root := by
  rintro rfl
  have hnodup := h.wellFormed.nodup_children p
  rw [h.children, List.map_cons, List.nodup_middle, List.nodup_cons] at hnodup
  exact hnodup.1 hd

end StandBelow

/-! ### What the recursion leaves -/

/-- `g` is `f` with the tree `t` in the place of the subtree of `a`. What has been replaced on the
visits `vs` stands alone. -/
structure RewrittenTo (f g : Forest) (a : NodeId) (t : NodeTree) (vs : List Visit) : Prop where
  rewritten : f.Rewritten g a t.root
  nodeTree : g.nodeTree t.root = t
  takenOut : ∀ v ∈ vs, v.replaced = true → g.TakenOut t.root v.node v.seen

/-- `g` is `f` with the trees `ts` below `p`, after the children `done`. -/
structure RewrittenBelow (f g : Forest) (p : NodeId) (done : List NodeId) (ts : List NodeTree)
    (vs : List Visit) : Prop where
  rewritten : f.Rewritten g p p
  below : g.StandBelow p done ts
  done : ∀ d ∈ done, g.nodeTree d = f.nodeTree d
  takenOut : ∀ v ∈ vs, v.replaced = true → g.TakenOut p v.node v.seen

theorem RewrittenTo.stands (hg : RewrittenTo f g a t vs) : g.Stands t :=
  ⟨hg.rewritten.wellFormed, hg.rewritten.root_lt, hg.nodeTree⟩

theorem RewrittenTo.trans (hf : f.WellFormed) (hg : RewrittenTo f g a t vs)
    (hk : RewrittenTo g k t.root t' ws) : RewrittenTo f k a t' (vs ++ ws) :=
  ⟨hg.rewritten.trans hf hk.rewritten, hk.nodeTree, List.forall_mem_append.mpr
    ⟨fun v hv hr => (hg.takenOut v hv hr).step hg.rewritten.wellFormed hk.rewritten, hk.takenOut⟩⟩

/-- New trees below its root make a new tree. -/
theorem RewrittenBelow.rewrittenTo (h : f.Stands (.node x ts))
    (hg : RewrittenBelow f g x.1 [] ts' vs) : RewrittenTo f g x.1 (.node x ts') vs := by
  refine ⟨hg.rewritten, ?_, hg.takenOut⟩
  have hx : (x.1, f.label x.1) = x := by
    have hlabel := label_nodeTree f x.1
    rw [show f.nodeTree x.1 = .node x ts from h.nodeTree] at hlabel
    exact hlabel.symm
  have hroots : ts'.map (g.nodeTree ∘ Tree.root) = ts' :=
    (List.map_congr_left hg.below.nodeTree).trans (List.map_id ts')
  rw [show Tree.root (.node x ts') = x.1 from rfl,
    nodeTree_eq hg.rewritten.wellFormed hg.rewritten.root_lt, hg.rewritten.label x.1 h.root_lt, hx,
    hg.below.children, List.nil_append, List.map_map, hroots]

/-! ### One child after the other -/

theorem within_iff_of_nodeTree {x : NodeId} (hf : f.WellFormed) (hg : g.WellFormed)
    (ha : a < f.size) (hag : a < g.size) (h : g.nodeTree a = f.nodeTree a) :
    g.Within x a ↔ f.Within x a := by
  have htree := congrArg (fun t => t.preorder.map Prod.fst) h
  simp only [nodeTree, Tree.preorder_map, List.map_map, Function.comp_def, List.map_id'] at htree
  rw [← mem_preorder_tree hg hag, ← mem_preorder_tree hf ha, htree]

section Siblings

variable (h : f.StandBelow p done (t :: ts)) (hg : RewrittenTo f g t.root t' vs)
include h hg

/-- The other children stay. -/
theorem RewrittenTo.nodeTree_sibling {d : NodeId} (hd : d ∈ done ++ ts.map Tree.root) :
    g.nodeTree d = f.nodeTree d := by
  have hne := h.ne_root hd
  have hp : f.parent? d = some p := by
    rw [← h.wellFormed.mem_children, h.children]
    exact List.mem_append.mpr ((List.mem_append.mp hd).imp_right (List.mem_cons_of_mem t.root))
  exact hg.rewritten.nodeTree h.wellFormed (lt_size_of_parent?_eq hp)
    (h.wellFormed.not_within_siblings hp h.parent? hne (.refl f d))
    (h.wellFormed.not_within_siblings h.parent? hp hne.symm (.refl f t.root))

theorem RewrittenTo.within_sibling {u : NodeTree} {y : NodeId} (hu : u ∈ ts) :
    g.Within y u.root ↔ f.Within y u.root := by
  have hlt := lt_size_of_parent?_eq (h.parent?_of_mem (List.mem_cons_of_mem t hu))
  exact within_iff_of_nodeTree h.wellFormed hg.rewritten.wellFormed hlt
    (Nat.lt_of_lt_of_le hlt hg.rewritten.size_le)
    (hg.nodeTree_sibling h (List.mem_append_right _ (List.mem_map_of_mem hu)))

/-- What comes next stands below the same parent. -/
theorem RewrittenTo.next : g.StandBelow p (done ++ [t'.root]) ts := by
  have hout := h.wellFormed.not_within_of_parent h.parent?
  have hnodup := h.wellFormed.nodup_children p
  rw [h.children, List.map_cons] at hnodup
  refine ⟨hg.rewritten.wellFormed, Nat.lt_of_lt_of_le h.parent_lt hg.rewritten.size_le, ?_,
    fun u hu => ?_⟩
  · rw [hg.rewritten.children p h.parent_lt hout, h.children, List.map_cons,
      map_swap_append hnodup, List.append_assoc, List.singleton_append]
  · rw [hg.nodeTree_sibling h (List.mem_append_right _ (List.mem_map_of_mem hu))]
    exact h.nodeTree u (List.mem_cons_of_mem t hu)

theorem RewrittenTo.cons (hk : RewrittenBelow g k p (done ++ [t'.root]) ts' ws) :
    RewrittenBelow f k p done (t' :: ts') (vs ++ ws) := by
  have hp : g.parent? t'.root = some p := hg.rewritten.place.trans h.parent?
  refine ⟨(hg.rewritten.of_child h.wellFormed h.parent?).trans h.wellFormed hk.rewritten,
    ⟨hk.below.wellFormed, hk.below.parent_lt, ?_, List.forall_mem_cons.mpr ⟨?_, hk.below.nodeTree⟩⟩,
    fun d hd => ?_, List.forall_mem_append.mpr ⟨fun v hv hr => ?_, hk.takenOut⟩⟩
  · rw [hk.below.children, List.append_assoc, List.singleton_append, List.map_cons]
  · rw [hk.done t'.root (by simp), hg.nodeTree]
  · rw [hk.done d (List.mem_append_left _ hd), hg.nodeTree_sibling h (List.mem_append_left _ hd)]
  · exact ((hg.takenOut v hv hr).parent hp).step hg.rewritten.wellFormed hk.rewritten

end Siblings

theorem Answers.rewrittenTo (hv : Visitor.BuildsFresh visitor) (h : f.Stands t)
    (ha : Answers visitor s f t v s' g t') :
    RewrittenTo f g t.root t' [v] := by
  have hgrown := hv.grown s f t.root h.wellFormed h.root_lt
  cases ha with
  | kept hvisit =>
    rw [hvisit] at hgrown
    exact ⟨hgrown.rewritten h.root_lt, (hgrown.nodeTree h.wellFormed h.root_lt).trans h.nodeTree,
      by simp⟩
  | @replaced _ _ _ k _ r hvisit hg =>
    obtain ⟨hnew, hlt, -⟩ := hv.fresh s f t.root r h.wellFormed h.root_lt (by rw [hvisit])
    rw [hvisit] at hgrown hlt
    have htaken := hg.takenOut h.wellFormed hgrown h.root_lt hnew hlt
    rw [h.nodeTree] at htaken
    refine ⟨?_, ?_, List.forall_mem_singleton.mpr fun _ => ?_⟩ <;> rw [root_nodeTree]
    · exact hg.rewritten hgrown h.root_lt hnew hlt
    · exact hg.nodeTree_root h.wellFormed hgrown h.root_lt hnew hlt
    · exact htaken

mutual

theorem Rewrites.rewrittenTo {order : VisitOrder} {s s' : σ} {f g : Forest} {t t' : NodeTree}
    {vs : List Visit} (hv : Visitor.BuildsFresh visitor) (h : f.Stands t) :
    Rewrites visitor order s f t vs s' g t' → RewrittenTo f g t.root t' vs
  | .post hchildren hnode => by
    have hg := (RewritesAll.rewrittenBelow hv h.below hchildren).rewrittenTo h
    exact hg.trans h.wellFormed (hnode.rewrittenTo hv hg.stands)
  | .pre hnode hchildren => by
    have hg := hnode.rewrittenTo hv h
    exact hg.trans h.wellFormed <|
      (RewritesAll.rewrittenBelow hv hg.stands.below hchildren).rewrittenTo hg.stands

theorem RewritesAll.rewrittenBelow {order : VisitOrder} {s s' : σ} {f g : Forest} {p : NodeId}
    {done : List NodeId} {ts ts' : List NodeTree} {vs : List Visit}
    (hv : Visitor.BuildsFresh visitor) (h : f.StandBelow p done ts) :
    RewritesAll visitor order s f ts vs s' g ts' → RewrittenBelow f g p done ts' vs
  | .nil => ⟨.refl h.wellFormed h.parent_lt, h, fun _ _ => rfl, by simp⟩
  | .cons hfirst hrest => by
    have hg := Rewrites.rewrittenTo hv h.first hfirst
    -- The first child may be another one now, and the rest comes after it in the new list.
    exact hg.cons h (RewritesAll.rewrittenBelow hv (hg.next h) hrest)

end

/-! ### No node is visited twice -/

/-- The visits are to different nodes of `g`. Those that `f` has too are among the given ones. -/
structure VisitsOnce (f g : Forest) (among : NodeId → Prop) (vs : List Visit) : Prop where
  nodup : (vs.map Visit.node).Nodup
  origin : ∀ v ∈ vs, f.size ≤ v.node ∨ among v.node
  lt_size : ∀ v ∈ vs, v.node < g.size

theorem VisitsOnce.append {among later all : NodeId → Prop} (hvs : VisitsOnce f g among vs)
    (hws : VisitsOnce g k later ws) (hfg : f.size ≤ g.size) (hgk : g.size ≤ k.size)
    (hamong : ∀ x, among x → all x) (hlater : ∀ x, later x → f.size ≤ x ∨ all x)
    (hapart : ∀ v ∈ vs, ¬ later v.node) : VisitsOnce f k all (vs ++ ws) := by
  refine ⟨?_, List.forall_mem_append.mpr ⟨fun v hv => ?_, fun w hw => ?_⟩,
    List.forall_mem_append.mpr ⟨fun v hv => ?_, hws.lt_size⟩⟩
  · rw [List.map_append, List.nodup_append]
    refine ⟨hvs.nodup, hws.nodup, List.forall_mem_map.mpr fun v hv =>
      List.forall_mem_map.mpr fun w hw heq => ?_⟩
    rcases hws.origin w hw with hnew | hlater
    · exact Nat.not_lt.mpr hnew (heq ▸ hvs.lt_size v hv)
    · exact hapart v hv (heq ▸ hlater)
  · exact (hvs.origin v hv).imp_right (hamong v.node)
  · rcases hws.origin w hw with hnew | hold
    · exact .inl (Nat.le_trans hfg hnew)
    · exact hlater w.node hold
  · exact Nat.lt_of_lt_of_le (hvs.lt_size v hv) hgk

theorem Answers.node_eq (ha : Answers visitor s f t v s' g t') : v.node = t.root := by
  cases ha <;> rfl

theorem Answers.visitsOnce (hv : Visitor.BuildsFresh visitor) (h : f.Stands t)
    (ha : Answers visitor s f t v s' g t') : VisitsOnce f g (fun y => y = t.root) [v] := by
  refine ⟨List.nodup_singleton _, List.forall_mem_singleton.mpr (.inr ha.node_eq),
    List.forall_mem_singleton.mpr ?_⟩
  rw [ha.node_eq]
  exact Nat.lt_of_lt_of_le h.root_lt (ha.rewrittenTo hv h).rewritten.size_le

/-- The nodes below the root of the answer are not the one that was shown. -/
theorem Answers.not_within_child (hv : Visitor.BuildsFresh visitor) (h : f.Stands t)
    (ha : Answers visitor s f t v s' g t') {c : NodeId} (hc : g.parent? c = some t'.root) :
    ¬ g.Within t.root c := by
  have hg := ha.rewrittenTo hv h
  cases ha with
  | kept _ => exact hg.rewritten.wellFormed.not_within_of_parent hc
  | replaced _ _ =>
    intro hw
    have htaken := hg.takenOut _ (List.mem_singleton_self _) rfl
    obtain rfl := hw.eq_of_root htaken.isRoot
    exact absurd (hc.symm.trans htaken.isRoot) (by simp)

mutual

theorem Rewrites.visitsOnce {order : VisitOrder} {s s' : σ} {f g : Forest} {t t' : NodeTree}
    {vs : List Visit} (hv : Visitor.BuildsFresh visitor) (h : f.Stands t) :
    Rewrites visitor order s f t vs s' g t' → VisitsOnce f g (fun y => f.Within y t.root) vs
  | .post hchildren hnode => by
    have hg := (hchildren.rewrittenBelow hv h.below).rewrittenTo h
    have hk := hnode.rewrittenTo hv hg.stands
    have hvs := RewritesAll.visitsOnce hv h.below hchildren
    refine hvs.append (hnode.visitsOnce hv hg.stands) hg.rewritten.size_le hk.rewritten.size_le
      (fun y ⟨u, hu, hy⟩ => hy.trans (.of_parent (h.below.parent?_of_mem hu) (.refl f _)))
      (fun y hy => .inr (hy ▸ .refl f _)) fun v hmem hv => ?_
    rcases hvs.origin v hmem with hnew | ⟨u, hu, hw⟩
    · exact Nat.not_lt.mpr hnew (hv ▸ h.root_lt)
    · rw [hv] at hw
      exact h.wellFormed.not_within_of_parent (h.below.parent?_of_mem hu) hw
  | .pre hnode hchildren => by
    have hg := hnode.rewrittenTo hv h
    have hk := hchildren.rewrittenBelow hv hg.stands.below
    refine (hnode.visitsOnce hv h).append (RewritesAll.visitsOnce hv hg.stands.below hchildren)
      hg.rewritten.size_le hk.rewritten.size_le (fun y hy => hy ▸ .refl f _)
      (fun y ⟨u, hu, hy⟩ => hg.rewritten.new_or_within h.wellFormed
        (hy.trans (.of_parent (hg.stands.below.parent?_of_mem hu) (.refl _ _))))
      (List.forall_mem_singleton.mpr fun ⟨u, hu, hw⟩ => ?_)
    rw [hnode.node_eq] at hw
    exact hnode.not_within_child hv h (hg.stands.below.parent?_of_mem hu) hw

theorem RewritesAll.visitsOnce {order : VisitOrder} {s s' : σ} {f g : Forest} {p : NodeId}
    {done : List NodeId} {ts ts' : List NodeTree} {vs : List Visit}
    (hv : Visitor.BuildsFresh visitor) (h : f.StandBelow p done ts) :
    RewritesAll visitor order s f ts vs s' g ts' →
      VisitsOnce f g (fun y => ∃ u ∈ ts, f.Within y u.root) vs
  | .nil => ⟨List.nodup_nil, by simp, by simp⟩
  | .cons hfirst hrest => by
    have hg := hfirst.rewrittenTo hv h.first
    have hk := hrest.rewrittenBelow hv (hg.next h)
    have hvs := Rewrites.visitsOnce hv h.first hfirst
    refine hvs.append (RewritesAll.visitsOnce hv (hg.next h) hrest) hg.rewritten.size_le
      hk.rewritten.size_le (fun y hy => ⟨_, List.mem_cons_self, hy⟩)
      (fun y ⟨u, hu, hy⟩ => .inr ⟨u, List.mem_cons_of_mem _ hu, (hg.within_sibling h hu).mp hy⟩)
      fun v hmem ⟨u, hu, hy⟩ => ?_
    have hp := h.parent?_of_mem (List.mem_cons_of_mem _ hu)
    have hne := h.ne_root (List.mem_append_right _ (List.mem_map_of_mem hu))
    rw [hg.within_sibling h hu] at hy
    rcases hvs.origin v hmem with hnew | hw
    · exact Nat.not_lt.mpr hnew (hy.lt_size (lt_size_of_parent?_eq hp))
    · exact h.wellFormed.not_within_siblings h.parent? hp hne.symm hw hy

end

end Forest

end GrammarTrees
