import GrammarTrees.Proofs.Forest.Recursion

/-! Rewriting in place takes the way of the recursion on trees, although it goes by index through
child lists that are edited meanwhile. With enough nested steps it makes the same visits in the same
order and leaves the same forest, and it ends only where the recursion does. -/

namespace GrammarTrees

namespace Visitor

variable {σ : Type}

/-- The visitor with a list of its visits. -/
def logged (visitor : Visitor σ) : Visitor (σ × List Visit) := fun s f id =>
  let answer := visitor s.1 f id
  ((answer.1, s.2 ++ [⟨f.nodeTree id, answer.2.2.isSome⟩]), answer.2)

theorem BuildsFresh.logged {visitor : Visitor σ} (hv : BuildsFresh visitor) :
    BuildsFresh (logged visitor) :=
  ⟨fun s => hv.grown s.1, fun s => hv.fresh s.1⟩

end Visitor

namespace Forest

variable {σ : Type} {visitor : Visitor σ} {s s' : σ} {f g k : Forest} {a : Nat} {t t' : NodeTree}
  {v : Visit}

/-! ### The walk takes the recursion's way -/

/-- The visitor's tree can be put in the place of what it was shown. -/
theorem exists_replaced (hv : Visitor.BuildsFresh visitor) (h : f.Stands t) {r : NodeId}
    (hvisit : visitor s f t.root = (s', k, some r)) :
    ∃ g, k.Replaced g t.root r ∧ visitOne visitor s f t.root = .ok (s', g, r) := by
  have hgrown := hv.grown s f t.root h.wellFormed h.root_lt
  obtain ⟨hnew, hlt, hroot⟩ := hv.fresh s f t.root r h.wellFormed h.root_lt (by rw [hvisit])
  rw [hvisit] at hgrown hlt hroot
  have hne : r ≠ t.root := Nat.ne_of_gt (Nat.lt_of_lt_of_le h.root_lt hnew)
  cases hp : k.parent? t.root with
  | none =>
    refine ⟨k, replaced_of_root hgrown.wellFormed hp hroot, ?_⟩
    simp [visitOne, hvisit, hne, hp]
  | some p =>
    have hpf : f.parent? t.root = some p := (hgrown.parent? h.root_lt).symm.trans hp
    have hplt := h.wellFormed.lt_size_of_parent hpf
    have hout : ¬ k.Within p r := fun hw =>
      Nat.not_lt.mpr hnew (h.wellFormed.within_lt_size (hgrown.within h.wellFormed hplt hw) hplt)
    obtain ⟨g, hg, hreplaced⟩ := replaced_insertChild hgrown.wellFormed hp hroot hlt hout
    exact ⟨g, hreplaced, by simp [visitOne, hvisit, hne, hp, hg]⟩

/-- There is one way to put the answer in place, so it does not matter which one is described. -/
theorem Answers.visitOne_eq (hv : Visitor.BuildsFresh visitor) (h : f.Stands t)
    (ha : Answers visitor s f t v s' g t') :
    visitOne visitor s f t.root = .ok (s', g, t'.root) := by
  cases ha with
  | kept hvisit => simp [visitOne, hvisit]
  | replaced hvisit hg =>
    obtain ⟨k, hk, hone⟩ := exists_replaced hv h hvisit
    rw [hone, hg.unique hk, root_nodeTree]

theorem exists_answers (hv : Visitor.BuildsFresh visitor) (h : f.Stands t) (s : σ) :
    ∃ v s' g t', Answers visitor s f t v s' g t' := by
  rcases hvisit : visitor s f t.root with ⟨s', k, _ | r⟩
  · exact ⟨_, s', k, t, .kept hvisit⟩
  · obtain ⟨g, hg, -⟩ := exists_replaced hv h hvisit
    exact ⟨_, s', g, _, .replaced hvisit hg⟩

mutual

/-- The walk needs one more nested step than what it calls. -/
theorem Rewrites.rewriteNode_eq {order : VisitOrder} {s s' : σ} {f g : Forest} {t t' : NodeTree}
    {vs : List Visit} (hv : Visitor.BuildsFresh visitor) (h : f.Stands t) :
    Rewrites visitor order s f t vs s' g t' →
      ∃ bound, ∀ n ≥ bound, rewriteNode order visitor n s f t.root = .ok (s', g, t'.root)
  | .post hchildren hnode => by
    obtain ⟨bound, hrun⟩ := RewritesAll.rewriteChildren_eq hv h.below hchildren
    have hg := (hchildren.rewrittenBelow hv h.below).rewrittenTo h
    refine ⟨bound + 1, fun n hn => ?_⟩
    obtain ⟨n, rfl⟩ := Nat.exists_eq_add_one_of_ne_zero (show n ≠ 0 by omega)
    have hbelow := hrun n (by omega)
    rw [rewriteNode]
    simp only [Tree.root_node, List.length_nil, bind, Except.bind] at hbelow ⊢
    rw [hbelow]
    exact hnode.visitOne_eq hv hg.stands
  | .pre hnode hchildren => by
    have hg := hnode.rewrittenTo hv h
    obtain ⟨bound, hrun⟩ := RewritesAll.rewriteChildren_eq hv hg.stands.below hchildren
    refine ⟨bound + 1, fun n hn => ?_⟩
    obtain ⟨n, rfl⟩ := Nat.exists_eq_add_one_of_ne_zero (show n ≠ 0 by omega)
    have hbelow := hrun n (by omega)
    rw [rewriteNode]
    simp only [hnode.visitOne_eq hv h, Tree.root_node, List.length_nil, bind, Except.bind]
      at hbelow ⊢
    rw [hbelow]
    rfl

/-- The index of the next child is the number of those before it, old or new. -/
theorem RewritesAll.rewriteChildren_eq {order : VisitOrder} {s s' : σ} {f g : Forest} {p : NodeId}
    {done : List NodeId} {ts ts' : List NodeTree} {vs : List Visit}
    (hv : Visitor.BuildsFresh visitor) (h : f.StandBelow p done ts) :
    RewritesAll visitor order s f ts vs s' g ts' →
      ∃ bound, ∀ n ≥ bound, rewriteChildren order visitor n s f p done.length = .ok (s', g)
  | .nil => by
    refine ⟨1, fun n hn => ?_⟩
    obtain ⟨n, rfl⟩ := Nat.exists_eq_add_one_of_ne_zero (show n ≠ 0 by omega)
    rw [rewriteChildren, h.child?_end]
  | .cons hfirst hrest => by
    have hg := hfirst.rewrittenTo hv h.first
    obtain ⟨m, hm⟩ := Rewrites.rewriteNode_eq hv h.first hfirst
    obtain ⟨l, hl⟩ := RewritesAll.rewriteChildren_eq hv (hg.next h) hrest
    refine ⟨max m l + 1, fun n hn => ?_⟩
    obtain ⟨n, rfl⟩ := Nat.exists_eq_add_one_of_ne_zero (show n ≠ 0 by omega)
    rw [List.length_append, List.length_singleton] at hl
    rw [rewriteChildren, h.child?]
    simp only [hm n (by omega), bind, Except.bind]
    exact hl n (by omega)

end

/-! ### A walk that ends has taken the recursion's way -/

mutual

theorem exists_rewrites_of_rewriteNode (hv : Visitor.BuildsFresh visitor) :
    (n : Nat) → (order : VisitOrder) → {s s' : σ} → {f g : Forest} → {t : NodeTree} →
    {r : NodeId} → f.Stands t → rewriteNode order visitor n s f t.root = .ok (s', g, r) →
      ∃ vs t', Rewrites visitor order s f t vs s' g t' ∧ t'.root = r
  | 0, _, _, _, _, _, _, _, _, hrun => by cases hrun
  | n + 1, .pre, s, _, _, _, t, _, h, hrun => by
    obtain ⟨v, s₁, f₁, ⟨x, ts⟩, ha⟩ := exists_answers hv h s
    have hg := (ha.rewrittenTo hv h).stands
    rw [rewriteNode] at hrun
    simp only [ha.visitOne_eq hv h, Tree.root_node, bind, Except.bind] at hrun
    rcases hbelow : rewriteChildren .pre visitor n s₁ f₁ x.1 0 with e | ⟨s₂, f₂⟩ <;>
      rw [hbelow] at hrun <;> cases hrun
    obtain ⟨vs, ts', hts⟩ := exists_rewrites_of_rewriteChildren hv n .pre hg.below hbelow
    exact ⟨_, _, .pre ha hts, rfl⟩
  | n + 1, .post, s, _, f, _, .node x ts, _, h, hrun => by
    rw [rewriteNode] at hrun
    simp only [Tree.root_node, bind, Except.bind] at hrun
    rcases hbelow : rewriteChildren .post visitor n s f x.1 0 with e | ⟨s₁, f₁⟩ <;>
      rw [hbelow] at hrun
    · cases hrun
    obtain ⟨vs, ts', hts⟩ := exists_rewrites_of_rewriteChildren hv n .post h.below hbelow
    have hg := ((hts.rewrittenBelow hv h.below).rewrittenTo h).stands
    obtain ⟨v, s₂, f₂, t₂, ha⟩ := exists_answers hv hg s₁
    cases (ha.visitOne_eq hv hg).symm.trans hrun
    exact ⟨_, _, .post hts ha, rfl⟩

theorem exists_rewrites_of_rewriteChildren (hv : Visitor.BuildsFresh visitor) :
    (n : Nat) → (order : VisitOrder) → {s s' : σ} → {f g : Forest} → {p : NodeId} →
    {done : List NodeId} → {ts : List NodeTree} → f.StandBelow p done ts →
    rewriteChildren order visitor n s f p done.length = .ok (s', g) →
      ∃ vs ts', RewritesAll visitor order s f ts vs s' g ts'
  | 0, _, _, _, _, _, _, _, _, _, hrun => by cases hrun
  | n + 1, _, _, _, _, _, _, _, [], h, hrun => by
    rw [rewriteChildren, h.child?_end] at hrun
    cases hrun
    exact ⟨_, _, .nil⟩
  | n + 1, order, s, _, f, _, p, done, t :: ts, h, hrun => by
    rw [rewriteChildren, h.child?] at hrun
    simp only [bind, Except.bind] at hrun
    rcases hfirst : rewriteNode order visitor n s f t.root with e | ⟨s₁, f₁, r⟩ <;>
      rw [hfirst] at hrun
    · cases hrun
    obtain ⟨vs, t', ht, -⟩ := exists_rewrites_of_rewriteNode hv n order h.first hfirst
    have hnext := (ht.rewrittenTo hv h.first).next h
    obtain ⟨ws, ts', hts⟩ :=
      exists_rewrites_of_rewriteChildren hv n order hnext (by simpa using hrun)
    exact ⟨_, _, .cons ht hts⟩

end

mutual

/-- With the children first, the recursion comes to an end on every tree. -/
theorem exists_rewrites_post (hv : Visitor.BuildsFresh visitor) {f : Forest} (s : σ) :
    (t : NodeTree) → f.Stands t → ∃ vs s' g t', Rewrites visitor .post s f t vs s' g t'
  | .node x ts, h => by
    obtain ⟨vs, s₁, f₁, ts', hts⟩ := exists_rewritesAll_post hv s ts h.below
    have hg := ((hts.rewrittenBelow hv h.below).rewrittenTo h).stands
    obtain ⟨v, s₂, f₂, t, ha⟩ := exists_answers hv hg s₁
    exact ⟨_, s₂, f₂, t, .post hts ha⟩

theorem exists_rewritesAll_post (hv : Visitor.BuildsFresh visitor) {f : Forest} {p : NodeId}
    {done : List NodeId} (s : σ) : (ts : List NodeTree) → f.StandBelow p done ts →
      ∃ vs s' g ts', RewritesAll visitor .post s f ts vs s' g ts'
  | [], _ => ⟨_, s, f, _, .nil⟩
  | t :: ts, h => by
    obtain ⟨vs, s₁, f₁, t', ht⟩ := exists_rewrites_post hv s t h.first
    obtain ⟨ws, s₂, f₂, ts', hts⟩ :=
      exists_rewritesAll_post hv s₁ ts ((ht.rewrittenTo hv h.first).next h)
    exact ⟨_, s₂, f₂, _, .cons ht hts⟩

end

/-! ### What the visitor saw -/

theorem Answers.logged (h : f.Stands t) (ha : Answers visitor s f t v s' g t') (log : List Visit) :
    Answers (Visitor.logged visitor) (s, log) f t v (s', log ++ [v]) g t' := by
  cases ha with
  | kept hvisit => exact .kept (by simp [Visitor.logged, hvisit, h.nodeTree])
  | replaced hvisit hg => exact .replaced (by simp [Visitor.logged, hvisit, h.nodeTree]) hg

mutual

theorem Rewrites.logged {order : VisitOrder} {s s' : σ} {f g : Forest} {t t' : NodeTree}
    {vs : List Visit} (hv : Visitor.BuildsFresh visitor) (h : f.Stands t) (log : List Visit) :
    Rewrites visitor order s f t vs s' g t' →
      Rewrites (Visitor.logged visitor) order (s, log) f t vs (s', log ++ vs) g t'
  | .post hchildren hnode => by
    have hg := (hchildren.rewrittenBelow hv h.below).rewrittenTo h
    rw [← List.append_assoc]
    exact .post (RewritesAll.logged hv h.below log hchildren) (hnode.logged hg.stands _)
  | .pre hnode hchildren => by
    have hg := hnode.rewrittenTo hv h
    rw [← List.append_assoc]
    exact .pre (hnode.logged h log) (RewritesAll.logged hv hg.stands.below _ hchildren)

theorem RewritesAll.logged {order : VisitOrder} {s s' : σ} {f g : Forest} {p : NodeId}
    {done : List NodeId} {ts ts' : List NodeTree} {vs : List Visit}
    (hv : Visitor.BuildsFresh visitor) (h : f.StandBelow p done ts) (log : List Visit) :
    RewritesAll visitor order s f ts vs s' g ts' →
      RewritesAll (Visitor.logged visitor) order (s, log) f ts vs (s', log ++ vs) g ts'
  | .nil => by
    rw [List.append_nil]
    exact .nil
  | .cons hfirst hrest => by
    have hg := hfirst.rewrittenTo hv h.first
    rw [← List.append_assoc]
    exact .cons (Rewrites.logged hv h.first log hfirst)
      (RewritesAll.logged hv (hg.next h) _ hrest)

end

/-! ### Rewriting in place -/

/-- Rewriting in place is the recursion. With the children first it comes to an end, and any walk
that ends has taken its way. Where it ends, the walk does from some bound on: it makes the same
visits in the same order, each to another node, and leaves the tree that the recursion builds. That
tree stands in the old place, nodes elsewhere change in nothing but the name of the child there, and
what was replaced stands alone as it was. -/
theorem rewriteNode_rewrites (hv : Visitor.BuildsFresh visitor) (hf : f.WellFormed)
    (ha : a < f.size) (s : σ) :
    (∃ vs s' g t, Rewrites visitor .post s f (f.nodeTree a) vs s' g t) ∧
    (∀ order n s' g r, rewriteNode order visitor n s f a = .ok (s', g, r) →
      ∃ vs t, Rewrites visitor order s f (f.nodeTree a) vs s' g t ∧ t.root = r) ∧
    ∀ order vs s' g t, Rewrites visitor order s f (f.nodeTree a) vs s' g t →
      (∃ bound, ∀ n ≥ bound,
        rewriteNode order visitor n s f a = .ok (s', g, t.root) ∧
        rewriteNode order (Visitor.logged visitor) n (s, []) f a = .ok ((s', vs), g, t.root)) ∧
      (vs.map Visit.node).Nodup ∧
      g.WellFormed ∧ g.nodeTree t.root = t ∧ g.parent? t.root = f.parent? a ∧
      (∀ x < f.size, ¬ f.Within x a →
        g.node x = { f.node x with children := (f.children x).map (swap a t.root) }) ∧
      ∀ v ∈ vs, v.replaced = true → g.parent? v.node = none ∧ g.nodeTree v.node = v.seen := by
  have hstands := stands_nodeTree hf ha
  refine ⟨exists_rewrites_post hv s _ hstands, fun order n s' g r hrun => ?_,
    fun order vs s' g t h => ?_⟩
  · rw [← root_nodeTree f a] at hrun
    exact exists_rewrites_of_rewriteNode hv n order hstands hrun
  · have hg := h.rewrittenTo hv hstands
    obtain ⟨m, hrun⟩ := h.rewriteNode_eq hv hstands
    obtain ⟨l, hlogged⟩ := (h.logged hv hstands []).rewriteNode_eq hv.logged hstands
    rw [root_nodeTree] at hg hrun hlogged
    refine ⟨⟨max m l, fun n hn => ⟨hrun n (by omega), hlogged n (by omega)⟩⟩,
      (h.visitsOnce hv hstands).nodup, hg.rewritten.wellFormed, hg.nodeTree, hg.rewritten.place,
      fun x hx hxa => hg.rewritten.node hf hx hxa, fun v hmem hr => ?_⟩
    exact ⟨(hg.takenOut v hmem hr).isRoot, (hg.takenOut v hmem hr).nodeTree⟩

/-- A visitor that puts new trees in the place of nodes. -/
def planting (choose : σ → Forest → NodeId → σ × Option (Tree Label)) : Visitor σ := fun s f id =>
  match choose s f id with
  | (s, none) => (s, f, none)
  | (s, some t) => (s, (f.plant t).1, some (f.plant t).2)

theorem buildsFresh_planting (choose : σ → Forest → NodeId → σ × Option (Tree Label)) :
    Visitor.BuildsFresh (planting choose) := by
  refine ⟨fun s f id hf _ => ?_, fun s f id r hf _ hr => ?_⟩
  · rw [planting]
    split
    · exact .refl hf
    · exact (planted_plant hf _).toGrown
  · revert hr
    rw [planting]
    split
    · simp
    · rintro ⟨⟩
      have hplanted := planted_plant hf ‹Tree Label›
      exact ⟨Nat.le_of_eq hplanted.root_eq.symm, hplanted.root_lt, hplanted.isRoot⟩

/-- The texts of the nodes that it has seen, and an empty alternative for every block. -/
def emptyBlocks : Visitor (List String) := planting fun seen f id =>
  (seen ++ [f.text id], if f.kind id = .block then
    some (.node (.ofKind .block) [.node (.ofKind .alt) [.leaf (.ofKind .epsilon)]]) else none)

/-- A rule that refers to another one. -/
def ruleForest : Forest := (empty.plant (.node (.ofKind .rule)
  [.leaf (.make .ruleRef "r"),
    .node (.ofKind .block) [.node (.ofKind .alt) [.leaf (.make .ruleRef "a")]]])).1

theorem rewriteNode_rewrites_blocks :
    (∃ vs g t, Rewrites emptyBlocks .pre [] ruleForest (ruleForest.nodeTree 0) vs
      ["RULE", "r", "BLOCK", "ALT", "EPSILON"] g t ∧ g.WellFormed) ∧
    ∃ vs g t, Rewrites emptyBlocks .post [] ruleForest (ruleForest.nodeTree 0) vs
      ["r", "a", "ALT", "BLOCK", "RULE"] g t ∧ g.WellFormed := by
  have hf : ruleForest.WellFormed := wellFormed_plant_empty _
  have hv : Visitor.BuildsFresh emptyBlocks := buildsFresh_planting _
  obtain ⟨-, hends, hall⟩ := rewriteNode_rewrites hv hf (show 0 < ruleForest.size by decide) []
  constructor
  · obtain ⟨vs, t, h, -⟩ := hends .pre 20 _ _ _ rfl
    exact ⟨vs, _, t, h, (hall _ _ _ _ _ h).2.2.1⟩
  · obtain ⟨vs, t, h, -⟩ := hends .post 20 _ _ _ rfl
    exact ⟨vs, _, t, h, (hall _ _ _ _ _ h).2.2.1⟩

end Forest

end GrammarTrees
