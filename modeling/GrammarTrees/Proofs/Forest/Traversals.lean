import GrammarTrees.Proofs.Forest.Rewriting

/-! Three ways through a subtree: a loop with a stack, a recursion that appends to a list, and a
rewrite whose visitor puts nothing in the place of a node. The first lists every node once, before
those below it, and the second lists the same nodes, each after those below it. The rewrite visits
the nodes in one of these two orders. -/

namespace GrammarTrees

namespace Forest

variable {f g : Forest} {a r : Nat} {stack out out' ids : List NodeId}

/-! ### The loop with a stack -/

/-- The node at the end of the stack is taken off and listed, and its children go on the stack, the
last one first. The loop ends at the empty stack and has listed `out` then. -/
inductive Unstacks (f : Forest) : (stack out : List NodeId) → Prop
  | done : Unstacks f [] []
  | pop {stack out : List NodeId} {id : NodeId} (hlast : stack.getLast? = some id)
    (hrest : Unstacks f (stack.dropLast ++ (f.children id).reverse) out) :
    Unstacks f stack (id :: out)

theorem Unstacks.unique (h : f.Unstacks stack out) (h' : f.Unstacks stack out') : out' = out := by
  induction h generalizing out' with
  | done =>
    cases h' with
    | done => rfl
    | pop hlast _ => simp at hlast
  | pop hlast _ ih =>
    cases h' with
    | done => simp at hlast
    | pop hlast' hrest' =>
      obtain rfl := Option.some.inj (hlast.symm.trans hlast')
      rw [ih hrest']

/-- Trees on the stack are listed from the last one down, each as a whole before the next. -/
theorem Unstacks.append_reverse {cs : List NodeId} (h : f.Unstacks stack out)
    (hcs : ∀ c ∈ cs, ∀ {stack out}, f.Unstacks stack out →
      f.Unstacks (stack ++ [c]) (f.preorder c ++ out)) :
    f.Unstacks (stack ++ cs.reverse) (cs.flatMap f.preorder ++ out) := by
  induction cs with
  | nil => simpa using h
  | cons c cs ih =>
    rw [List.forall_mem_cons] at hcs
    rw [List.reverse_cons, List.flatMap_cons, List.append_assoc (f.preorder c),
      ← List.append_assoc stack]
    exact hcs.1 (ih hcs.2)

theorem Unstacks.concat (hf : f.WellFormed) (ha : a < f.size) (h : f.Unstacks stack out) :
    f.Unstacks (stack ++ [a]) (f.preorder a ++ out) := by
  -- Whatever is on the stack below `a` has to wait until the whole tree of `a` is listed, so the
  -- statement is carried down the tree for any such stack.
  refine hf.induction_down (P := fun a => ∀ {stack out}, f.Unstacks stack out →
    f.Unstacks (stack ++ [a]) (f.preorder a ++ out)) (fun a ha ih {stack out} h => ?_) ha h
  rw [preorder_eq_cons hf ha, List.cons_append]
  refine .pop List.getLast?_concat ?_
  rw [List.dropLast_concat]
  exact h.append_reverse ih

/-- The loop ends, and has listed the nodes in preorder. -/
theorem unstacks_iff (hf : f.WellFormed) (ha : a < f.size) :
    f.Unstacks [a] out ↔ out = f.preorder a := by
  have hwalk : f.Unstacks [a] (f.preorder a) := by
    simpa using Unstacks.concat hf ha .done
  constructor
  · exact hwalk.unique
  · rintro rfl
    exact hwalk

/-! ### The recursion that appends -/

mutual

/-- The nodes below `id` are appended to `out`, one child after the other, and then `id` is. -/
inductive Appends (f : Forest) : (id : NodeId) → (out out' : List NodeId) → Prop
  | node {id : NodeId} {out out' : List NodeId} (hbelow : AppendsAll f (f.children id) out out') :
    Appends f id out (out' ++ [id])

inductive AppendsAll (f : Forest) : (ids out out' : List NodeId) → Prop
  | nil {out : List NodeId} : AppendsAll f [] out out
  | cons {id : NodeId} {ids out mid out' : List NodeId} (hfirst : Appends f id out mid)
    (hrest : AppendsAll f ids mid out') : AppendsAll f (id :: ids) out out'

end

theorem appendsAll_iff {walk : NodeId → List NodeId}
    (hids : ∀ id ∈ ids, ∀ {out out'}, f.Appends id out out' ↔ out' = out ++ walk id) :
    f.AppendsAll ids out out' ↔ out' = out ++ ids.flatMap walk := by
  induction ids generalizing out with
  | nil =>
    rw [List.flatMap_nil, List.append_nil]
    constructor
    · rintro ⟨⟩
      rfl
    · rintro rfl
      exact .nil
  | cons id ids ih =>
    rw [List.forall_mem_cons] at hids
    rw [List.flatMap_cons, ← List.append_assoc, ← ih hids.2]
    constructor
    · rintro ⟨⟩
      rename_i mid hfirst hrest
      rwa [hids.1.mp hfirst] at hrest
    · exact .cons (hids.1.mpr rfl)

/-- The recursion ends, and has appended the nodes in postorder. -/
theorem appends_iff (hf : f.WellFormed) (ha : a < f.size) :
    f.Appends a out out' ↔ out' = out ++ f.postorder a := by
  refine hf.induction_down (P := fun a => ∀ {out out'}, f.Appends a out out' ↔
    out' = out ++ f.postorder a) (fun a ha ih {out out'} => ?_) ha
  rw [postorder_eq_concat hf ha, ← List.append_assoc]
  constructor
  · rintro ⟨hbelow⟩
    rw [(appendsAll_iff ih).mp hbelow]
  · rintro rfl
    exact .node ((appendsAll_iff ih).mpr rfl)

/-! ### Rewriting without replacing -/

section Rewriting

variable {σ : Type} {visitor : Visitor σ} {s s' : σ}

mutual

/-- A walk that replaces nothing does nothing but visit nodes, even if the visits change the child
lists under way. -/
theorem exists_visitedAll_of_rewriteNode (hstays : ∀ s f id, (visitor s f id).2.2 = none) :
    (n : Nat) → (order : VisitOrder) → {s s' : σ} → {f g : Forest} → {a r : NodeId} →
    rewriteNode order visitor n s f a = .ok (s', g, r) →
      r = a ∧ ∃ ids, visitedAll visitor (s, f) ids = (s', g)
  | 0, _, _, _, _, _, _, _, hrun => by cases hrun
  | n + 1, .pre, s, _, f, _, a, _, hrun => by
    rw [rewriteNode] at hrun
    simp only [visitOne_of_stays hstays (s, f) a, bind, Except.bind] at hrun
    rcases hbelow : rewriteChildren .pre visitor n (visited visitor (s, f) a).1
      (visited visitor (s, f) a).2 a 0 with e | ⟨s₁, f₁⟩ <;> rw [hbelow] at hrun <;> cases hrun
    obtain ⟨ids, hids⟩ := exists_visitedAll_of_rewriteChildren hstays n .pre hbelow
    exact ⟨rfl, a :: ids, hids⟩
  | n + 1, .post, s, _, f, _, a, _, hrun => by
    rw [rewriteNode] at hrun
    simp only [bind, Except.bind] at hrun
    rcases hbelow : rewriteChildren .post visitor n s f a 0 with e | ⟨s₁, f₁⟩ <;>
      rw [hbelow] at hrun
    · cases hrun
    obtain ⟨ids, hids⟩ := exists_visitedAll_of_rewriteChildren hstays n .post hbelow
    cases (visitOne_of_stays hstays (s₁, f₁) a).symm.trans hrun
    refine ⟨rfl, ids ++ [a], ?_⟩
    rw [visitedAll_append, hids]
    rfl

theorem exists_visitedAll_of_rewriteChildren (hstays : ∀ s f id, (visitor s f id).2.2 = none) :
    (n : Nat) → (order : VisitOrder) → {s s' : σ} → {f g : Forest} → {p : NodeId} →
    {index : Nat} → rewriteChildren order visitor n s f p index = .ok (s', g) →
      ∃ ids, visitedAll visitor (s, f) ids = (s', g)
  | 0, _, _, _, _, _, _, _, hrun => by cases hrun
  | n + 1, order, s, _, f, _, p, index, hrun => by
    rw [rewriteChildren] at hrun
    split at hrun
    · cases hrun
      exact ⟨[], rfl⟩
    · rename_i child _
      simp only [bind, Except.bind] at hrun
      rcases hfirst : rewriteNode order visitor n s f child with e | ⟨s₁, f₁, r⟩ <;>
        rw [hfirst] at hrun
      · cases hrun
      obtain ⟨-, ids, hids⟩ := exists_visitedAll_of_rewriteNode hstays n order hfirst
      obtain ⟨later, hlater⟩ := exists_visitedAll_of_rewriteChildren hstays n order hrun
      exact ⟨ids ++ later, by rw [visitedAll_append, hids, hlater]⟩

end

/-- The log lists the visited nodes and changes nothing else. -/
theorem visitedAll_logged (visitor : Visitor σ) (s : σ) (log : List Visit) (f : Forest)
    (ids : List NodeId) :
    ∃ vs, visitedAll (Visitor.logged visitor) ((s, log), f) ids =
        (((visitedAll visitor (s, f) ids).1, log ++ vs), (visitedAll visitor (s, f) ids).2) ∧
      vs.map Visit.node = ids := by
  induction ids generalizing s log f with
  | nil => exact ⟨[], by simp [visitedAll], rfl⟩
  | cons id ids ih =>
    obtain ⟨vs, hvs, hids⟩ := ih (visitor s f id).1
      (log ++ [⟨f.nodeTree id, (visitor s f id).2.2.isSome⟩]) (visitor s f id).2.1
    refine ⟨⟨f.nodeTree id, (visitor s f id).2.2.isSome⟩ :: vs, ?_, ?_⟩
    · rw [List.append_cons]
      exact hvs
    · rw [List.map_cons, hids, Visit.node, root_nodeTree]

/-- The log of a walk that replaces nothing names the nodes that it has visited. -/
theorem visitedAll_of_rewriteNode_logged (hstays : ∀ s f id, (visitor s f id).2.2 = none)
    {order : VisitOrder} {n : Nat} {vs : List Visit}
    (hrun : rewriteNode order (Visitor.logged visitor) n (s, []) f a = .ok ((s', vs), g, r)) :
    r = a ∧ visitedAll visitor (s, f) (vs.map Visit.node) = (s', g) := by
  have hlogged : ∀ s f id, (Visitor.logged visitor s f id).2.2 = none := fun s => hstays s.1
  obtain ⟨rfl, ids, hids⟩ := exists_visitedAll_of_rewriteNode hlogged n order hrun
  obtain ⟨ws, hws, hnodes⟩ := visitedAll_logged visitor s [] f ids
  rw [hws, List.nil_append] at hids
  cases hids
  exact ⟨rfl, by rw [hnodes]⟩

theorem snd_visitedAll (hlooks : ∀ s f id, (visitor s f id).2.1 = f) (s : σ × Forest)
    (ids : List NodeId) : (visitedAll visitor s ids).2 = s.2 := by
  unfold visitedAll
  induction ids generalizing s with
  | nil => rfl
  | cons id ids ih => rw [List.foldl_cons, ih, visited, hlooks]

namespace Stationary

variable (hv : Stationary visitor)
include hv

theorem logged : Stationary (Visitor.logged visitor) :=
  ⟨fun s => hv.stays s.1, fun s => hv.children s.1⟩

/-- The number of nodes bounds the nested steps that the walk takes. -/
theorem rewriteNode_eq (hf : f.WellFormed) (ha : a < f.size) (order : VisitOrder) (s : σ) {n : Nat}
    (hn : 2 * f.size ≤ n) :
    rewriteNode order visitor n s f a =
      .ok ((visitedAll visitor (s, f) (f.inOrder order a)).1,
        (visitedAll visitor (s, f) (f.inOrder order a)).2, a) := by
  refine hv.walksInOrder hf order ha n (s, f) (fun _ => rfl) (Nat.le_trans ?_ hn)
  rw [length_inOrder hf order ha, preorder_eq hf ha]
  exact Nat.mul_le_mul_left 2 (length_preorder_tree_le hf ha)

end Stationary

end Rewriting

/-! ### The three ways -/

/-- The loop with a stack ends and lists the nodes in preorder: a node, then the lists of its
children in order. Each node of the subtree is listed once. The recursion that appends ends and
lists a permutation of them. A rewrite whose visitor never names a node to put in the place of
another does no more than its visits do, and gives the root that it was given. If the visits leave
the child lists alone, they are to the nodes in preorder or in postorder, and a visitor that only
looks finds the forest unchanged in the end. -/
theorem traversals_agree (hf : f.WellFormed) (ha : a < f.size) :
    (∀ out, f.Unstacks [a] out ↔ out = f.preorder a) ∧
    f.preorder a = a :: (f.children a).flatMap f.preorder ∧
    (f.preorder a).Nodup ∧ (∀ x, x ∈ f.preorder a ↔ f.Within x a) ∧
    (∀ out out', f.Appends a out out' ↔ out' = out ++ f.postorder a) ∧
    (f.postorder a).Perm (f.preorder a) ∧
    ∀ (σ : Type) (visitor : Visitor σ) (order : VisitOrder) (s : σ),
      (∀ t k id, (visitor t k id).2.2 = none) →
      (∀ n s' vs g r,
        rewriteNode order (Visitor.logged visitor) n (s, []) f a = .ok ((s', vs), g, r) →
          r = a ∧ visitedAll visitor (s, f) (vs.map Visit.node) = (s', g)) ∧
      ((∀ t k id x, (visitor t k id).2.1.children x = k.children x) →
        ∀ n ≥ 2 * f.size, ∃ s' vs g,
          rewriteNode order visitor n s f a = .ok (s', g, a) ∧
          rewriteNode order (Visitor.logged visitor) n (s, []) f a = .ok ((s', vs), g, a) ∧
          vs.map Visit.node = f.inOrder order a ∧
          ((∀ t k id, (visitor t k id).2.1 = k) → g = f)) := by
  refine ⟨fun out => unstacks_iff hf ha, preorder_eq_cons hf ha, nodup_preorder hf ha,
    fun x => mem_preorder hf ha, fun out out' => appends_iff hf ha, postorder_perm_preorder hf ha,
    fun σ visitor order s hstays => ⟨fun n s' vs g r hrun => ?_, fun hchildren n hn => ?_⟩⟩
  · exact visitedAll_of_rewriteNode_logged hstays hrun
  · have hv : Stationary visitor := ⟨hstays, hchildren⟩
    obtain ⟨vs, hvs, hnodes⟩ := visitedAll_logged visitor s [] f (f.inOrder order a)
    have hlogged := hv.logged.rewriteNode_eq hf ha order (s, []) hn
    rw [hvs] at hlogged
    exact ⟨_, vs, _, hv.rewriteNode_eq hf ha order s hn, hlogged, hnodes,
      fun hlooks => snd_visitedAll hlooks (s, f) _⟩

/-- A rule whose alternative has a block and a name. -/
def namedRule : Forest := (empty.plant (.node (.ofKind .rule)
  [.leaf (.make .ruleRef "r"),
    .node (.make .alt "x") [.node (.make .block "y") [.leaf (.make .id "a")],
      .leaf (.make .id "b")]])).1

/-- The texts of the nodes that it has seen. -/
def readTexts : Visitor (List String) := fun seen f id => (seen ++ [f.text id], f, none)

/-- The alternative is walked through inside the rule. -/
theorem traversals_agree_alternative :
    namedRule.Unstacks [2] [2, 3, 4, 5] ∧ namedRule.Appends 2 [1] [1, 4, 3, 5, 2] ∧
    rewriteNode .pre readTexts 12 [] namedRule 2 = .ok (["x", "y", "a", "b"], namedRule, 2) ∧
    rewriteNode .post readTexts 12 [] namedRule 2 = .ok (["a", "y", "b", "x"], namedRule, 2) := by
  have hf : namedRule.WellFormed := wellFormed_plant_empty _
  obtain ⟨hloop, -, -, -, hrecursion, -, hrewrite⟩ :=
    traversals_agree hf (show 2 < namedRule.size by decide)
  have hrun : ∀ order texts, (visitedAll readTexts ([], namedRule) (namedRule.inOrder order 2)).1 =
      texts → rewriteNode order readTexts 12 [] namedRule 2 = .ok (texts, namedRule, 2) := by
    rintro order texts rfl
    obtain ⟨hleaves, hwalks⟩ := hrewrite _ readTexts order [] fun _ _ _ => rfl
    obtain ⟨s', vs, g, hplain, hlogged, hnodes, hsame⟩ :=
      hwalks (fun _ _ _ _ => rfl) 12 (by decide)
    obtain rfl := hsame fun _ _ _ => rfl
    obtain ⟨-, hleft⟩ := hleaves 12 s' vs _ 2 hlogged
    rw [← hnodes, hleft]
    exact hplain
  exact ⟨(hloop _).mpr (by decide), (hrecursion _ _).mpr (by decide), hrun .pre _ (by decide),
    hrun .post _ (by decide)⟩

end Forest

end GrammarTrees
