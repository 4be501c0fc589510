import GrammarTrees.Forest.Operation
import GrammarTrees.Proofs.Forest.Gathering

/-! Every run of operations from the empty forest leads through well-formed forests only, and a
refused operation leaves one as well, in which nothing has changed but that the node to be moved has
been detached. -/

namespace GrammarTrees

variable {f : Forest} {parent node index : Nat}

theorem Forest.WellFormed.tryAttach (h : f.WellFormed) (hp : parent < f.size)
    (hn : node < f.size) : (f.tryAttach parent node index).forest.WellFormed := by
  rw [Forest.tryAttach]
  rcases Forest.attach_cases h index hp hn with
    ⟨ha, hi, hok⟩ | ⟨-, he⟩ | ⟨-, he⟩ | ⟨-, he⟩
  · rw [hok]
    exact h.link ha hi
  · rw [he]
    exact h
  · rw [he]
    exact h
  · rw [he]
    exact h

/-- The reasons for which an edit is refused. -/
def EditFault.IsRefusal : EditFault → Prop
  | .stillAttached | .ownDescendant | .indexOutOfBounds _ _ => True
  | .inconsistentLinks | .unfinished => False

theorem Forest.tryAttach_fault (h : f.WellFormed) (hp : parent < f.size) (hn : node < f.size)
    {e : EditFault} (he : (f.tryAttach parent node index).fault = some e) :
    (f.tryAttach parent node index).forest = f ∧ e.IsRefusal := by
  rw [Forest.tryAttach] at he ⊢
  rcases Forest.attach_cases h index hp hn with
    ⟨-, -, ha⟩ | ⟨-, ha⟩ | ⟨-, ha⟩ | ⟨-, ha⟩ <;> rw [ha] at he ⊢
  · simp [Outcome.done] at he
  all_goals
    obtain rfl := Option.some.inj he
    exact ⟨rfl, trivial⟩

namespace Operation

/-- What one operation does to a well-formed forest is well-formed, refused or not. -/
theorem wellFormed_run (h : f.WellFormed) {op : Operation} (hop : op.Fits f) :
    (op.run f).forest.WellFormed := by
  cases op with
  | alloc kind => exact h.alloc _
  | allocText kind text => exact h.alloc _
  | copyNode id => exact h.alloc _
  | copyTree id => exact (Forest.planted_copyTree h id).wellFormed
  | detach id => exact h.detach id
  | attach parent node index =>
    exact h.tryAttach (hop parent (by simp [nodes])) (hop node (by simp [nodes]))
  | insertChild parent index node =>
    refine (h.detach node).tryAttach ?_ ?_ <;> rw [Forest.size_detach]
    · exact hop parent (by simp [nodes])
    · exact hop node (by simp [nodes])
  | pushChild parent node =>
    refine (h.detach node).tryAttach ?_ ?_ <;> rw [Forest.size_detach]
    · exact hop parent (by simp [nodes])
    · exact hop node (by simp [nodes])
  | deleteChild parent child =>
    rw [run, Forest.deleteChild]
    split
    · exact h.detach child
    · exact h
  | setText id text => exact h.relabel id fun l => { l with text }
  | setPosition id position => exact h.relabel id fun l => { l with position }
  | setTokens id tokens => exact h.relabel id fun l => { l with tokens }
  | setRange id range => exact h.relabel id fun l => { l with range := some range }
  | setOwner id owner => exact h.relabel id fun l => { l with owner := some owner }
  | setOwnerBelow id owner => exact (Forest.reowned_setOwnerBelow h id owner).wellFormed

/-- A refused operation stops at the checks of `attach`. -/
theorem forest_of_fault (h : f.WellFormed) {op : Operation} (hop : op.Fits f) {e : EditFault}
    (he : (op.run f).fault = some e) : (op.run f).forest = op.checkedIn f ∧ e.IsRefusal := by
  cases op with
  | attach parent node index =>
    exact Forest.tryAttach_fault h (hop parent (by simp [nodes])) (hop node (by simp [nodes])) he
  | insertChild parent index node =>
    refine Forest.tryAttach_fault (h.detach node) ?_ ?_ he <;> rw [Forest.size_detach]
    · exact hop parent (by simp [nodes])
    · exact hop node (by simp [nodes])
  | pushChild parent node =>
    refine Forest.tryAttach_fault (h.detach node) ?_ ?_ he <;> rw [Forest.size_detach]
    · exact hop parent (by simp [nodes])
    · exact hop node (by simp [nodes])
  | _ => simp [run, Outcome.done] at he

theorem wellFormed_runAll (h : f.WellFormed) {ops : List Operation} (hops : AllFit f ops) :
    (runAll f ops).WellFormed := by
  induction ops generalizing f with
  | nil => exact h
  | cons op ops ih => exact ih (wellFormed_run h hops.1) hops.2

/-- Every run of operations from the empty forest ends in a well-formed forest. An operation that is
refused there leaves a well-formed forest too, the one in which it made its checks. -/
theorem wellFormed_runAll_empty (ops : List Operation) (hops : AllFit .empty ops) :
    (runAll .empty ops).WellFormed ∧
      ∀ op : Operation, op.Fits (runAll .empty ops) →
        ∀ e, (op.run (runAll .empty ops)).fault = some e →
          e.IsRefusal ∧ (op.run (runAll .empty ops)).forest = op.checkedIn (runAll .empty ops) ∧
            (op.run (runAll .empty ops)).forest.WellFormed := by
  have h := wellFormed_runAll Forest.WellFormed.empty hops
  refine ⟨h, fun op hop e he => ?_⟩
  obtain ⟨hforest, hrefusal⟩ := forest_of_fault h hop he
  exact ⟨hrefusal, hforest, wellFormed_run h hop⟩

/-- A rule over a block over an alternative. -/
def chain : List Operation :=
  [.alloc .rule, .alloc .block, .alloc .alt, .pushChild 0 1, .insertChild 1 0 2]

/-- Moving the block of `chain` below its own alternative is refused after it was taken from the
rule. -/
theorem wellFormed_chain_refused :
    (runAll .empty chain).WellFormed ∧
      (run (runAll .empty chain) (.pushChild 2 1)).fault = some .ownDescendant ∧
        (run (runAll .empty chain) (.pushChild 2 1)).forest =
          (runAll .empty chain).detach 1 ∧
            (run (runAll .empty chain) (.pushChild 2 1)).forest.WellFormed := by
  have hops : AllFit .empty chain := by decide +kernel
  have hop : (Operation.pushChild 2 1).Fits (runAll .empty chain) := by decide +kernel
  have he : (run (runAll .empty chain) (.pushChild 2 1)).fault = some .ownDescendant := by
    decide +kernel
  obtain ⟨h, hrefused⟩ := wellFormed_runAll_empty chain hops
  exact ⟨h, he, (hrefused _ hop _ he).2⟩

end Operation

/-! ### Operations on new nodes -/

namespace Forest.Grown

variable {g k : Forest} (hf : f.WellFormed) (hg : f.Grown g)
include hf hg

theorem of_links (hk : k.WellFormed) (hsize : g.size ≤ k.size)
    (hlabel : ∀ x < f.size, k.label x = g.label x)
    (hchildren : ∀ x < f.size, k.children x = g.children x)
    (hparent : ∀ x < f.size, k.parent? x = g.parent? x) : f.Grown k := by
  refine ⟨hk, Nat.le_trans hg.size_le hsize, fun x hx => hf.node_eq hk ?_ ?_ ?_ fun p hp => ?_⟩
  · rw [hlabel x hx, hg.label hx]
  · rw [hchildren x hx, hg.children hx]
  · rw [hparent x hx, hg.parent? hx]
  · rw [hchildren p (hf.lt_size_of_parent hp), hg.children (hf.lt_size_of_parent hp)]

theorem detach (hn : f.size ≤ node) : f.Grown (g.detach node) := by
  have hne : ∀ x < f.size, x ≠ node := fun x hx => Nat.ne_of_lt (Nat.lt_of_lt_of_le hx hn)
  refine hg.of_links hf (hg.wellFormed.detach node) (Nat.le_of_eq (size_detach g node).symm)
    (fun x _ => label_detach ..) (fun x hx => ?_) fun x hx => ?_
  · rw [children_detach hg.wellFormed, List.erase_of_not_mem]
    intro hmem
    rw [hg.children hx] at hmem
    exact hne node (hf.lt_size_of_child hmem) rfl
  · rw [parent?_detach hg.wellFormed, if_neg (hne x hx)]

theorem tryAttach (hp : f.size ≤ parent) (hn : f.size ≤ node) (hplt : parent < g.size)
    (hnlt : node < g.size) : f.Grown (g.tryAttach parent node index).forest := by
  rw [Forest.tryAttach]
  rcases attach_cases hg.wellFormed index hplt hnlt with
    ⟨ha, hi, hok⟩ | ⟨-, he⟩ | ⟨-, he⟩ | ⟨-, he⟩
  · rw [hok]
    refine hg.of_links hf (hg.wellFormed.link ha hi) (Nat.le_of_eq (size_link ..).symm)
      (fun x _ => label_link ..) (fun x hx => ?_) fun x hx => ?_
    · exact (children_link hplt ..).trans (if_neg (by omega))
    · exact (parent?_link hg.wellFormed ha hi x).trans (if_neg (by omega))
  · rwa [he]
  · rwa [he]
  · rwa [he]

end Forest.Grown

namespace Operation

/-- The nodes whose labels or links an operation changes. -/
def changed : Operation → List NodeId
  | copyNode _ | copyTree _ => []
  | op => op.nodes

variable {g : Forest}

theorem grown_run (hf : f.WellFormed) (hg : f.Grown g) {op : Operation} (hop : op.Fits g)
    (hnew : ∀ id ∈ op.changed, f.size ≤ id) : f.Grown (op.run g).forest := by
  cases op with
  | alloc kind => exact hg.trans (.alloc hg.wellFormed _)
  | allocText kind text => exact hg.trans (.alloc hg.wellFormed _)
  | copyNode id => exact hg.trans (.alloc hg.wellFormed _)
  | copyTree id => exact hg.trans (Forest.planted_copyTree hg.wellFormed id).toGrown
  | detach id => exact hg.detach hf (hnew id (by simp [changed, nodes]))
  | attach parent node index =>
    exact hg.tryAttach hf (hnew parent (by simp [changed, nodes]))
      (hnew node (by simp [changed, nodes])) (hop parent (by simp [nodes]))
      (hop node (by simp [nodes]))
  | insertChild parent index node =>
    have hn := hnew node (by simp [changed, nodes])
    refine (hg.detach hf hn).tryAttach hf (hnew parent (by simp [changed, nodes])) hn ?_ ?_ <;>
      rw [Forest.size_detach]
    · exact hop parent (by simp [nodes])
    · exact hop node (by simp [nodes])
  | pushChild parent node =>
    have hn := hnew node (by simp [changed, nodes])
    refine (hg.detach hf hn).tryAttach hf (hnew parent (by simp [changed, nodes])) hn ?_ ?_ <;>
      rw [Forest.size_detach]
    · exact hop parent (by simp [nodes])
    · exact hop node (by simp [nodes])
  | deleteChild parent child =>
    rw [run, Forest.deleteChild]
    split
    · exact hg.detach hf (hnew child (by simp [changed, nodes]))
    · exact hg
  | setText id text =>
    exact hg.relabel (hnew id (by simp [changed, nodes])) fun l => { l with text }
  | setPosition id position =>
    exact hg.relabel (hnew id (by simp [changed, nodes])) fun l => { l with position }
  | setTokens id tokens =>
    exact hg.relabel (hnew id (by simp [changed, nodes])) fun l => { l with tokens }
  | setRange id range =>
    exact hg.relabel (hnew id (by simp [changed, nodes])) fun l => { l with range := some range }
  | setOwner id owner =>
    exact hg.relabel (hnew id (by simp [changed, nodes])) fun l => { l with owner := some owner }
  | setOwnerBelow id owner => exact hg.setOwnerBelow hf (hnew id (by simp [changed, nodes])) owner

theorem grown_runAll (hf : f.WellFormed) (hg : f.Grown g) {ops : List Operation}
    (hops : AllFit g ops) (hnew : ∀ op ∈ ops, ∀ id ∈ op.changed, f.size ≤ id) :
    f.Grown (runAll g ops) := by
  induction ops generalizing g with
  | nil => exact hg
  | cons op ops ih =>
    rw [List.forall_mem_cons] at hnew
    exact ih (grown_run hf hg hops.1 hnew.1) hops.2 hnew.2

end Operation

end GrammarTrees
