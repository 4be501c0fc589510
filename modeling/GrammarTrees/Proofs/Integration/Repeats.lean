import GrammarTrees.Proofs.Integration.ActionMerging

/-! Repeated definitions of named actions: which of them merging reports. A definition is reported
if the first one of its scope and name has the same owner, and it has not been reported before. -/

namespace GrammarTrees.Integration

open Forest

variable {f g : Forest} {scope : String} {root t a b id : Nat} {m : ActionMerge}
  {ps roots seen : List NodeId} {key : String × String} {fileOf : Option GrammarId → String}

/-! ### One merge -/

/-- An earlier one of the nodes has the scope, the name and the owner of this one. -/
def IsLate (f : Forest) (scope : String) (ps : List NodeId) (id : NodeId) : Prop :=
  ∃ first ∈ ((actionKey? f scope id).bind fun key => (definitions f scope key ps).head?),
    first ≠ id ∧ f.owner first = f.owner id

instance (f : Forest) (scope : String) (ps : List NodeId) (id : NodeId) :
    Decidable (IsLate f scope ps id) :=
  inferInstanceAs (Decidable (∃ first ∈ _, _))

theorem isLate_iff (hid : actionKey? f scope id = some key) :
    IsLate f scope ps id ↔ ∃ first, (definitions f scope key ps).head? = some first ∧
      first ≠ id ∧ f.owner first = f.owner id := by
  simp only [IsLate, hid, Option.bind_some, Option.mem_def]

theorem not_isLate_of_none (hid : actionKey? f scope id = none) : ¬ IsLate f scope ps id := by
  simp [IsLate, hid]

def lateDefinitions (f : Forest) (scope : String) (ps : List NodeId) : List NodeId :=
  ps.filter fun id => IsLate f scope ps id

/-- Later nodes make no difference to earlier ones. -/
theorem lateDefinitions_concat (f : Forest) (scope : String) (ps : List NodeId) (id : NodeId) :
    lateDefinitions f scope (ps ++ [id]) =
      lateDefinitions f scope ps ++ if IsLate f scope (ps ++ [id]) id then [id] else [] := by
  rw [lateDefinitions, List.filter_append, List.filter_singleton, lateDefinitions]
  congr 1
  · refine List.filter_congr fun x hx => ?_
    rw [decide_eq_decide]
    cases hkey : actionKey? f scope x with
    | none => exact iff_of_false (not_isLate_of_none hkey) (not_isLate_of_none hkey)
    | some key =>
      have hmem : x ∈ definitions f scope key ps := List.mem_filter.mpr ⟨hx, by simp [hkey]⟩
      obtain ⟨d, ds, hd⟩ := List.exists_cons_of_ne_nil (List.ne_nil_of_mem hmem)
      have happend : definitions f scope key (ps ++ [id]) =
          definitions f scope key ps ++ definitions f scope key [id] := List.filter_append ..
      rw [isLate_iff hkey, isLate_iff hkey, happend, hd]
      simp
  · by_cases hlate : IsLate f scope (ps ++ [id]) id <;> simp [hlate]

/-- What merging the nodes `ps` has reported, beyond the nodes `seen` that were reported before. -/
structure Reported (f : Forest) (scope : String) (fileOf : Option GrammarId → String)
    (seen ps : List NodeId) (m : ActionMerge) : Prop where
  repeated : m.repeated = seen ++ (lateDefinitions f scope ps).filter (· ∉ seen)
  report : m.report =
    ((lateDefinitions f scope ps).filter (· ∉ seen)).map (redefinitionOf f fileOf)

namespace Reported

theorem start (f : Forest) (scope : String) (fileOf : Option GrammarId → String)
    (seen : List NodeId) : Reported f scope fileOf seen [] ⟨f, .empty, seen, []⟩ :=
  ⟨(List.append_nil seen).symm, rfl⟩

variable (hm : Reported f scope fileOf seen ps m)
include hm

theorem skip (hnot : ¬ IsLate f scope (ps ++ [id]) id ∨ id ∈ seen) {m' : ActionMerge}
    (hrepeated : m'.repeated = m.repeated) (hreport : m'.report = m.report) :
    Reported f scope fileOf seen (ps ++ [id]) m' := by
  have hsame : (lateDefinitions f scope (ps ++ [id])).filter (· ∉ seen) =
      (lateDefinitions f scope ps).filter (· ∉ seen) := by
    rw [lateDefinitions_concat, List.filter_append]
    rcases hnot with hnot | hseen
    · simp [hnot]
    · split <;> simp [hseen]
  exact ⟨by rw [hrepeated, hm.repeated, hsame], by rw [hreport, hm.report, hsame]⟩

/-- A node is not reported before it is merged, unless it was among those seen. -/
theorem contains_iff (hid : id ∉ ps) : m.repeated.contains id = true ↔ id ∈ seen := by
  rw [List.contains_iff_mem, hm.repeated, List.mem_append]
  refine or_iff_left fun hmem => hid ?_
  exact List.mem_of_mem_filter (List.mem_of_mem_filter hmem)

theorem tell (hlate : IsLate f scope (ps ++ [id]) id) (hseen : id ∉ seen) {m' : ActionMerge}
    (hrepeated : m'.repeated = m.repeated ++ [id])
    (hreport : m'.report = m.report ++ [redefinitionOf f fileOf id]) :
    Reported f scope fileOf seen (ps ++ [id]) m' := by
  have hmore : (lateDefinitions f scope (ps ++ [id])).filter (· ∉ seen) =
      (lateDefinitions f scope ps).filter (· ∉ seen) ++ [id] := by
    rw [lateDefinitions_concat, List.filter_append, if_pos hlate]
    simp [hseen]
  refine ⟨?_, ?_⟩
  · rw [hrepeated, hm.repeated, hmore, List.append_assoc]
  · rw [hreport, hm.report, hmore, List.map_append]
    rfl

theorem add (hf : f.WellFormed) (hc : Combined f scope ps m) (hid : id ∉ ps) :
    Reported f scope fileOf seen (ps ++ [id]) (m.add scope fileOf id) := by
  have hlate : ∀ key first, actionKey? f scope id = some key → m.named.get? key = some first →
      (IsLate f scope (ps ++ [id]) id ↔ f.owner first = f.owner id) := by
    intro key first hkey hfirst
    obtain ⟨hmem, -⟩ := hc.mem_of_get? hfirst
    have hne : first ≠ id := fun he => hid (he ▸ hmem)
    rw [hc.named] at hfirst
    rw [isLate_iff hkey, definitions_concat hkey, List.head?_append, hfirst]
    simp [hne]
  generalize hm' : m.add scope fileOf id = m'
  have hadded := hm' ▸ hc.added hf fileOf id
  cases hadded with
  | unnamed hkey => exact hm.skip (.inl (not_isLate_of_none hkey)) rfl rfl
  | first hkey hnone =>
    refine hm.skip (.inl ?_) rfl rfl
    rw [hc.named, List.head?_eq_none_iff] at hnone
    rw [isLate_iff hkey, definitions_concat hkey, hnone]
    simp
  | seen hkey hfirst howner hcontains =>
    exact hm.skip (.inr ((hm.contains_iff hid).mp hcontains)) rfl rfl
  | again hkey hfirst howner hcontains =>
    exact hm.tell ((hlate _ _ hkey hfirst).mpr howner) ((hm.contains_iff hid).not.mp hcontains)
      rfl rfl
  | joined hkey hfirst howner hkept =>
    exact hm.skip (.inl ((hlate _ _ hkey hfirst).not.mpr howner)) rfl rfl

end Reported

theorem Reported.addAll (hf : f.WellFormed) (hm : Reported f scope fileOf seen ps m)
    (hc : Combined f scope ps m) (ids : List NodeId)
    (hnodup : (ps ++ ids).Nodup) :
    Reported f scope fileOf seen (ps ++ ids) (ids.foldl (ActionMerge.add scope fileOf) m) := by
  induction ids generalizing ps m with
  | nil => rwa [List.append_nil]
  | cons id ids ih =>
    have hid : id ∉ ps := fun hmem =>
      (List.nodup_append.mp hnodup).2.2 id hmem id List.mem_cons_self rfl
    have hassoc : ps ++ id :: ids = ps ++ [id] ++ ids := by simp
    rw [hassoc] at hnodup ⊢
    exact ih (hm.add hf hc hid) (hc.add hf fileOf id) hnodup

/-! ### Definers -/

/-- All definitions of an action in the trees of `roots`, in order. -/
def definers (f : Forest) (scope : String) (key : String × String) (roots : List NodeId) :
    List NodeId :=
  roots.flatMap fun t => definitions f scope key (f.childrenOfKind t .namedAction)

theorem mem_definitions (hf : f.WellFormed) :
    a ∈ definitions f scope key (f.childrenOfKind t .namedAction) ↔
      f.parent? a = some t ∧ f.kind a = .namedAction ∧ actionKey? f scope a = some key := by
  rw [definitions, List.mem_filter, mem_childrenOfKind hf, decide_eq_true_eq, and_assoc]

theorem mem_definers (hf : f.WellFormed) (ha : a ∈ definers f scope key roots) :
    ∃ t ∈ roots, f.parent? a = some t ∧ f.kind a = .namedAction ∧
      actionKey? f scope a = some key := by
  obtain ⟨t, ht, hat⟩ := List.mem_flatMap.mp ha
  exact ⟨t, ht, (mem_definitions hf).mp hat⟩

theorem definers_append (f : Forest) (scope : String) (key : String × String)
    (roots others : List NodeId) : definers f scope key (roots ++ others) =
      definers f scope key roots ++ definers f scope key others := List.flatMap_append ..

theorem definers_concat (f : Forest) (scope : String) (key : String × String)
    (roots : List NodeId) (t : NodeId) : definers f scope key (roots ++ [t]) =
      definers f scope key roots ++ definitions f scope key (f.childrenOfKind t .namedAction) := by
  rw [definers_append, definers, definers, List.flatMap_singleton]

/-! ### Repeated definitions in one tree -/

/-- The named actions of a tree that have an earlier one with their scope and name beside them. -/
def repeatedActions (f : Forest) (scope : String) (t : NodeId) : List NodeId :=
  (f.childrenOfKind t .namedAction).filter fun a => actionKey? f scope a ≠ none ∧
    ∃ b ∈ f.childrenOfKind t .namedAction, f.childIndex b < f.childIndex a ∧
      actionKey? f scope b = actionKey? f scope a

/-- A definition repeats another one of its tree unless it is the first of its scope and name. -/
theorem mem_repeatedActions (hf : f.WellFormed)
    (ha : a ∈ definitions f scope key (f.childrenOfKind t .namedAction)) :
    a ∈ repeatedActions f scope t ↔
      (definitions f scope key (f.childrenOfKind t .namedAction)).head? ≠ some a := by
  obtain ⟨hmem, hkey⟩ := List.mem_filter.mp ha
  rw [decide_eq_true_eq] at hkey
  have hsorted : (definitions f scope key (f.childrenOfKind t .namedAction)).Pairwise
      fun a b => f.childIndex a < f.childIndex b :=
    ((hf.pairwise_childIndex t).filter _).filter _
  obtain ⟨d, ds, hd⟩ := List.exists_cons_of_ne_nil (List.ne_nil_of_mem ha)
  rw [hd, List.pairwise_cons] at hsorted
  have hhead : (definitions f scope key (f.childrenOfKind t .namedAction)).head? ≠ some a ↔
      d ≠ a := by
    rw [hd, List.head?_cons, Ne, Option.some.injEq]
  rw [hhead, repeatedActions, List.mem_filter, decide_eq_true_eq, hkey]
  constructor
  · rintro ⟨-, -, b, hb, hlt, hbkey⟩ rfl
    have hbmem : b ∈ definitions f scope key (f.childrenOfKind t .namedAction) :=
      List.mem_filter.mpr ⟨hb, decide_eq_true hbkey⟩
    rw [hd] at hbmem
    rcases List.mem_cons.mp hbmem with rfl | hbmem
    · exact Nat.lt_irrefl _ hlt
    · exact Nat.lt_asymm hlt (hsorted.1 b hbmem)
  · intro hne
    have hdmem : d ∈ definitions f scope key (f.childrenOfKind t .namedAction) :=
      hd ▸ List.mem_cons_self
    obtain ⟨hdmem, hdkey⟩ := List.mem_filter.mp hdmem
    refine ⟨hmem, by simp, d, hdmem, hsorted.1 a ?_, of_decide_eq_true hdkey⟩
    rw [hd] at ha
    exact (List.mem_cons.mp ha).resolve_left (Ne.symm hne)

/-- The repeated definitions of a tree whose scope and name no tree of `before` defines. -/
def newRepeats (f : Forest) (scope : String) (before : List NodeId) (t : NodeId) : List NodeId :=
  (repeatedActions f scope t).filter fun a =>
    (actionKey? f scope a).all fun key => (definers f scope key before).isEmpty

/-- The repeated definitions of all trees whose scope and name no tree before theirs defines. -/
def firstRepeats (f : Forest) (scope : String) : (before : List NodeId) → List NodeId → List NodeId
  | _, [] => []
  | before, t :: ts => newRepeats f scope before t ++ firstRepeats f scope (before ++ [t]) ts

theorem firstRepeats_append (f : Forest) (scope : String) (before ts us : List NodeId) :
    firstRepeats f scope before (ts ++ us) =
      firstRepeats f scope before ts ++ firstRepeats f scope (before ++ ts) us := by
  induction ts generalizing before with
  | nil => simp [firstRepeats]
  | cons t ts ih =>
    rw [List.cons_append, firstRepeats, ih, firstRepeats, List.append_assoc, List.append_assoc]
    rfl

theorem newRepeats_nil (f : Forest) (scope : String) (t : NodeId) :
    newRepeats f scope [] t = repeatedActions f scope t := by
  rw [newRepeats, List.filter_eq_self]
  intro a _
  cases actionKey? f scope a <;> rfl

theorem mem_newRepeats (hkey : actionKey? f scope a = some key) :
    a ∈ newRepeats f scope roots t ↔
      a ∈ repeatedActions f scope t ∧ definers f scope key roots = [] := by
  rw [newRepeats, List.mem_filter, hkey, Option.all_some, List.isEmpty_iff]

theorem parent?_of_mem_repeatedActions (hf : f.WellFormed) (ha : a ∈ repeatedActions f scope t) :
    f.parent? a = some t :=
  ((mem_childrenOfKind hf).mp (List.mem_of_mem_filter ha)).1

theorem firstRepeats_sublist (f : Forest) (scope : String) (before ts : List NodeId) :
    (firstRepeats f scope before ts).Sublist (ts.flatMap (repeatedActions f scope)) := by
  induction ts generalizing before with
  | nil => exact .slnil
  | cons t ts ih =>
    rw [firstRepeats, List.flatMap_cons]
    exact List.filter_sublist.append (ih _)

end GrammarTrees.Integration
