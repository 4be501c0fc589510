import GrammarTrees.Integration.Integrate
import GrammarTrees.Proofs.Integration.Carrying

/-! The precedence of rules. The rules of a grammar and of its imports stand in one order, and each
rule that is the first of its name in this order is taken over: from a rule section to the rule
section of the grammar, and from a mode to the first mode of that name. -/

namespace GrammarTrees

namespace Forest

variable (f : Forest)

def sectionRules (x : NodeId) : List NodeId := f.childrenOfKind x .rule

/-- The rules of the tree of `root` and then those of the given sections. -/
def ruleOrder (root : NodeId) (xs : List NodeId) : List NodeId :=
  (f.sections root).flatMap f.sectionRules ++ xs.flatMap f.sectionRules

/-- No rule that comes before `rule` in the order has its name. -/
def isFirst (order : List NodeId) (rule : NodeId) : Bool :=
  (order.takeWhile (· ≠ rule)).all fun q => f.sectionName q ≠ f.sectionName rule

/-- The rules of a section that are the first of their names. -/
def firstRules (order : List NodeId) (x : NodeId) : List NodeId :=
  (f.sectionRules x).filter (f.isFirst order)

end Forest

/-- A mode of a grammar as it is to become: one of its own, or a copy of an imported one, with the
rules it takes over. -/
structure ModePlan where
  mode : NodeId
  copied : Bool
  rules : List NodeId

namespace ModePlan

def name (f : Forest) (p : ModePlan) : String :=
  (((f.children p.mode ++ p.rules).head?).map f.text).getD ""

/-- Gives rules of `mode` to the first mode of its name, or else to a copy at the end, which there
is only if there are such rules. -/
def place (f : Forest) (mode : NodeId) (rules : List NodeId) : List ModePlan → List ModePlan
  | [] => if rules.isEmpty then [] else [⟨mode, true, rules⟩]
  | p :: ps =>
    if p.name f = f.sectionName mode then { p with rules := p.rules ++ rules } :: ps
    else p :: place f mode rules ps

end ModePlan

/-- The modes of the grammar at `root` after the rules of the sections `xs` have been taken over. -/
def Forest.modePlans (f : Forest) (root : NodeId) (order xs : List NodeId) : List ModePlan :=
  (xs.filter (f.kind · = .mode)).foldl (fun ps x => ModePlan.place f x (f.firstRules order x) ps)
    ((f.childrenOfKind root .mode).map fun m => ⟨m, false, []⟩)

/-- In `g`, a mode has become what was planned for it in `f`. -/
inductive ModePlan.Realized (f g : Forest) (grammar : GrammarId) : ModePlan → NodeId → Prop
  | own {mode : NodeId} {rules : List NodeId} :
      g.children mode = f.children mode ++ rules → Realized f g grammar ⟨mode, false, rules⟩ mode
  | copy {mode name copy leaf : NodeId} {rules : List NodeId} :
      f.size ≤ copy → g.label copy = { f.label mode with owner := some grammar } →
      f.child? mode 0 = some name → g.children copy = leaf :: rules →
      g.label leaf = f.label name → g.children leaf = [] → f.size ≤ leaf →
      Realized f g grammar ⟨mode, true, rules⟩ copy

/-! ### Rules that are the first of their names -/

namespace Integration

open Forest

variable {f g : Forest} {order before after rs : List NodeId} {names : List String}

theorem takeWhile_ne_of_nodup {r : NodeId} (h : (before ++ r :: after).Nodup) :
    (before ++ r :: after).takeWhile (· ≠ r) = before := by
  have hr : r ∉ before := by
    intro hmem
    exact (List.nodup_append.mp h).2.2 r hmem r (by simp) rfl
  rw [List.takeWhile_append_of_pos]
  · simp
  · intro q hq
    rw [decide_eq_true_eq]
    rintro rfl
    exact hr hq

theorem isFirst_iff {r : NodeId} (h : order = before ++ r :: after) (hn : order.Nodup) :
    f.isFirst order r = true ↔ ∀ q ∈ before, f.sectionName q ≠ f.sectionName r := by
  rw [isFirst, h, takeWhile_ne_of_nodup (h ▸ hn), List.all_eq_true]
  simp

/-- Of rules that come next in the order, `newRules` finds those that are the first of their
names, if it knows the names of all rules before them. -/
theorem newRules_eq (horder : order = before ++ (rs ++ after)) (hn : order.Nodup)
    (hnames : ∀ n, n ∈ names ↔ ∃ q ∈ before, f.sectionName q = n)
    (hsame : ∀ r ∈ rs, g.sectionName r = f.sectionName r) :
    (newRules g names rs).1 = rs.filter (f.isFirst order) ∧
      ∀ n, n ∈ (newRules g names rs).2 ↔ ∃ q ∈ before ++ rs, f.sectionName q = n := by
  induction rs generalizing before names with
  | nil => exact ⟨rfl, by simpa [newRules] using hnames⟩
  | cons r rs ih =>
    rw [List.forall_mem_cons] at hsame
    have hfirst := isFirst_iff (f := f) (r := r) (by simpa using horder) hn
    have hknown : names.contains (f.sectionName r) = true ↔ ¬ f.isFirst order r = true := by
      rw [List.contains_iff_mem, hnames, hfirst]
      simp
    have hnext : order = (before ++ [r]) ++ (rs ++ after) := by
      simpa using horder
    rw [newRules, hsame.1]
    by_cases hc : names.contains (f.sectionName r) = true
    · have hnames' : ∀ n, n ∈ names ↔ ∃ q ∈ before ++ [r], f.sectionName q = n := by
        intro n
        rw [hnames n]
        constructor
        · rintro ⟨q, hq, hqn⟩
          exact ⟨q, List.mem_append_left _ hq, hqn⟩
        · rintro ⟨q, hq, rfl⟩
          rcases List.mem_append.mp hq with hq | hq
          · exact ⟨q, hq, rfl⟩
          · rw [List.mem_singleton.mp hq]
            exact (hnames _).mp (List.contains_iff_mem.mp hc)
      obtain ⟨h1, h2⟩ := ih hnext hnames' hsame.2
      rw [if_pos hc]
      refine ⟨?_, by simpa using h2⟩
      rw [h1, List.filter_cons_of_neg (hknown.mp hc)]
    · have hnames' : ∀ n, n ∈ names ++ [f.sectionName r] ↔
          ∃ q ∈ before ++ [r], f.sectionName q = n := by
        intro n
        rw [List.mem_append, hnames n, List.mem_singleton]
        constructor
        · rintro (⟨q, hq, hqn⟩ | rfl)
          · exact ⟨q, List.mem_append_left _ hq, hqn⟩
          · exact ⟨r, by simp, rfl⟩
        · rintro ⟨q, hq, rfl⟩
          rcases List.mem_append.mp hq with hq | hq
          · exact .inl ⟨q, hq, rfl⟩
          · exact .inr (by rw [List.mem_singleton.mp hq])
      obtain ⟨h1, h2⟩ := ih hnext hnames' hsame.2
      have hpos : f.isFirst order r = true := by
        by_contra hneg
        exact hc (hknown.mpr hneg)
      rw [if_neg hc]
      refine ⟨?_, by simpa using h2⟩
      rw [List.filter_cons_of_pos hpos, ← h1]

/-! ### Finding the mode that takes in rules -/

section Place

variable {R R' : ModePlan → NodeId → Prop} {plans : List ModePlan} {modes new : List NodeId}
  {mode target : NodeId}

/-- If there is a mode of the name, the first of them takes the rules in. -/
theorem forall₂_place (h : List.Forall₂ R plans modes)
    (hname : ∀ p ∈ plans, ∀ m, R p m → g.sectionName m = p.name f)
    (hfind : modes.find? (fun m => g.sectionName m = f.sectionName mode) = some target)
    (hn : modes.Nodup) (hother : ∀ p m, R p m → m ≠ target → R' p m)
    (htarget : ∀ p, R p target → R' { p with rules := p.rules ++ new } target) :
    List.Forall₂ R' (ModePlan.place f mode new plans) modes := by
  induction h with
  | nil => simp at hfind
  | @cons p m ps ms hpm hrest ih =>
    rw [List.forall_mem_cons] at hname
    obtain ⟨hm, hms⟩ := List.nodup_cons.mp hn
    rw [List.find?_cons, hname.1 m hpm] at hfind
    rw [ModePlan.place]
    by_cases he : p.name f = f.sectionName mode
    · simp only [he, decide_true] at hfind
      obtain rfl := Option.some.inj hfind
      rw [if_pos he]
      refine .cons (htarget p hpm) ?_
      have hne : ∀ x ∈ ms, x ≠ m := by
        rintro x hx rfl
        exact hm hx
      clear ih hn hms hname
      induction hrest with
      | nil => exact .nil
      | @cons q x qs xs hqx _ ih =>
        rw [List.forall_mem_cons] at hne
        exact .cons (hother q x hqx hne.1) (ih (fun hx => hm (List.mem_cons_of_mem x hx)) hne.2)
    · simp only [he, decide_false] at hfind
      rw [if_neg he]
      have hne : m ≠ target := by
        rintro rfl
        exact hm (List.mem_of_find?_eq_some hfind)
      exact .cons (hother p m hpm hne) (ih hname.2 hfind hms)

/-- If there is none, they go to a copy at the end. -/
theorem place_of_find?_eq_none (h : List.Forall₂ R plans modes)
    (hname : ∀ p ∈ plans, ∀ m, R p m → g.sectionName m = p.name f)
    (hfind : modes.find? (fun m => g.sectionName m = f.sectionName mode) = none) :
    ModePlan.place f mode new plans =
      plans ++ if new.isEmpty then [] else [⟨mode, true, new⟩] := by
  induction h with
  | nil => rfl
  | @cons p m ps ms hpm _ ih =>
    rw [List.forall_mem_cons] at hname
    rw [List.find?_cons, hname.1 m hpm] at hfind
    rw [ModePlan.place]
    by_cases he : p.name f = f.sectionName mode
    · simp [he] at hfind
    · simp only [he, decide_false] at hfind
      rw [if_neg he, ih hname.2 hfind, List.cons_append]

end Place

theorem mem_place {mode : NodeId} {new : List NodeId} {plans : List ModePlan} {p : ModePlan}
    (h : p ∈ ModePlan.place f mode new plans) :
    (p.mode = mode ∨ ∃ q ∈ plans, p.mode = q.mode ∧ p.copied = q.copied) ∧
      ∀ r ∈ p.rules, r ∈ new ∨ ∃ q ∈ plans, r ∈ q.rules := by
  induction plans with
  | nil =>
    rw [ModePlan.place] at h
    split at h
    · simp at h
    · obtain rfl := List.mem_singleton.mp h
      exact ⟨.inl rfl, fun r hr => .inl hr⟩
  | cons q qs ih =>
    rw [ModePlan.place] at h
    split at h
    · rcases List.mem_cons.mp h with rfl | h
      · refine ⟨.inr ⟨q, by simp, rfl, rfl⟩, fun r hr => ?_⟩
        rcases List.mem_append.mp hr with hr | hr
        · exact .inr ⟨q, by simp, hr⟩
        · exact .inl hr
      · exact ⟨.inr ⟨p, List.mem_cons_of_mem q h, rfl, rfl⟩,
          fun r hr => .inr ⟨p, List.mem_cons_of_mem q h, hr⟩⟩
    · rcases List.mem_cons.mp h with rfl | h
      · exact ⟨.inr ⟨p, by simp, rfl, rfl⟩, fun r hr => .inr ⟨p, by simp, hr⟩⟩
      · obtain ⟨h1, h2⟩ := ih h
        refine ⟨h1.imp_right fun ⟨x, hx, he⟩ => ⟨x, List.mem_cons_of_mem q hx, he⟩,
          fun r hr => (h2 r hr).imp_right fun ⟨x, hx, he⟩ => ⟨x, List.mem_cons_of_mem q hx, he⟩⟩

theorem exists_mem_place {mode r : NodeId} {new : List NodeId} {plans : List ModePlan}
    (h : r ∈ new ∨ ∃ q ∈ plans, r ∈ q.rules) :
    ∃ p ∈ ModePlan.place f mode new plans, r ∈ p.rules := by
  induction plans with
  | nil =>
    have hr : r ∈ new := by simpa using h
    rw [ModePlan.place, if_neg (by simpa using List.ne_nil_of_mem hr)]
    exact ⟨_, List.mem_singleton_self _, hr⟩
  | cons q qs ih =>
    rw [ModePlan.place]
    split
    · rcases h with h | ⟨p, hp, hr⟩
      · exact ⟨_, List.mem_cons_self, List.mem_append_right _ h⟩
      · rcases List.mem_cons.mp hp with rfl | hp
        · exact ⟨_, List.mem_cons_self, List.mem_append_left _ hr⟩
        · exact ⟨p, List.mem_cons_of_mem _ hp, hr⟩
    · rcases h with h | ⟨p, hp, hr⟩
      · obtain ⟨x, hx, hrx⟩ := ih (.inl h)
        exact ⟨x, List.mem_cons_of_mem _ hx, hrx⟩
      · rcases List.mem_cons.mp hp with rfl | hp
        · exact ⟨p, List.mem_cons_self, hr⟩
        · obtain ⟨x, hx, hrx⟩ := ih (.inr ⟨p, hp, hr⟩)
          exact ⟨x, List.mem_cons_of_mem _ hx, hrx⟩

end Integration

end GrammarTrees
