import GrammarTrees.Proofs.Grammar.Literals

/-! Names for the rules of string literals, one call after the other. A call counts up until it
comes to a name that is not taken, and the next call goes on where it stopped. So each name is the
first free one, and no name is given twice, whatever is taken in between. -/

namespace GrammarTrees.Grammar

variable {g h : Grammar} {taken : List String} {takens : List (List String)} {name : String}

/-! ### One call -/

/-- The grammar after one number more. -/
def counted (g : Grammar) : Grammar := { g with literalCount := g.literalCount + 1 }

/-- The rounds of the search for a name: each takes the next number and counts on, before it is
known whether the name is taken. The counter has 32 bits, and where it is full there is no further
round. -/
inductive Searches (taken : List String) : (g h : Grammar) → (name : String) → Prop
  | found {g : Grammar} (hcount : g.literalCount + 1 < UInt32.size)
      (hfree : literalRuleName g.literalCount ∉ taken) :
      Searches taken g g.counted (literalRuleName g.literalCount)
  | passed {g h : Grammar} {name : String} (hcount : g.literalCount + 1 < UInt32.size)
      (htaken : literalRuleName g.literalCount ∈ taken) (hrest : Searches taken g.counted h name) :
      Searches taken g h name

/-- `name` has the least free number from the counter of `g` on, and `h` is `g` that has counted
past it. -/
def Names (taken : List String) (g h : Grammar) (name : String) : Prop :=
  ∃ m, IsLeast {n | g.literalCount ≤ n ∧ literalRuleName n ∉ taken} m ∧
    name = literalRuleName m ∧ h = { g with literalCount := m + 1 }

theorem names_nextLiteralRule (g : Grammar) (taken : List String) :
    Names taken g (g.nextLiteralRule taken).1 (g.nextLiteralRule taken).2 :=
  ⟨_, (isLeast_freeLiteralNumber taken g.literalCount).1, rfl, rfl⟩

theorem Names.unique {h' : Grammar} {name' : String} (hn : Names taken g h name)
    (hn' : Names taken g h' name') : h' = h ∧ name' = name := by
  obtain ⟨m, hm, rfl, rfl⟩ := hn
  obtain ⟨m', hm', rfl, rfl⟩ := hn'
  rw [hm'.unique hm]
  exact ⟨rfl, rfl⟩

/-- A number whose name is taken is not the least free one. -/
theorem names_counted (htaken : literalRuleName g.literalCount ∈ taken) :
    Names taken g.counted h name ↔ Names taken g h name := by
  have hset : {n | g.counted.literalCount ≤ n ∧ literalRuleName n ∉ taken} =
      {n | g.literalCount ≤ n ∧ literalRuleName n ∉ taken} := by
    ext n
    refine ⟨fun ⟨hn, hfree⟩ => ⟨Nat.le_of_succ_le hn, hfree⟩, fun ⟨hn, hfree⟩ => ⟨?_, hfree⟩⟩
    exact Nat.lt_of_le_of_ne hn fun he => hfree (he ▸ htaken)
  rw [Names, Names, hset]
  rfl

theorem Searches.names (hs : Searches taken g h name) :
    Names taken g h name ∧ h.literalCount < UInt32.size := by
  induction hs with
  | found hcount hfree => exact ⟨⟨_, ⟨⟨Nat.le_refl _, hfree⟩, fun n hn => hn.1⟩, rfl, rfl⟩, hcount⟩
  | passed _ htaken _ ih => exact ⟨(names_counted htaken).mp ih.1, ih.2⟩

theorem Names.searches (hn : Names taken g h name) (hcount : h.literalCount < UInt32.size) :
    Searches taken g h name := by
  obtain ⟨m, hm, rfl, rfl⟩ := hn
  obtain ⟨d, hd⟩ := Nat.exists_eq_add_of_le hm.1.1
  induction d generalizing g with
  | zero =>
    rw [Nat.add_zero] at hd
    subst hd
    exact .found hcount hm.1.2
  | succ d ih =>
    have htaken : literalRuleName g.literalCount ∈ taken := by
      by_contra hfree
      have := hm.2 ⟨Nat.le_refl _, hfree⟩
      omega
    obtain ⟨m', hm', hname, -⟩ := (names_counted htaken).mpr ⟨m, hm, rfl, rfl⟩
    rw [← literalRuleName_injective hname] at hm'
    refine .passed ?_ htaken (ih (g := g.counted) hm' hcount ?_)
    · have : m + 1 < UInt32.size := hcount
      omega
    · show m = g.literalCount + 1 + d
      omega

/-- As long as the counter has room, the search ends, and only with the least free number. -/
theorem searches_iff : Searches taken g h name ↔
    g.nextLiteralRule taken = (h, name) ∧ h.literalCount < UInt32.size := by
  have hnext := names_nextLiteralRule g taken
  constructor
  · intro hs
    obtain ⟨hn, hcount⟩ := hs.names
    obtain ⟨rfl, rfl⟩ := hnext.unique hn
    exact ⟨rfl, hcount⟩
  · rintro ⟨hcall, hcount⟩
    rw [hcall] at hnext
    exact hnext.searches hcount

/-! ### One call after the other -/

/-- The grammar after calls with the given names taken in each, and the names that they give. -/
def nextLiteralRules (g : Grammar) : List (List String) → Grammar × List String
  | [] => (g, [])
  | taken :: takens =>
    let made := g.nextLiteralRule taken
    let rest := made.1.nextLiteralRules takens
    (rest.1, made.2 :: rest.2)

theorem nextLiteralRules_append (g : Grammar) (before after : List (List String)) :
    g.nextLiteralRules (before ++ after) =
      (((g.nextLiteralRules before).1.nextLiteralRules after).1,
        (g.nextLiteralRules before).2 ++
          ((g.nextLiteralRules before).1.nextLiteralRules after).2) := by
  induction before generalizing g with
  | nil => rfl
  | cons taken before ih =>
    simp only [List.cons_append, nextLiteralRules, ih]

theorem length_nextLiteralRules (g : Grammar) (takens : List (List String)) :
    (g.nextLiteralRules takens).2.length = takens.length := by
  induction takens generalizing g with
  | nil => rfl
  | cons taken takens ih => simp [nextLiteralRules, ih]

theorem Names.lt (hn : Names taken g h name) : g.literalCount < h.literalCount := by
  obtain ⟨m, hm, -, rfl⟩ := hn
  exact Nat.lt_succ_of_le hm.1.1

theorem le_nextLiteralRules (g : Grammar) (takens : List (List String)) :
    g.literalCount ≤ (g.nextLiteralRules takens).1.literalCount := by
  induction takens generalizing g with
  | nil => exact Nat.le_refl _
  | cons taken takens ih => exact Nat.le_trans (names_nextLiteralRule g taken).lt.le (ih _)

/-- The names given have numbers that go up, from the counter on. -/
theorem exists_numbers (g : Grammar) (takens : List (List String)) :
    ∃ ns : List Nat, (g.nextLiteralRules takens).2 = ns.map literalRuleName ∧
      (∀ n ∈ ns, g.literalCount ≤ n) ∧ ns.Pairwise (· < ·) := by
  induction takens generalizing g with
  | nil => exact ⟨[], rfl, by simp, .nil⟩
  | cons taken takens ih =>
    obtain ⟨m, hm, hname, hcounted⟩ := names_nextLiteralRule g taken
    obtain ⟨ns, hns, hle, hpairwise⟩ := ih (g.nextLiteralRule taken).1
    have hlater : ∀ n ∈ ns, m < n := by
      intro n hn
      have := hle n hn
      rwa [hcounted] at this
    refine ⟨m :: ns, ?_, List.forall_mem_cons.mpr ⟨hm.1.1, fun n hn => ?_⟩,
      List.pairwise_cons.mpr ⟨hlater, hpairwise⟩⟩
    · rw [nextLiteralRules, hns, hname]
      rfl
    · exact Nat.le_trans hm.1.1 (hlater n hn).le

theorem nodup_nextLiteralRules (g : Grammar) (takens : List (List String)) :
    (g.nextLiteralRules takens).2.Nodup := by
  obtain ⟨ns, hns, -, hpairwise⟩ := exists_numbers g takens
  rw [hns]
  exact (hpairwise.imp Nat.ne_of_lt).map _ fun a b hne he => hne (literalRuleName_injective he)

/-- As long as the counter has room, each call in a sequence ends. It gives the name of the least
number from the counter on that is not taken in this call, and no name is given twice. -/
theorem nextLiteralRules_fresh (g : Grammar) (takens : List (List String))
    (hcount : (g.nextLiteralRules takens).1.literalCount < UInt32.size) :
    (g.nextLiteralRules takens).2.Nodup ∧
    ∀ before taken after, takens = before ++ taken :: after →
      ∃ m, IsLeast {n | (g.nextLiteralRules before).1.literalCount ≤ n ∧
          literalRuleName n ∉ taken} m ∧
        m ≤ (g.nextLiteralRules before).1.literalCount + taken.length ∧
        (∀ h name, Searches taken (g.nextLiteralRules before).1 h name ↔
          h = (g.nextLiteralRules (before ++ [taken])).1 ∧ name = literalRuleName m) ∧
        (g.nextLiteralRules takens).2[before.length]? = some (literalRuleName m) := by
  refine ⟨nodup_nextLiteralRules g takens, fun before taken after htakens => ?_⟩
  subst htakens
  obtain ⟨own, hown⟩ : ∃ own, own = (g.nextLiteralRules before).1 := ⟨_, rfl⟩
  have hafter : (g.nextLiteralRules (before ++ [taken])).1 = (own.nextLiteralRule taken).1 := by
    rw [nextLiteralRules_append, hown]
    rfl
  have hroom : (own.nextLiteralRule taken).1.literalCount < UInt32.size := by
    refine Nat.lt_of_le_of_lt ?_ hcount
    rw [List.append_cons, nextLiteralRules_append g (before ++ [taken]), hafter]
    exact le_nextLiteralRules _ after
  obtain ⟨hleast, hfew⟩ := isLeast_freeLiteralNumber taken own.literalCount
  rw [hafter, ← hown]
  refine ⟨_, hleast, hfew, fun h name => ?_, ?_⟩
  · rw [searches_iff]
    constructor
    · rintro ⟨hcall, -⟩
      obtain ⟨rfl, rfl⟩ := Prod.mk.inj hcall
      exact ⟨rfl, rfl⟩
    · rintro ⟨rfl, rfl⟩
      exact ⟨rfl, hroom⟩
  · rw [nextLiteralRules_append, ← hown, List.getElem?_append_right (by
      rw [length_nextLiteralRules]), length_nextLiteralRules, Nat.sub_self]
    rfl

/-- The second call passes over a name that is taken then, which the third does not come back to. -/
theorem nextLiteralRules_fresh_changing :
    let g : Grammar := default
    let takens := [["T__0", "T__1"], ["T__3", "A"], []]
    (g.nextLiteralRules takens).1.literalCount < UInt32.size ∧
      (g.nextLiteralRules takens).2 = ["T__2", "T__4", "T__5"] ∧
      (g.nextLiteralRules takens).2.Nodup ∧
      ∃ m, IsLeast {n | 3 ≤ n ∧ literalRuleName n ∉ ["T__3", "A"]} m ∧
        ["T__2", "T__4", "T__5"][1]? = some (literalRuleName m) := by
  intro g takens
  have hnames : (g.nextLiteralRules takens).2 = ["T__2", "T__4", "T__5"] := by decide +kernel
  have hbefore : (g.nextLiteralRules [["T__0", "T__1"]]).1.literalCount = 3 := by decide +kernel
  have hcount : (g.nextLiteralRules takens).1.literalCount < UInt32.size := by decide +kernel
  obtain ⟨hnodup, hcalls⟩ := nextLiteralRules_fresh g takens hcount
  obtain ⟨m, hm, -, -, hname⟩ := hcalls [["T__0", "T__1"]] ["T__3", "A"] [[]] rfl
  rw [hbefore] at hm
  rw [hnames] at hname
  exact ⟨hcount, hnames, hnodup, m, hm, hname⟩

end GrammarTrees.Grammar
