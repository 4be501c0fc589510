import GrammarTrees.Text.Lexeme
import Mathlib.Data.List.TakeWhile

/-! Texts and the lexemes they are cut into. Each lexeme is what the scanner finds where the one
before it ends. The front of a text is cut as the scanner cuts it with the rest of the text in
view. -/

namespace GrammarTrees

variable {τ : Type} {scan : Scanner τ} {last : Lexeme τ → Bool} {l : Lexeme τ}
  {ls more : List (Lexeme τ)} {a b c : Char} {cs ds rest : List Char} {token : Option τ}
  {offset skip n : Nat}

/-- A run ends before the first character that does not belong to it. -/
theorem takeWhile_append_of_head? {p : Char → Bool} (hcs : ∀ c ∈ cs, p c = true)
    (hrest : ∀ c ∈ rest.head?, p c = false) : (cs ++ rest).takeWhile p = cs := by
  rw [List.takeWhile_append_of_pos hcs]
  cases rest with
  | nil => simp
  | cons d ds => simp [hrest d (by simp)]

theorem forall_of_length_takeWhile {p : Char → Bool}
    (h : ((cs ++ rest).takeWhile p).length = cs.length) :
    (∀ c ∈ cs, p c = true) ∧ ∀ c ∈ rest.head?, p c = false := by
  induction cs with
  | nil =>
    refine ⟨nofun, fun c hc => ?_⟩
    obtain ⟨back, rfl⟩ := List.head?_eq_some_iff.mp hc
    by_contra hp
    simp [hp] at h
  | cons c cs ih =>
    rw [List.cons_append, List.takeWhile_cons] at h
    split at h
    · rename_i hc
      obtain ⟨hcs, hrest⟩ := ih (Nat.succ.inj h)
      exact ⟨List.forall_mem_cons.mpr ⟨hc, hcs⟩, hrest⟩
    · cases h

namespace Lexeme

theorem readFrom_skip (scan : Scanner τ) (last : Lexeme τ → Bool) (cs rest : List Char)
    (offset : Nat) : readFrom scan last offset cs.length (cs ++ rest) =
      readFrom scan last (offset + byteLength cs) 0 rest := by
  induction cs generalizing offset with
  | nil => rfl
  | cons c cs ih =>
    rw [List.cons_append, List.length_cons, readFrom, ih, byteLength_cons, Nat.add_assoc]

/-- A lexeme without its place. -/
def bare (l : Lexeme τ) : Lexeme τ := ⟨l.token, l.chars, 0⟩

/-- A lexeme is what the scanner finds at its place in the text. -/
theorem exists_of_mem_readFrom (h : l ∈ readFrom scan last offset skip cs) :
    ∃ front c rest, cs = front ++ c :: rest ∧ l = ⟨(scan c rest).token,
      c :: rest.take (scan c rest).further, offset + byteLength front⟩ := by
  induction cs generalizing offset skip with
  | nil => simp [readFrom] at h
  | cons c cs ih =>
    have hlater : ∀ skip', l ∈ readFrom scan last (offset + c.utf8Size) skip' cs →
        ∃ front d rest, c :: cs = front ++ d :: rest ∧ l = ⟨(scan d rest).token,
          d :: rest.take (scan d rest).further, offset + byteLength front⟩ := by
      intro skip' hmem
      obtain ⟨front, d, rest, rfl, rfl⟩ := ih hmem
      exact ⟨c :: front, d, rest, rfl, by rw [byteLength_cons, Nat.add_assoc]⟩
    cases skip with
    | succ skip => exact hlater skip h
    | zero =>
      rw [readFrom] at h
      split at h
      · exact ⟨[], c, cs, rfl, List.mem_singleton.mp h⟩
      · rcases List.mem_cons.mp h with rfl | h
        · exact ⟨[], c, cs, rfl, rfl⟩
        · exact hlater _ h

/-- The characters from byte `offset` on, in front of `rest`, are cut into the lexemes. -/
inductive Cut (scan : Scanner τ) (rest : List Char) :
    (offset : Nat) → List Char → List (Lexeme τ) → Prop
  | nil (offset : Nat) : Cut scan rest offset [] []
  | cons {offset : Nat} {c : Char} {cs ds : List Char} {token : Option τ} {ls : List (Lexeme τ)}
      (hscan : scan c (cs ++ (ds ++ rest)) = ⟨token, cs.length⟩)
      (hds : Cut scan rest (offset + byteLength (c :: cs)) ds ls) :
      Cut scan rest offset (c :: cs ++ ds) (⟨token, c :: cs, offset⟩ :: ls)

namespace Cut

theorem single (hscan : scan c (cs ++ rest) = ⟨token, cs.length⟩) (offset : Nat) :
    Cut scan rest offset (c :: cs) [⟨token, c :: cs, offset⟩] := by
  have h : Cut scan rest offset (c :: cs ++ []) _ :=
    .cons hscan (.nil (offset + byteLength (c :: cs)))
  rwa [List.append_nil] at h

theorem append (h : Cut scan (ds ++ rest) offset cs ls)
    (hds : Cut scan rest (offset + byteLength cs) ds more) :
    Cut scan rest offset (cs ++ ds) (ls ++ more) := by
  induction h with
  | nil => simpa using hds
  | cons hscan _ ih =>
    rw [byteLength_append, ← Nat.add_assoc] at hds
    rw [List.append_assoc]
    refine .cons ?_ (ih hds)
    rwa [List.append_assoc]

/-- A text is cut into the lexemes of its front, up to the last one that is wanted. -/
theorem readFrom_eq (h : Cut scan rest offset cs ls) (hlast : ∀ l ∈ ls, last l = false) :
    readFrom scan last offset 0 (cs ++ rest) =
      ls ++ readFrom scan last (offset + byteLength cs) 0 rest := by
  induction h with
  | nil => simp
  | @cons offset c cs ds token ls hscan _ ih =>
    rw [List.forall_mem_cons] at hlast
    rw [List.append_assoc, List.cons_append, readFrom, hscan]
    simp only [List.take_left, hlast.1, Bool.false_eq_true, if_false]
    rw [readFrom_skip, Nat.add_assoc, ← byteLength_cons, ih hlast.2, byteLength_append,
      Nat.add_assoc, List.cons_append]

theorem flatMap_chars (h : Cut scan rest offset cs ls) : ls.flatMap chars = cs := by
  induction h with
  | nil => rfl
  | cons _ _ ih => rw [List.flatMap_cons, ih]

theorem readAll_eq (h : Cut scan rest 0 cs ls) :
    readAll scan (cs ++ rest) = ls ++ readFrom scan (fun _ => false) (byteLength cs) 0 rest := by
  rw [readAll, h.readFrom_eq fun _ _ => rfl, Nat.zero_add]

end Cut

end Lexeme

/-! ### Delimiters of two characters -/

/-- What is found ends with the first delimiter. -/
theorem lengthThrough_append (h : ¬ [a, b] <:+: cs ++ [a]) (rest : List Char) :
    lengthThrough a b (cs ++ a :: b :: rest) = some (cs.length + 2) := by
  induction cs with
  | nil => simp [lengthThrough]
  | cons c cs ih =>
    rw [List.cons_append, List.infix_cons_iff, not_or] at h
    cases cs with
    | nil =>
      have hne : ¬ (c = a ∧ a = b) := by
        rintro ⟨rfl, rfl⟩
        exact h.1 (List.prefix_refl _)
      simp [lengthThrough, hne]
    | cons d cs =>
      have hne : ¬ (c = a ∧ d = b) := by
        rintro ⟨rfl, rfl⟩
        exact h.1 ⟨cs ++ [c], rfl⟩
      rw [List.cons_append, List.cons_append, lengthThrough, if_neg hne, ← List.cons_append,
        ih h.2]
      rfl

/-- What is found ends with a delimiter, and none stands before it. -/
theorem exists_of_lengthThrough (h : lengthThrough a b cs = some n) :
    ∃ front rest, cs = front ++ a :: b :: rest ∧ ¬ [a, b] <:+: front ++ [a] ∧
      n = front.length + 2 := by
  fun_induction lengthThrough a b cs generalizing n with
  | case1 => simp at h
  | case2 => simp at h
  | case3 c d cs hc =>
    obtain ⟨rfl, rfl⟩ := hc
    exact ⟨[], cs, rfl, fun h => absurd h.length_le (by simp), (Option.some.inj h).symm⟩
  | case4 c d cs hc ih =>
    obtain ⟨m, hm, rfl⟩ := Option.map_eq_some_iff.mp h
    obtain ⟨front, rest, hcs, hfront, rfl⟩ := ih hm
    refine ⟨c :: front, rest, by rw [hcs]; rfl, ?_, by simp⟩
    rw [List.cons_append, List.infix_cons_iff, not_or, List.cons_prefix_cons]
    refine ⟨fun ⟨hca, hdb⟩ => hc ⟨hca.symm, ?_⟩, hfront⟩
    cases front <;> simp_all

end GrammarTrees
