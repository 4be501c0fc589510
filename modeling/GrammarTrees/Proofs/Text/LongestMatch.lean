import GrammarTrees.Proofs.Text.Lexemes

/-! Lexing by longest match. Each token is given by the texts that spell it. At each place the
longest front of the text that spells a token is taken, and the text sticks where no front of it
does. A scanner that finds a token wherever one is spelled, and takes no less than any spelling of
it, cuts texts in this way. -/

namespace GrammarTrees

variable {τ : Type} {spells : τ → List Char → Prop} {scan : Scanner τ} {t : τ} {c : Char}
  {cs front rest : List Char} {ls : List (Lexeme τ)} {l : Lexeme τ} {offset place : Nat}

/-- `front` spells the token, and no longer front of `front ++ rest` spells any. -/
structure IsLongest (spells : τ → List Char → Prop) (t : τ) (front rest : List Char) : Prop where
  spelled : spells t front
  longest : ∀ u front' rest', front ++ rest = front' ++ rest' → spells u front' →
    front'.length ≤ front.length

/-- The text from byte `offset` on is cut into the lexemes. -/
inductive Lexes (spells : τ → List Char → Prop) :
    (offset : Nat) → List Char → List (Lexeme τ) → Prop
  | nil {offset : Nat} : Lexes spells offset [] []
  | cons {offset : Nat} {t : τ} {front rest : List Char} {ls : List (Lexeme τ)}
      (h : IsLongest spells t front rest)
      (hrest : Lexes spells (offset + byteLength front) rest ls) :
      Lexes spells offset (front ++ rest) (⟨some t, front, offset⟩ :: ls)

/-- No front of the text spells a token. -/
def Sticks (spells : τ → List Char → Prop) (cs : List Char) : Prop :=
  ∀ t front rest, cs = front ++ rest → ¬ spells t front

/-- Lexing the text from byte `offset` on sticks at byte `place`. -/
inductive SticksAt (spells : τ → List Char → Prop) :
    (offset : Nat) → List Char → (place : Nat) → Prop
  | here {offset : Nat} {cs : List Char} (hne : cs ≠ []) (h : Sticks spells cs) :
      SticksAt spells offset cs offset
  | later {offset place : Nat} {t : τ} {front rest : List Char}
      (h : IsLongest spells t front rest)
      (hrest : SticksAt spells (offset + byteLength front) rest place) :
      SticksAt spells offset (front ++ rest) place

/-- The scanner finds the tokens as they are spelled, and takes the longest spelling of each. -/
structure Scanner.Finds (scan : Scanner τ) (spells : τ → List Char → Prop) : Prop where
  nonempty : ∀ t, ¬ spells t []
  sound : ∀ {c cs t n}, scan c cs = ⟨some t, n⟩ →
    ∃ front rest, cs = front ++ rest ∧ n = front.length ∧ spells t (c :: front)
  complete : ∀ {c front t}, spells t (c :: front) → ∀ rest,
    ∃ n, scan c (front ++ rest) = ⟨some t, n⟩ ∧ front.length ≤ n

section Finds

variable (h : scan.Finds spells)
include h

theorem isLongest_of_scan (hscan : scan c (front ++ rest) = ⟨some t, front.length⟩) :
    IsLongest spells t (c :: front) rest := by
  refine ⟨?_, fun u front' rest' happend hu => ?_⟩
  · obtain ⟨front', rest', happend, hlength, ht⟩ := h.sound hscan
    obtain ⟨rfl, -⟩ := List.append_inj happend hlength
    exact ht
  · cases front' with
    | nil => exact absurd hu (h.nonempty u)
    | cons d front' =>
      rw [List.cons_append, List.cons_append, List.cons.injEq] at happend
      obtain ⟨rfl, happend⟩ := happend
      obtain ⟨n, hn, hle⟩ := h.complete hu rest'
      rw [← happend, hscan] at hn
      rw [← (Scan.mk.inj hn).2] at hle
      exact Nat.succ_le_succ hle

theorem scan_of_isLongest (ht : IsLongest spells t (c :: front) rest) :
    scan c (front ++ rest) = ⟨some t, front.length⟩ := by
  obtain ⟨n, hn, hle⟩ := h.complete ht.spelled rest
  obtain ⟨front', rest', happend, rfl, ht'⟩ := h.sound hn
  have hlength := ht.longest t (c :: front') rest' (congrArg (c :: ·) happend) ht'
  rw [hn, Nat.le_antisymm (Nat.le_of_succ_le_succ hlength) hle]

theorem sticks_of_scan (hscan : (scan c cs).token = none) : Sticks spells (c :: cs) := by
  intro t front rest happend ht
  cases front with
  | nil => exact h.nonempty t ht
  | cons d front =>
    rw [List.cons_append, List.cons.injEq] at happend
    obtain ⟨rfl, rfl⟩ := happend
    obtain ⟨n, hn, -⟩ := h.complete ht rest
    rw [hn] at hscan
    cases hscan

theorem readFrom_of_lexes (hls : Lexes spells offset cs ls) :
    Lexeme.readFrom scan (fun _ => false) offset 0 cs = ls ∧ ∀ l ∈ ls, l.token.isSome = true := by
  induction hls with
  | nil => exact ⟨rfl, nofun⟩
  | @cons offset t front rest ls ht _ ih =>
    obtain ⟨hread, htokens⟩ := ih
    refine ⟨?_, List.forall_mem_cons.mpr ⟨rfl, htokens⟩⟩
    cases front with
    | nil => exact absurd ht.spelled (h.nonempty t)
    | cons c front =>
      have hcut := Lexeme.Cut.single (scan_of_isLongest h ht) offset
      rw [hcut.readFrom_eq fun _ _ => rfl, hread]
      rfl

/-- What is read of a text are its lexemes, or else the first one without a token stands where the
text sticks. -/
theorem exists_lexes_or_sticksAt (offset : Nat) (cs : List Char) :
    Lexes spells offset cs (Lexeme.readFrom scan (fun _ => false) offset 0 cs) ∨
    ∃ l, (Lexeme.readFrom scan (fun _ => false) offset 0 cs).find? (·.token.isNone) = some l ∧
      SticksAt spells offset cs l.offset := by
  induction hn : cs.length using Nat.strong_induction_on generalizing cs offset with
  | _ n ih =>
    cases cs with
    | nil => exact .inl .nil
    | cons c cs =>
      cases htoken : (scan c cs).token with
      | none =>
        refine .inr ⟨⟨none, c :: cs.take (scan c cs).further, offset⟩, ?_,
          .here (List.cons_ne_nil c cs) (sticks_of_scan h htoken)⟩
        simp [Lexeme.readFrom, htoken]
      | some t =>
        have hscan : scan c cs = ⟨some t, (scan c cs).further⟩ := by rw [← htoken]
        obtain ⟨front, rest, rfl, hfurther, -⟩ := h.sound hscan
        rw [hfurther] at hscan
        have hlongest := isLongest_of_scan h hscan
        have hcut := Lexeme.Cut.single hscan offset
        rw [← List.cons_append, hcut.readFrom_eq fun _ _ => rfl]
        rcases ih rest.length (by simp at hn; omega) (offset + byteLength (c :: front)) rest rfl
          with hrest | ⟨l, hl, hrest⟩
        · exact .inl (.cons hlongest hrest)
        · exact .inr ⟨l, hl, .later hlongest hrest⟩

end Finds

end GrammarTrees
