import GrammarTrees.Proofs.Text.LongestMatch
import GrammarTrees.Proofs.TreeText.Texts

/-! The tokens of the tree notation, each with the texts that spell it. The scanner takes the
longest front of a text that spells a token. -/

namespace GrammarTrees.TreeText

def IsDigits (cs : List Char) : Prop := cs ≠ [] ∧ ∀ c ∈ cs, c.isDigit = true

/-- An at sign, and digits of a line and of a column with a colon between them. -/
inductive IsPosition : (cs line column : List Char) → Prop
  | mk {line column : List Char} (hline : IsDigits line) (hcolumn : IsDigits column) :
      IsPosition ('@' :: (line ++ ':' :: column)) line column

/-- The characters spell the token. -/
def Token.IsSpelled : Token → List Char → Prop
  | .opening, cs => cs = ['(']
  | .closing, cs => cs = [')']
  | .colon, cs => cs = [':']
  | .quoted, cs => IsQuoted cs
  | .braced, cs => IsBraced cs
  | .position, cs => ∃ line column, IsPosition cs line column
  | .word, cs => IsWord cs
  | .gap, cs => cs ≠ [] ∧ ∀ c ∈ cs, isGap c = true

variable {c : Char} {cs front rest line column : List Char} {t : Token} {n : Nat}

/-! ### Positions -/

theorem positionLength_append (hline : IsDigits line) (hcolumn : IsDigits column)
    (rest : List Char) : positionLength (line ++ ':' :: (column ++ rest)) =
      some (line.length + 1 + (column ++ rest.takeWhile Char.isDigit).length) := by
  have htake : (line ++ ':' :: (column ++ rest)).takeWhile Char.isDigit = line :=
    takeWhile_append_of_head? hline.2 (by simp)
  have hdrop : (line ++ ':' :: (column ++ rest)).dropWhile Char.isDigit =
      ':' :: (column ++ rest) := by
    rw [List.dropWhile_append_of_pos hline.2]
    rfl
  simp only [positionLength, htake, hdrop, List.takeWhile_append_of_pos hcolumn.2]
  rw [if_neg (by simp [hline.1, hcolumn.1])]

theorem exists_of_positionLength (h : positionLength cs = some n) :
    ∃ line column rest, cs = line ++ ':' :: (column ++ rest) ∧ IsDigits line ∧ IsDigits column ∧
      n = line.length + 1 + column.length := by
  unfold positionLength at h
  simp only at h
  split at h
  · rename_i back hback
    split at h
    · cases h
    · rename_i hne
      rw [not_or] at hne
      refine ⟨cs.takeWhile Char.isDigit, back.takeWhile Char.isDigit, back.dropWhile Char.isDigit,
        ?_, ⟨hne.1, fun c => List.mem_takeWhile_imp⟩, ⟨hne.2, fun c => List.mem_takeWhile_imp⟩,
        (Option.some.inj h).symm⟩
      rw [List.takeWhile_append_dropWhile, ← hback, List.takeWhile_append_dropWhile]
  · cases h

/-! ### The scanner -/

theorem length_le_takeWhile_append {p : Char → Bool} (hcs : ∀ c ∈ cs, p c = true)
    (rest : List Char) : cs.length ≤ ((cs ++ rest).takeWhile p).length := by
  rw [List.takeWhile_append_of_pos hcs, List.length_append]
  exact Nat.le_add_right ..

theorem scan_of_isGap (h : isGap c = true) (cs : List Char) : scan c cs = .run .gap isGap cs := by
  simp only [isGap, Bool.or_eq_true, decide_eq_true_eq] at h
  rcases h with ((rfl | rfl) | rfl) | rfl <;> rfl

theorem not_isSpelled_nil (t : Token) : ¬ t.IsSpelled [] := by
  cases t with
  | quoted =>
    rintro ⟨tail, htail, -⟩
    cases htail
  | braced =>
    rintro (h | ⟨block, -, h⟩)
    · cases h.opens
    · simp at h
  | position =>
    rintro ⟨line, column, h⟩
    cases h
  | word => exact fun h => h.1 rfl
  | gap => exact fun h => h.1 rfl
  | _ => exact nofun

/-- Where a token is spelled, the scanner finds it, and takes the spelling or more. -/
theorem exists_scan_of_isSpelled (h : t.IsSpelled (c :: front)) (rest : List Char) :
    ∃ n, scan c (front ++ rest) = ⟨some t, n⟩ ∧ front.length ≤ n := by
  cases t with
  | opening | closing | colon =>
    obtain ⟨rfl, rfl⟩ := List.cons.inj h
    exact ⟨0, rfl, Nat.le_refl 0⟩
  | quoted =>
    obtain ⟨tail, htail, hquoted⟩ := h
    obtain ⟨rfl, rfl⟩ := List.cons.inj htail
    exact ⟨_, scan_quoted hquoted rest, Nat.le_refl _⟩
  | braced =>
    rcases h with h | ⟨block, h, hblock⟩
    · obtain ⟨rfl, -⟩ := List.cons.inj (List.head?_eq_some_iff.mp h.opens).choose_spec
      rw [scan_brace, bracedLength_of_closes (isBlock_cons_iff.mp h)]
      exact ⟨_, rfl, Nat.le_add_right ..⟩
    · obtain ⟨block, rfl⟩ := List.head?_eq_some_iff.mp h.opens
      rw [List.cons_append, List.cons.injEq] at hblock
      obtain ⟨rfl, rfl⟩ := hblock
      rw [List.append_assoc, scan_brace, bracedLength_of_closes (isBlock_cons_iff.mp h)]
      exact ⟨_, rfl, by simp⟩
  | position =>
    obtain ⟨line, column, hposition⟩ := h
    cases hposition with
    | mk hline hcolumn =>
      have hscan : scan '@' (line ++ ':' :: column ++ rest) =
          scanOf .position (positionLength (line ++ ':' :: column ++ rest)) := rfl
      rw [hscan, List.append_assoc, List.cons_append, positionLength_append hline hcolumn]
      refine ⟨_, rfl, ?_⟩
      simp only [List.length_append, List.length_cons]
      omega
  | word =>
    rw [scan_of_isWordChar (h.2 c List.mem_cons_self)]
    exact ⟨_, rfl, length_le_takeWhile_append (List.forall_mem_cons.mp h.2).2 rest⟩
  | gap =>
    rw [scan_of_isGap (h.2 c List.mem_cons_self)]
    exact ⟨_, rfl, length_le_takeWhile_append (List.forall_mem_cons.mp h.2).2 rest⟩

theorem bracedLength_le {depth : Nat} (h : bracedLength depth cs = some n) : n ≤ cs.length := by
  induction cs generalizing depth n with
  | nil => cases depth <;> cases h
  | cons c cs ih =>
    have further {depth' : Nat} (h : (bracedLength depth' cs).map (· + 1) = some n) :
        n ≤ (c :: cs).length := by
      obtain ⟨m, hm, rfl⟩ := Option.map_eq_some_iff.mp h
      exact Nat.succ_le_succ (ih hm)
    rw [bracedLength_cons] at h
    split at h
    · exact further h
    · split at h
      · cases depth with
        | zero =>
          obtain rfl := Option.some.inj h
          cases cs with
          | nil => simp
          | cons d cs => split <;> simp
        | succ depth => exact further h
      · exact further h

theorem exists_of_scan_run {p : Char → Bool} {u : Token} (hc : p c = true)
    (h : Scan.run u p cs = ⟨some t, n⟩) :
    u = t ∧ ∃ front rest, cs = front ++ rest ∧ n = front.length ∧ ∀ d ∈ c :: front, p d = true := by
  obtain ⟨ht, hn⟩ := Scan.mk.inj h
  exact ⟨Option.some.inj ht, cs.takeWhile p, cs.dropWhile p, List.takeWhile_append_dropWhile.symm,
    hn.symm, List.forall_mem_cons.mpr ⟨hc, fun d => List.mem_takeWhile_imp⟩⟩

/-- What the scanner finds is spelled there. -/
theorem exists_isSpelled_of_scan (h : scan c cs = ⟨some t, n⟩) :
    ∃ front rest, cs = front ++ rest ∧ n = front.length ∧ t.IsSpelled (c :: front) := by
  rw [scan.eq_def] at h
  split at h
  · obtain ⟨ht, hn⟩ := Scan.mk.inj h
    obtain rfl := Option.some.inj ht
    exact ⟨[], cs, rfl, hn.symm, rfl⟩
  · obtain ⟨ht, hn⟩ := Scan.mk.inj h
    obtain rfl := Option.some.inj ht
    exact ⟨[], cs, rfl, hn.symm, rfl⟩
  · obtain ⟨ht, hn⟩ := Scan.mk.inj h
    obtain rfl := Option.some.inj ht
    exact ⟨[], cs, rfl, hn.symm, rfl⟩
  · obtain ⟨ht, hn⟩ := Scan.mk.inj h
    split at ht
    · rename_i hrun
      obtain rfl := Option.some.inj ht
      obtain ⟨body, rest, rfl, hbody, rfl⟩ := exists_of_quotedRun (Prod.ext hrun hn)
      exact ⟨body ++ ['\''], rest, by simp, by simp, _, rfl, quotedTail_iff.mpr ⟨body, hbody, rfl⟩⟩
    · cases ht
  · cases hlength : bracedLength 0 cs with
    | none => simp [hlength, scanOf, Scan.stray] at h
    | some m =>
      have hscan : scan '\x7b' cs = ⟨some .braced, m⟩ := by
        rw [scan_brace, hlength]
        rfl
      rw [hlength] at h
      cases h
      exact ⟨cs.take n, cs.drop n, (List.take_append_drop n cs).symm,
        (List.length_take_of_le (bracedLength_le hlength)).symm, spells_of_scan hscan⟩
  · cases hlength : positionLength cs with
    | none => simp [hlength, scanOf, Scan.stray] at h
    | some m =>
      rw [hlength] at h
      cases h
      obtain ⟨line, column, rest, rfl, hline, hcolumn, rfl⟩ := exists_of_positionLength hlength
      refine ⟨line ++ ':' :: column, rest, by simp, ?_, line, column, .mk hline hcolumn⟩
      simp only [List.length_append, List.length_cons]
      omega
  · split at h
    · rename_i hc
      obtain ⟨rfl, front, rest, hcs, hn, hfront⟩ := exists_of_scan_run hc h
      exact ⟨front, rest, hcs, hn, List.cons_ne_nil c front, hfront⟩
    · split at h
      · rename_i hc
        obtain ⟨rfl, front, rest, hcs, hn, hfront⟩ := exists_of_scan_run hc h
        exact ⟨front, rest, hcs, hn, List.cons_ne_nil c front, hfront⟩
      · cases h

/-- The scanner takes the longest match. -/
theorem finds : scan.Finds Token.IsSpelled :=
  ⟨not_isSpelled_nil, exists_isSpelled_of_scan, exists_scan_of_isSpelled⟩

end GrammarTrees.TreeText
