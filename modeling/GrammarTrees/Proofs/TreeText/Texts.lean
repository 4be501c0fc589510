import GrammarTrees.Forest.Basic
import GrammarTrees.Proofs.Text.Quoted
import GrammarTrees.TreeText.Token
import Mathlib.Data.List.Basic

/-! The texts that the tree notation can write: words, quoted texts and braced texts, each described
by the characters it consists of. The scanner finds exactly these, at whatever it is followed by
that cannot prolong them. -/

namespace GrammarTrees

namespace TreeText

/-- One or more characters, none of which is blank or one of `( ) : ' { } @`. -/
def IsWord (cs : List Char) : Prop := cs ≠ [] ∧ ∀ c ∈ cs, isWordChar c = true

/-- What follows the opening quote of a quoted text: characters other than quotes and backslashes,
and backslashes with the character after them, which is no line feed, up to a closing quote. -/
inductive QuotedTail : List Char → Prop
  | close : QuotedTail ['\'']
  | plain {c : Char} {cs : List Char} :
      c ≠ '\'' → c ≠ '\\' → QuotedTail cs → QuotedTail (c :: cs)
  | escape {c : Char} {cs : List Char} : c ≠ '\n' → QuotedTail cs → QuotedTail ('\\' :: c :: cs)

def IsQuoted (cs : List Char) : Prop := ∃ tail, cs = '\'' :: tail ∧ QuotedTail tail

/-- The number of braces that are open after the given characters. -/
def braceDepth (cs : List Char) : Int := cs.count '\x7b' - cs.count '\x7d'

/-- A text that starts with an opening brace and ends where the depth first is 0 again. -/
structure IsBlock (cs : List Char) : Prop where
  opens : cs.head? = some '\x7b'
  closes : braceDepth cs = 0
  first : ∀ n, 0 < n → n < cs.length → braceDepth (cs.take n) ≠ 0

/-- A block, or one with a question mark after it. -/
def IsBraced (cs : List Char) : Prop := IsBlock cs ∨ ∃ block, IsBlock block ∧ cs = block ++ ['?']

end TreeText

open TreeText in
/-- The text of a label is the name of its kind, a word, a quoted text or a braced text. -/
def Label.Writable (l : Label) : Prop :=
  l.text = l.kind.name ∨ IsWord l.text.toList ∨ IsQuoted l.text.toList ∨ IsBraced l.text.toList

namespace TreeText

variable {c : Char} {cs rest : List Char} {n : Nat}

/-! ### Words -/

/-- The characters that a word cannot go on with. -/
def EndsWord (rest : List Char) : Prop := ∀ c ∈ rest.head?, isWordChar c = false

theorem isWordChar_eq_true_iff : isWordChar c = true ↔ isBlank c = false ∧ c ≠ '(' ∧ c ≠ ')' ∧
    c ≠ ':' ∧ c ≠ '\'' ∧ c ≠ '\x7b' ∧ c ≠ '\x7d' ∧ c ≠ '@' := by
  simp [isWordChar, @eq_comm _ c]

theorem scan_of_isWordChar (h : isWordChar c = true) (cs : List Char) :
    scan c cs = .run .word isWordChar cs := by
  obtain ⟨-, h1, h2, h3, h4, h5, -, h7⟩ := isWordChar_eq_true_iff.mp h
  rw [scan.eq_def]
  split <;> simp_all

theorem scan_word (h : IsWord (c :: cs)) (hr : EndsWord rest) :
    scan c (cs ++ rest) = ⟨some .word, cs.length⟩ := by
  rw [scan_of_isWordChar (h.2 c (by simp)), Scan.run,
    takeWhile_append_of_head? (fun d hd => h.2 d (by simp [hd])) hr]

/-! ### Quoted texts -/

/-- A quoted text ends with the only quote that is not escaped. -/
theorem quotedTail_iff :
    QuotedTail cs ↔ ∃ body, Quotable '\'' (fun _ => true) body ∧ cs = body ++ ['\''] := by
  constructor
  · intro h
    induction h with
    | close => exact ⟨[], .nil, rfl⟩
    | plain hq hb _ ih =>
      obtain ⟨body, hbody, rfl⟩ := ih
      exact ⟨_, .plain hq hb rfl hbody, rfl⟩
    | escape hn _ ih =>
      obtain ⟨body, hbody, rfl⟩ := ih
      exact ⟨_, .escape hn hbody, rfl⟩
  · rintro ⟨body, hbody, rfl⟩
    induction hbody with
    | nil => exact .close
    | plain hq hb _ _ ih => exact .plain hq hb ih
    | escape hn _ ih => exact .escape hn ih

theorem quotedRun_of_tail (h : QuotedTail cs) (rest : List Char) :
    quotedRun '\'' (fun _ => true) (cs ++ rest) = (true, cs.length) := by
  obtain ⟨body, hbody, rfl⟩ := quotedTail_iff.mp h
  rw [List.append_assoc, List.length_append]
  exact hbody.quotedRun_eq (by decide) rest

/-- A run that ends with a closing quote has read a quoted text. -/
theorem quotedTail_of_run (h : quotedRun '\'' (fun _ => true) cs = (true, n)) :
    QuotedTail (cs.take n) := by
  obtain ⟨body, rest, rfl, hbody, rfl⟩ := exists_of_quotedRun h
  have hsplit : body ++ '\'' :: rest = (body ++ ['\'']) ++ rest := by simp
  rw [hsplit, List.take_left' (by simp)]
  exact quotedTail_iff.mpr ⟨body, hbody, rfl⟩

theorem scan_quote (cs : List Char) :
    scan '\'' cs =
      ⟨if (quotedRun '\'' (fun _ => true) cs).1 then some .quoted else none,
        (quotedRun '\'' (fun _ => true) cs).2⟩ := rfl

theorem scan_quoted (h : QuotedTail cs) (rest : List Char) :
    scan '\'' (cs ++ rest) = ⟨some .quoted, cs.length⟩ := by
  rw [scan_quote, quotedRun_of_tail h rest]
  rfl

/-! ### Braced texts -/

/-- What a character adds to the number of open braces. -/
def braceStep (c : Char) : Int := if c = '\x7b' then 1 else if c = '\x7d' then -1 else 0

theorem braceStep_close : braceStep '\x7d' = -1 := rfl

theorem braceDepth_cons (c : Char) (cs : List Char) :
    braceDepth (c :: cs) = braceStep c + braceDepth cs := by
  simp only [braceDepth, braceStep, List.count_cons, beq_iff_eq]
  by_cases h1 : c = '\x7b'
  · subst h1
    simp
    omega
  · by_cases h2 : c = '\x7d'
    · subst h2
      simp
      omega
    · simp [h1, h2]

/-- The last of the characters closes `depth` inner braces and the one before them, and none of the
others does. -/
structure Closes (depth : Nat) (cs : List Char) : Prop where
  last : (depth : Int) + 1 + braceDepth cs = 0
  first : ∀ n < cs.length, (depth : Int) + 1 + braceDepth (cs.take n) ≠ 0

theorem isBlock_cons_iff : IsBlock ('\x7b' :: cs) ↔ Closes 0 cs := by
  constructor
  · intro h
    refine ⟨by simpa [braceDepth_cons, braceStep] using h.closes, fun n hn => ?_⟩
    have := h.first (n + 1) (Nat.succ_pos n) (by simpa using hn)
    simpa [braceDepth_cons, braceStep] using this
  · intro h
    refine ⟨rfl, by simpa [braceDepth_cons, braceStep] using h.last, fun n hpos hn => ?_⟩
    obtain ⟨m, rfl⟩ : ∃ m, n = m + 1 := ⟨n - 1, by omega⟩
    have := h.first m (by simpa using hn)
    simpa [braceDepth_cons, braceStep] using this

theorem not_closes_nil (depth : Nat) : ¬ Closes depth [] := by
  intro h
  have := h.last
  simp only [braceDepth, List.count_nil] at this
  omega

theorem closes_cons {depth depth' : Nat} (hstep : (depth : Int) + braceStep c = depth') :
    Closes depth (c :: cs) ↔ Closes depth' cs := by
  have hshift : ∀ ds, (depth : Int) + 1 + braceDepth (c :: ds) = depth' + 1 + braceDepth ds := by
    intro ds
    rw [braceDepth_cons]
    omega
  constructor
  · intro h
    refine ⟨by rw [← hshift]; exact h.last, fun n hn => ?_⟩
    rw [← hshift, ← List.take_succ_cons]
    exact h.first (n + 1) (by simpa using hn)
  · intro h
    refine ⟨by rw [hshift]; exact h.last, fun n hn => ?_⟩
    cases n with
    | zero =>
      rw [List.take_zero, braceDepth, List.count_nil, List.count_nil]
      omega
    | succ n =>
      rw [List.take_succ_cons, hshift]
      exact h.first n (by simpa using hn)

/-- A brace that closes the first open one ends the text. -/
theorem closes_zero_iff : Closes 0 ('\x7d' :: cs) ↔ cs = [] := by
  constructor
  · intro h
    by_contra hne
    have hlen : 1 < ('\x7d' :: cs).length := by
      simpa using List.length_pos_iff.mpr hne
    exact h.first 1 hlen (by simp [braceDepth])
  · rintro rfl
    refine ⟨by simp [braceDepth], fun n hn => ?_⟩
    obtain rfl : n = 0 := by simpa using hn
    simp [braceDepth]

theorem bracedLength_cons (depth : Nat) (c : Char) (cs : List Char) :
    bracedLength depth (c :: cs) =
      if c = '\x7b' then (bracedLength (depth + 1) cs).map (· + 1)
      else if c = '\x7d' then
        match depth with
        | 0 => some (if cs.head? = some '?' then 2 else 1)
        | depth + 1 => (bracedLength depth cs).map (· + 1)
      else (bracedLength depth cs).map (· + 1) := by
  cases depth <;> rfl

theorem bracedLength_of_closes {depth : Nat} (h : Closes depth cs) (rest : List Char) :
    bracedLength depth (cs ++ rest) =
      some (cs.length + if rest.head? = some '?' then 1 else 0) := by
  induction cs generalizing depth with
  | nil => exact (not_closes_nil depth h).elim
  | cons c cs ih =>
    rw [List.cons_append, bracedLength_cons]
    by_cases h1 : c = '\x7b'
    · rw [if_pos h1, ih ((closes_cons (by simp [braceStep, h1])).mp h)]
      simp [Nat.add_right_comm]
    by_cases h2 : c = '\x7d'
    · rw [if_neg h1, if_pos h2]
      subst h2
      cases depth with
      | zero =>
        rw [closes_zero_iff.mp h]
        by_cases hr : rest.head? = some '?' <;> simp [hr]
      | succ depth =>
        simp only
        rw [ih ((closes_cons (by rw [braceStep_close]; omega)).mp h)]
        simp [Nat.add_right_comm]
    · rw [if_neg h1, if_neg h2, ih ((closes_cons (by simp [braceStep, h1, h2])).mp h)]
      simp [Nat.add_right_comm]

/-- What is found to close the open braces does so, apart from a question mark at its end. -/
theorem closes_of_bracedLength {depth : Nat} (h : bracedLength depth cs = some n) :
    ∃ block, Closes depth block ∧ (cs.take n = block ∨ cs.take n = block ++ ['?']) := by
  induction cs generalizing depth n with
  | nil => simp [bracedLength] at h
  | cons c cs ih =>
    have further {depth' : Nat} (hstep : (depth : Int) + braceStep c = depth')
        (h : (bracedLength depth' cs).map (· + 1) = some n) :
        ∃ block, Closes depth block ∧
          ((c :: cs).take n = block ∨ (c :: cs).take n = block ++ ['?']) := by
      obtain ⟨m, hm, rfl⟩ := Option.map_eq_some_iff.mp h
      obtain ⟨block, hblock, htake⟩ := ih hm
      refine ⟨c :: block, (closes_cons hstep).mpr hblock, ?_⟩
      simpa using htake
    rw [bracedLength_cons] at h
    by_cases h1 : c = '\x7b'
    · rw [if_pos h1] at h
      exact further (by simp [braceStep, h1]) h
    by_cases h2 : c = '\x7d'
    · rw [if_neg h1, if_pos h2] at h
      cases depth with
      | zero =>
        subst h2
        obtain rfl := Option.some.inj h
        refine ⟨['\x7d'], closes_zero_iff.mpr rfl, ?_⟩
        cases cs with
        | nil => simp
        | cons d ds => by_cases hd : d = '?' <;> simp [hd]
      | succ depth => exact further (by rw [h2, braceStep_close]; omega) h
    · rw [if_neg h1, if_neg h2] at h
      exact further (by simp [braceStep, h1, h2]) h

theorem scan_brace (cs : List Char) : scan '\x7b' cs = scanOf .braced (bracedLength 0 cs) := rfl

theorem scan_braced (h : IsBraced ('\x7b' :: cs)) (hr : rest.head? ≠ some '?') :
    scan '\x7b' (cs ++ rest) = ⟨some .braced, cs.length⟩ := by
  rw [scan_brace]
  rcases h with h | ⟨block, h, hcs⟩
  · rw [bracedLength_of_closes (isBlock_cons_iff.mp h), if_neg hr]
    rfl
  · obtain ⟨d, block, rfl⟩ := List.exists_cons_of_ne_nil (l := block) fun hnil => by
      simpa [hnil] using h.opens
    obtain ⟨rfl, rfl⟩ : d = '\x7b' ∧ cs = block ++ ['?'] := by
      simpa [eq_comm] using hcs
    rw [List.append_assoc, bracedLength_of_closes (isBlock_cons_iff.mp h)]
    simp [scanOf]

/-! ### What the scanner finds -/

/-- The characters of the tokens that can be the text of a node. -/
def Token.Spells (t : Token) (cs : List Char) : Prop :=
  match t with
  | .word => IsWord cs
  | .quoted => IsQuoted cs
  | .braced => IsBraced cs
  | _ => True

theorem spells_of_scan {t : Token} (h : scan c cs = ⟨some t, n⟩) : t.Spells (c :: cs.take n) := by
  rw [scan.eq_def] at h
  split at h
  · obtain rfl := Option.some.inj (Scan.mk.inj h).1
    trivial
  · obtain rfl := Option.some.inj (Scan.mk.inj h).1
    trivial
  · obtain rfl := Option.some.inj (Scan.mk.inj h).1
    trivial
  · obtain ⟨ht, hn⟩ := Scan.mk.inj h
    split at ht
    · rename_i hrun
      obtain rfl := Option.some.inj ht
      exact ⟨_, rfl, quotedTail_of_run (Prod.ext hrun hn)⟩
    · simp at ht
  · cases hlen : bracedLength 0 cs with
    | none => simp [hlen, scanOf, Scan.stray] at h
    | some m =>
      rw [hlen] at h
      obtain ⟨ht, rfl⟩ := Scan.mk.inj h
      obtain rfl := Option.some.inj ht
      obtain ⟨block, hblock, htake⟩ := closes_of_bracedLength hlen
      rcases htake with htake | htake
      · exact .inl (isBlock_cons_iff.mpr (htake ▸ hblock))
      · exact .inr ⟨'\x7b' :: block, isBlock_cons_iff.mpr hblock, by rw [htake]; rfl⟩
  · cases hlen : positionLength cs with
    | none => simp [hlen, scanOf, Scan.stray] at h
    | some m =>
      rw [hlen] at h
      obtain rfl := Option.some.inj (Scan.mk.inj h).1
      trivial
  · split at h
    · rename_i hc
      obtain ⟨ht, rfl⟩ := Scan.mk.inj h
      obtain rfl := Option.some.inj ht
      refine ⟨List.cons_ne_nil _ _, fun d hd => ?_⟩
      rcases List.mem_cons.mp hd with rfl | hd
      · exact hc
      · rw [← List.prefix_iff_eq_take.mp (List.takeWhile_prefix _)] at hd
        exact List.mem_takeWhile_imp hd
    · split at h
      · obtain rfl := Option.some.inj (Scan.mk.inj h).1
        trivial
      · simp [Scan.stray] at h

end TreeText

end GrammarTrees
