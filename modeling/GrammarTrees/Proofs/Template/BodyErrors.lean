import GrammarTrees.Proofs.Text.Lexemes
import GrammarTrees.Template.Body

/-! Errors in the bodies of templates stand where the compiler stopped: the character or the token
that is wrong is found there, and nothing at all if the body ended too soon. -/

namespace GrammarTrees.Template

open Lexeme

variable {τ : Type} {scan : Scanner τ} {last : Lexeme τ → Bool} {l : Lexeme τ} {e : SyntaxError}
  {c : Char} {cs : List Char} {size offset skip : Nat}

/-- A computation fails in its first step or in what follows it. -/
theorem bind_eq_error {ε α β : Type} {x : Except ε α} {f : α → Except ε β} {e : ε}
    (h : x >>= f = .error e) : x = .error e ∨ ∃ a, x = .ok a ∧ f a = .error e := by
  cases x with
  | error e' => exact .inl (congrArg Except.error (Except.error.inj h))
  | ok a => exact .inr ⟨a, rfl, h⟩

/-- A computation succeeds if its first step and what follows it do. -/
theorem bind_eq_ok {ε α β : Type} {x : Except ε α} {f : α → Except ε β} {b : β}
    (h : x >>= f = .ok b) : ∃ a, x = .ok a ∧ f a = .ok b := by
  cases x with
  | error e => cases h
  | ok a => exact ⟨a, rfl, h⟩

/-- The error that a compiler reports when it has `cs` in front of it. -/
def SyntaxFault.StandsAt : SyntaxFault → (cs : List Char) → Prop
  | prematureEnd, cs => cs = []
  | invalidCharacter c, cs => cs.head? = some c
  | mismatched found _, cs => found ≠ "" ∧ found.toList <+: cs
  | _, _ => False

/-- The error stands at its place in the text `cs`, which starts at byte `offset`. -/
def SyntaxError.StandsIn (e : SyntaxError) (offset : Nat) (cs : List Char) : Prop :=
  ∃ done todo, cs = done ++ todo ∧ e.offset = offset + byteLength done ∧ e.fault.StandsAt todo

theorem SyntaxError.StandsIn.append_left (front : List Char)
    (h : e.StandsIn (offset + byteLength front) cs) : e.StandsIn offset (front ++ cs) := by
  obtain ⟨done, todo, rfl, hoffset, hfault⟩ := h
  refine ⟨front ++ done, todo, (List.append_assoc ..).symm, ?_, hfault⟩
  rw [hoffset, byteLength_append, Nat.add_assoc]

theorem standsIn_prematureEnd (hsize : size = offset + byteLength cs) :
    SyntaxError.StandsIn ⟨.prematureEnd, size⟩ offset cs :=
  ⟨cs, [], (List.append_nil cs).symm, hsize, rfl⟩

theorem standsIn_mismatched (hl : l ∈ readFrom scan last offset 0 cs) (expecting : String) :
    SyntaxError.StandsIn ⟨.mismatched l.text expecting, l.offset⟩ offset cs := by
  obtain ⟨front, c, rest, rfl, rfl⟩ := exists_of_mem_readFrom hl
  refine ⟨front, c :: rest, rfl, rfl, by simp [Lexeme.text], ?_⟩
  rw [Lexeme.text, String.toList_ofList, List.cons_prefix_cons]
  exact ⟨rfl, List.take_prefix _ rest⟩

theorem standsIn_strayError (hl : l ∈ readFrom scan last offset 0 cs)
    (hsize : size = offset + byteLength cs) (openers : List (List Char)) :
    (strayError openers size l).StandsIn offset cs := by
  unfold strayError
  split
  · exact standsIn_prematureEnd hsize
  · obtain ⟨front, c, rest, rfl, rfl⟩ := exists_of_mem_readFrom hl
    exact ⟨front, c :: rest, rfl, rfl, rfl⟩

/-! ### Expressions -/

namespace Expression

variable {calls : List OpenCall} {s : Stage} {ls : List (Lexeme Token)}

theorem step_eq_error {l : Lexeme Token} (h : step calls s l = .error e) :
    ∃ expecting, e = ⟨.mismatched l.text expecting, l.offset⟩ := by
  unfold step at h
  split at h
  · simp at h
  · split at h <;> first | simp at h | exact ⟨_, (Except.error.inj h).symm⟩

theorem ofLexemes_eq_error {close : Lexeme Token} (h : ofLexemes close calls s ls = .error e) :
    ∃ l ∈ close :: ls, ∃ expecting, e = ⟨.mismatched l.text expecting, l.offset⟩ := by
  induction ls generalizing calls s with
  | nil =>
    refine ⟨close, List.mem_singleton_self close, ?_⟩
    unfold ofLexemes at h
    split at h <;> first | simp at h | exact ⟨_, (Except.error.inj h).symm⟩
  | cons l ls ih =>
    rw [ofLexemes] at h
    rcases bind_eq_error h with h | ⟨next, -, h⟩
    · exact ⟨l, List.mem_cons_of_mem close List.mem_cons_self, step_eq_error h⟩
    · obtain ⟨k, hk, he⟩ := ih h
      exact ⟨k, (List.Sublist.refl ls).cons l |>.cons_cons close |>.mem hk, he⟩

theorem standsIn_of_read (h : read size offset cs = .error e)
    (hsize : size = offset + byteLength cs) : e.StandsIn offset cs := by
  unfold read at h
  simp only at h
  split at h
  · rename_i l hlast
    have hl := List.mem_of_getLast? hlast
    split at h
    · rw [← Except.error.inj h]
      exact standsIn_strayError hl hsize _
    · rcases bind_eq_error h with h | ⟨_, -, h⟩
      · obtain ⟨k, hk, expecting, rfl⟩ := ofLexemes_eq_error h
        have hmem : k ∈ readFrom scan isLast offset 0 cs := by
          rcases List.mem_cons.mp hk with rfl | hk
          · exact hl
          · exact List.dropLast_subset _ (List.mem_filter.mp hk).1
        exact standsIn_mismatched hmem expecting
      · simp [pure, Except.pure] at h
    · rw [← Except.error.inj h]
      exact standsIn_prematureEnd hsize
  · rw [← Except.error.inj h]
    exact standsIn_prematureEnd hsize

end Expression

/-! ### Bodies -/

theorem standsIn_of_pieceAt (h : pieceAt size offset c cs = .error e)
    (hsize : size = offset + byteLength (c :: cs)) : e.StandsIn offset (c :: cs) := by
  unfold pieceAt at h
  split at h
  · simp at h
  · simp at h
  · simp at h
  · split at h
    · simp at h
    · rw [← Except.error.inj h]
      exact standsIn_prematureEnd hsize
  · rcases bind_eq_error h with h | ⟨_, -, h⟩
    · have hcs := Expression.standsIn_of_read h (by rw [hsize, byteLength_cons, Nat.add_assoc]; rfl)
      exact hcs.append_left ['<']
    · simp [pure, Except.pure] at h
  · simp at h

theorem standsIn_of_readPieces (h : readPieces size offset skip cs = .error e)
    (hsize : size = offset + byteLength cs) : e.StandsIn offset cs := by
  induction cs generalizing offset skip with
  | nil => simp [readPieces] at h
  | cons c cs ih =>
    -- an error further on is an error of the rest
    have hlater : ∀ skip', readPieces size (offset + c.utf8Size) skip' cs = .error e →
        e.StandsIn offset (c :: cs) := fun skip' h =>
      (ih h (by rw [hsize, byteLength_cons, Nat.add_assoc])).append_left [c]
    cases skip with
    | succ skip => exact hlater skip h
    | zero =>
      rw [readPieces] at h
      rcases bind_eq_error h with h | ⟨_, -, h⟩
      · exact standsIn_of_pieceAt h hsize
      · rcases bind_eq_error h with h | ⟨_, -, h⟩
        · exact hlater _ h
        · simp [pure, Except.pure] at h

theorem standsIn_of_compileBody {body : String} (h : compileBody body = .error e) :
    e.StandsIn 0 body.toList := by
  rcases bind_eq_error h with h | ⟨_, -, h⟩
  · exact standsIn_of_readPieces h (Nat.zero_add _).symm
  · simp [pure, Except.pure] at h

end GrammarTrees.Template
