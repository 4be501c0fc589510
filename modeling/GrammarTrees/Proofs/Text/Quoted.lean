import GrammarTrees.Proofs.Text.Lexemes
import GrammarTrees.Proofs.Template.Code
import GrammarTrees.Text.Quoted

/-! Texts between quotes, and what their escapes stand for. A text can stand between quotes if each
of its backslashes escapes the character after it; every escape is one byte longer than the
character it stands for. -/

namespace GrammarTrees

variable {quote c : Char} {allowed : Char → Bool} {cs ds rest : List Char} {n : Nat}

/-- The text ends neither before a quote of its own nor inside an escape. -/
inductive Quotable (quote : Char) (allowed : Char → Bool) : List Char → Prop
  | nil : Quotable quote allowed []
  | plain {c : Char} {cs : List Char} (hquote : c ≠ quote) (hescape : c ≠ '\\')
      (hallowed : allowed c = true) (hcs : Quotable quote allowed cs) :
      Quotable quote allowed (c :: cs)
  | escape {c : Char} {cs : List Char} (hline : c ≠ '\n') (hcs : Quotable quote allowed cs) :
      Quotable quote allowed ('\\' :: c :: cs)

/-! ### Quoted runs -/

theorem quotedRun_escape (h : c ≠ '\n') (cs : List Char) :
    quotedRun quote allowed ('\\' :: c :: cs) =
      ((quotedRun quote allowed cs).1, (quotedRun quote allowed cs).2 + 2) := by
  rw [quotedRun, if_neg h]

theorem quotedRun_plain (hb : c ≠ '\\') (hq : c ≠ quote) (ha : allowed c = true)
    (cs : List Char) : quotedRun quote allowed (c :: cs) =
      ((quotedRun quote allowed cs).1, (quotedRun quote allowed cs).2 + 1) := by
  rw [quotedRun, if_neg hq, if_pos ha]
  · exact fun h _ => hb h
  · exact fun _ _ h _ => hb h

theorem quotedRun_quote (hb : quote ≠ '\\') (cs : List Char) :
    quotedRun quote allowed (quote :: cs) = (true, 1) := by
  rw [quotedRun, if_pos rfl]
  · exact fun h _ => hb h
  · exact fun _ _ h _ => hb h

/-- A run ends at the first quote. -/
theorem Quotable.quotedRun_eq (h : Quotable quote allowed cs) (hb : quote ≠ '\\')
    (rest : List Char) : quotedRun quote allowed (cs ++ quote :: rest) = (true, cs.length + 1) := by
  induction h with
  | nil => exact quotedRun_quote hb rest
  | plain hquote hescape hallowed _ ih =>
    rw [List.cons_append, quotedRun_plain hescape hquote hallowed, ih]
    rfl
  | escape hline _ ih =>
    rw [List.cons_append, List.cons_append, quotedRun_escape hline, ih]
    rfl

/-- A run that ends with a quote has read a text that can stand between quotes. -/
theorem exists_of_quotedRun (h : quotedRun quote allowed cs = (true, n)) :
    ∃ body rest, cs = body ++ quote :: rest ∧ Quotable quote allowed body ∧
      n = body.length + 1 := by
  fun_induction quotedRun quote allowed cs generalizing n with
  | case1 => simp at h
  | case2 => simp at h
  | case3 cs => simp at h
  | case4 c cs hline _ =>
    rename_i ih
    obtain ⟨h1, h2⟩ := Prod.mk.inj h
    obtain ⟨body, rest, hcs, hbody, hn⟩ := ih (Prod.ext h1 rfl)
    exact ⟨'\\' :: c :: body, rest, by rw [hcs]; rfl, .escape hline hbody,
      h2.symm.trans (congrArg (· + 2) hn)⟩
  | case5 cs _ _ => exact ⟨[], cs, rfl, .nil, (Prod.mk.inj h).2.symm⟩
  | case6 c cs hend hescape hquote hallowed _ =>
    rename_i ih
    obtain ⟨h1, h2⟩ := Prod.mk.inj h
    obtain ⟨body, rest, hcs, hbody, hn⟩ := ih (Prod.ext h1 rfl)
    have hplain : c ≠ '\\' := by
      rintro rfl
      cases cs with
      | nil => exact hend rfl rfl
      | cons d ds => exact hescape d ds rfl rfl
    exact ⟨c :: body, rest, by rw [hcs]; rfl, .plain hquote hplain hallowed hbody,
      h2.symm.trans (congrArg (· + 1) hn)⟩
  | case7 c cs _ _ _ _ => simp at h

theorem quotedRun_le (quote : Char) (allowed : Char → Bool) (cs : List Char) :
    (quotedRun quote allowed cs).2 ≤ cs.length := by
  fun_induction quotedRun quote allowed cs with
  | case4 c cs _ _ =>
    rename_i ih
    exact Nat.add_le_add_right ih 2
  | case6 c cs _ _ _ _ _ =>
    rename_i ih
    exact Nat.add_le_add_right ih 1
  | _ => simp

/-! ### Escapes -/

theorem unescape_cons (h : c ≠ '\\') (cs : List Char) : unescape (c :: cs) = c :: unescape cs := by
  rw [unescape]
  · exact fun h' _ => h h'
  · exact fun _ _ h' _ => h h'

theorem unescape_append_of_not_mem (h : '\\' ∉ cs) (ds : List Char) :
    unescape (cs ++ ds) = cs ++ unescape ds := by
  induction cs with
  | nil => rfl
  | cons c cs ih =>
    rw [List.mem_cons, not_or] at h
    rw [List.cons_append, unescape_cons (Ne.symm h.1), ih h.2, List.cons_append]

theorem unquote_quoted (quote : Char) (cs : List Char) :
    unquote quote (String.ofList (quote :: (cs ++ [quote]))) = String.ofList (unescape cs) := by
  have hinside : inside? quote [quote] (quote :: (cs ++ [quote])) = some cs :=
    inside?_eq_some_iff.mpr rfl
  rw [unquote, String.toList_ofList, hinside, Option.getD_some]

/-- An escape has as many bytes as the character it stands for and the backslash. -/
theorem utf8Size_escaped (c : Char) : (escaped c).utf8Size = c.utf8Size := by
  unfold escaped
  split <;> rfl

end GrammarTrees
