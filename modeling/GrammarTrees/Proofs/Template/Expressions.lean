import GrammarTrees.Proofs.Template.BodyErrors
import GrammarTrees.Proofs.Template.Offsets
import GrammarTrees.Proofs.Text.Quoted

/-! Expressions in bodies of templates. Which expression is read depends on the characters up to its
closing mark and on nothing else, apart from the offsets in it. -/

namespace GrammarTrees.Template.Expression

open Lexeme

variable {c : Char} {cs inner rest rest' : List Char} {token : Token} {offset offset' size n : Nat}
  {l : Lexeme Token} {ls : List (Lexeme Token)} {e : Expression}

/-! ### The scanner -/

/-- Characters that belong to no token but string literals. -/
def IsForeign (c : Char) : Prop := c = '\\' ∨ c = '<'

/-- What the first character of a lexeme says about it. -/
inductive Starts (c : Char) : Prop
  | single (token : Token) (hc : ¬ IsForeign c) (hclose : token = .close → c = '>')
      (h : ∀ cs, scan c cs = .single token)
  | quoted (hc : c = '"')
  | run (token : Token) (p : Char → Bool) (hc : p c = true) (hp : ∀ d, IsForeign d → p d = false)
      (hclose : token ≠ .close) (h : ∀ cs, scan c cs = .run token p cs)
  | stray (h : ∀ cs, scan c cs = .stray)

theorem starts (c : Char) : Starts c := by
  by_cases hopening : c = '('
  · subst hopening
    exact .single .opening (by simp [IsForeign]) nofun fun _ => rfl
  by_cases hclosing : c = ')'
  · subst hclosing
    exact .single .closing (by simp [IsForeign]) nofun fun _ => rfl
  by_cases hcomma : c = ','
  · subst hcomma
    exact .single .comma (by simp [IsForeign]) nofun fun _ => rfl
  by_cases hclose : c = '>'
  · subst hclose
    exact .single .close (by simp [IsForeign]) (fun _ => rfl) fun _ => rfl
  by_cases hquoted : c = '"'
  · exact .quoted hquoted
  have h : ∀ cs, scan c cs = if isNameStart c then .run .name isNamePart cs
      else if isGap c then .run .gap isGap cs else .stray := by
    intro cs
    unfold scan
    split <;> first | contradiction | rfl
  by_cases hname : isNameStart c = true
  · refine .run .name isNamePart (by rw [isNamePart, hname]; rfl) ?_ nofun
      fun cs => by rw [h, if_pos hname]
    rintro d (rfl | rfl) <;> decide
  by_cases hgap : isGap c = true
  · refine .run .gap isGap hgap ?_ nofun fun cs => by rw [h, if_neg hname, if_pos hgap]
    rintro d (rfl | rfl) <;> decide
  · exact .stray fun cs => by rw [h, if_neg hname, if_neg hgap]

theorem scan_quote (cs : List Char) : scan '"' cs =
    ⟨if (quotedRun '"' (fun _ => true) cs).1 then some .quoted else none,
      (quotedRun '"' (fun _ => true) cs).2⟩ := rfl

theorem further_scan_le (c : Char) (cs : List Char) : (scan c cs).further ≤ cs.length := by
  cases starts c with
  | single token _ _ h => rw [h]; exact Nat.zero_le _
  | quoted hc => rw [hc]; exact quotedRun_le _ _ cs
  | run token p _ _ _ h => rw [h]; exact (List.takeWhile_prefix p).length_le
  | stray h => rw [h]; exact Nat.zero_le _

theorem eq_of_scan_close (h : (scan c cs).token = some .close) : c = '>' := by
  cases starts c with
  | single token _ hclose hscan =>
    rw [hscan] at h
    exact hclose (Option.some.inj h)
  | quoted hc =>
    rw [hc, scan_quote] at h
    split at h <;> cases h
  | run token p _ _ hclose hscan =>
    rw [hscan] at h
    exact absurd (Option.some.inj h) hclose
  | stray hscan =>
    rw [hscan] at h
    cases h

/-- What a token is depends on its characters and on the one after them. -/
theorem scan_congr (h : scan c (cs ++ rest) = ⟨some token, cs.length⟩)
    (hrest : rest.head? = rest'.head?) : scan c (cs ++ rest') = ⟨some token, cs.length⟩ := by
  cases starts c with
  | single token' _ _ hscan =>
    rw [hscan] at h ⊢
    exact h
  | quoted hc =>
    rw [hc, scan_quote] at h
    obtain ⟨htoken, hn⟩ := Scan.mk.inj h
    split at htoken
    · rename_i hend
      obtain ⟨body, back, hcs, hbody, hlength⟩ := exists_of_quotedRun (Prod.ext hend hn)
      obtain ⟨rfl, -⟩ : cs = body ++ ['"'] ∧ rest = back :=
        List.append_inj (by simpa using hcs) (by simpa using hlength)
      rw [hc, scan_quote, List.append_assoc, List.singleton_append,
        hbody.quotedRun_eq (by decide)]
      simpa using htoken
    · cases htoken
  | run token' p _ _ _ hscan =>
    rw [hscan] at h ⊢
    obtain ⟨htoken, hn⟩ := Scan.mk.inj h
    obtain ⟨hcs, hhead⟩ := forall_of_length_takeWhile hn
    rw [Scan.run, takeWhile_append_of_head? hcs (hrest ▸ hhead), htoken]
  | stray hscan =>
    rw [hscan] at h
    cases h

theorem not_isForeign (h : scan c (cs ++ rest) = ⟨some token, cs.length⟩) (hc : c ≠ '"') :
    ∀ d ∈ c :: cs, ¬ IsForeign d := by
  cases starts c with
  | single token' hforeign _ hscan =>
    rw [hscan] at h
    obtain rfl : cs = [] := List.length_eq_zero_iff.mp (Scan.mk.inj h).2.symm
    simpa using hforeign
  | quoted hquote => exact absurd hquote hc
  | run token' p hstart hp _ hscan =>
    rw [hscan] at h
    obtain ⟨hcs, -⟩ := forall_of_length_takeWhile (Scan.mk.inj h).2
    have hall : ∀ d ∈ c :: cs, p d = true := List.forall_mem_cons.mpr ⟨hstart, hcs⟩
    intro d hd hforeign
    exact absurd (hall d hd) (by simp [hp d hforeign])
  | stray hscan =>
    rw [hscan] at h
    cases h

/-! ### Lexemes -/

/-- The lexemes of an expression end with the first closing mark that stands between them. -/
theorem exists_cut_of_getLast (h : (readFrom scan isLast offset 0 cs).getLast? = some l)
    (hl : l.token = some .close) : ∃ inner rest ls, cs = inner ++ '>' :: rest ∧
      Cut scan ('>' :: rest) offset inner ls ∧ (∀ l ∈ ls, isLast l = false) := by
  -- A lexeme takes several characters at once, so the induction is on their number.
  induction hn : cs.length using Nat.strong_induction_on generalizing cs offset with
  | _ n ih =>
    cases cs with
    | nil => cases h
    | cons c cs =>
      rw [readFrom] at h
      split at h
      · obtain rfl := List.mem_singleton.mp (List.mem_of_getLast? h)
        rw [eq_of_scan_close hl]
        exact ⟨[], cs, [], rfl, .nil offset, by simp⟩
      · rename_i hlast
        obtain ⟨front, back, rfl, hfront⟩ : ∃ front back, cs = front ++ back ∧
            front.length = (scan c cs).further :=
          ⟨cs.take (scan c cs).further, cs.drop (scan c cs).further, by simp,
            List.length_take_of_le (further_scan_le c cs)⟩
        rw [← hfront, readFrom_skip, List.take_left, Nat.add_assoc, ← byteLength_cons] at h
        rw [← hfront, List.take_left] at hlast
        cases htail : readFrom scan isLast (offset + byteLength (c :: front)) 0 back with
        | nil =>
          rw [htail, List.getLast?_singleton, Option.some.injEq] at h
          rw [h, isLast, hl] at hlast
          simp at hlast
        | cons k ks =>
          rw [htail, List.getLast?_cons_cons, ← htail] at h
          obtain ⟨inner, rest, ls, rfl, hcut, hls⟩ := ih back.length (by simp at hn; omega) h rfl
          refine ⟨c :: front ++ inner, rest,
            ⟨(scan c (front ++ (inner ++ '>' :: rest))).token, c :: front, offset⟩ :: ls, by simp,
            .cons (by rw [hfront]) hcut, List.forall_mem_cons.mpr ⟨by simpa using hlast, hls⟩⟩

theorem readFrom_of_cut (hcut : Cut scan ('>' :: rest) offset inner ls)
    (hls : ∀ l ∈ ls, isLast l = false) :
    readFrom scan isLast offset 0 (inner ++ '>' :: rest) =
      ls ++ [⟨some .close, ['>'], offset + byteLength inner⟩] :=
  hcut.readFrom_eq hls

theorem read_of_cut (hcut : Cut scan ('>' :: rest) offset inner ls)
    (hls : ∀ l ∈ ls, isLast l = false) (size : Nat) :
    read size offset (inner ++ '>' :: rest) =
      (ofLexemes ⟨some .close, ['>'], offset + byteLength inner⟩ [] (.operand false)
        (ls.filter fun l => l.token ≠ some .gap)).map fun e => (e, inner.length + 1) := by
  unfold read
  rw [readFrom_of_cut hcut hls]
  simp only [List.getLast?_append, List.getLast?_singleton, Option.some_or, List.dropLast_concat,
    List.flatMap_append, hcut.flatMap_chars]
  cases ofLexemes ⟨some .close, ['>'], offset + byteLength inner⟩ [] (.operand false)
    (ls.filter fun l => l.token ≠ some .gap) <;>
      simp [bind, Except.bind, pure, Except.pure, Except.map]

theorem exists_cut_of_read (h : read size offset cs = .ok (e, n)) :
    ∃ inner rest ls, cs = inner ++ '>' :: rest ∧ n = inner.length + 1 ∧
      Cut scan ('>' :: rest) offset inner ls ∧ (∀ l ∈ ls, isLast l = false) ∧
      ofLexemes ⟨some .close, ['>'], offset + byteLength inner⟩ [] (.operand false)
        (ls.filter fun l => l.token ≠ some .gap) = .ok e := by
  have hread := h
  unfold read at h
  simp only at h
  split at h
  · rename_i l hlast
    split at h
    · cases h
    · rename_i hl
      obtain ⟨inner, rest, ls, rfl, hcut, hls⟩ := exists_cut_of_getLast hlast hl
      rw [read_of_cut hcut hls] at hread
      cases hls' : ofLexemes ⟨some .close, ['>'], offset + byteLength inner⟩ [] (.operand false)
          (ls.filter fun l => l.token ≠ some .gap) with
      | error e' =>
        rw [hls'] at hread
        cases hread
      | ok e' =>
        rw [hls'] at hread
        cases hread
        exact ⟨inner, rest, ls, rfl, rfl, hcut, hls, hls'⟩
    · cases h
  · cases h

/-! ### Offsets -/

def OpenCall.bare (c : OpenCall) : OpenCall := ⟨c.name, 0, c.args.map Expression.bare⟩

def Stage.bare : Stage → Stage
  | .operand afterOpening => .operand afterOpening
  | .name n _ => .name n 0
  | .complete e => .complete e.bare

@[simp] theorem OpenCall.bare_opened (n : String) (offset : Nat) :
    OpenCall.bare ⟨n, offset, []⟩ = ⟨n, 0, []⟩ := rfl

@[simp] theorem OpenCall.bare_add (c : OpenCall) (e : Expression) :
    (c.add e).bare = c.bare.add e.bare := rfl

@[simp] theorem OpenCall.bare_expression (c : OpenCall) :
    c.expression.bare = c.bare.expression := by
  simp [OpenCall.bare, OpenCall.expression, Expression.bare, bareAll_eq_map]

/-- Which stage follows depends on no offset. -/
theorem step_bare (calls : List OpenCall) (s : Stage) (l : Lexeme Token) :
    (step (calls.map OpenCall.bare) s.bare l.bare).toOption =
      (step calls s l).toOption.map fun next => (next.1.map OpenCall.bare, next.2.bare) := by
  obtain ⟨token, chars, offset⟩ := l
  -- each pair of a stage and a token has its own line in `step`
  cases s with
  | operand afterOpening =>
    cases afterOpening <;> cases calls <;> rcases token with _ | token <;> (try cases token) <;>
      simp [step, Stage.bare, Stage.settle, Lexeme.bare, mismatch, Except.toOption, Lexeme.text,
        Expression.bare]
  | name | complete =>
    cases calls <;> rcases token with _ | token <;> (try cases token) <;>
      simp [step, Stage.bare, Stage.settle, Lexeme.bare, mismatch, Except.toOption, Lexeme.text,
        Expression.bare]

theorem toOption_bind {ε α β : Type} (x : Except ε α) (f : α → Except ε β) :
    (x >>= f).toOption = x.toOption.bind fun a => (f a).toOption := by
  cases x <;> rfl

theorem ofLexemes_bare (close : Lexeme Token) (calls : List OpenCall) (s : Stage)
    (ls : List (Lexeme Token)) :
    (ofLexemes close.bare (calls.map OpenCall.bare) s.bare (ls.map Lexeme.bare)).toOption =
      (ofLexemes close calls s ls).toOption.map Expression.bare := by
  induction ls generalizing calls s with
  | nil =>
    cases s <;> cases calls <;>
      simp [ofLexemes, Stage.bare, Stage.settle, mismatch, Except.toOption, Expression.bare]
  | cons l ls ih =>
    rw [List.map_cons, ofLexemes, ofLexemes, toOption_bind, toOption_bind, step_bare,
      Option.bind_map, Option.map_bind]
    congr 1
    funext r
    exact ih r.1 r.2

/-! ### Expressions -/

/-- The characters of an expression are cut in the same way wherever they stand. -/
theorem exists_cut_of_cut (hcut : Cut scan ('>' :: rest) offset inner ls)
    (hls : ∀ l ∈ ls, isLast l = false) (rest' : List Char) (offset' : Nat) :
    ∃ ls', Cut scan ('>' :: rest') offset' inner ls' ∧
      ls'.map Lexeme.bare = ls.map Lexeme.bare := by
  induction hcut generalizing offset' with
  | nil => exact ⟨[], .nil offset', rfl⟩
  | @cons offset c cs ds token ls hscan _ ih =>
    obtain ⟨hl, hls⟩ := List.forall_mem_cons.mp hls
    obtain ⟨ls', hcut', hbare⟩ := ih hls (offset' + byteLength (c :: cs))
    cases token with
    | none => simp [isLast] at hl
    | some token =>
      exact ⟨_, .cons (scan_congr hscan (by simp)) hcut', congrArg (_ :: ·) hbare⟩

theorem not_isForeign_of_cut (hcut : Cut scan rest offset inner ls)
    (hls : ∀ l ∈ ls, isLast l = false) (hquote : '"' ∉ inner) : ∀ d ∈ inner, ¬ IsForeign d := by
  induction hcut with
  | nil => nofun
  | @cons offset c cs ds token ls hscan _ ih =>
    obtain ⟨hl, hrest⟩ := List.forall_mem_cons.mp hls
    rw [List.mem_append, not_or] at hquote
    cases token with
    | none => simp [isLast] at hl
    | some token =>
      refine List.forall_mem_append.mpr ⟨not_isForeign hscan ?_, ih hrest hquote.2⟩
      rintro rfl
      exact hquote.1 List.mem_cons_self

/-- Up to offsets, the characters in front of a closing mark are read as the expression `e`. -/
def Reads (inner : List Char) (e : Expression) : Prop :=
  ∀ size offset rest, ∃ e', read size offset (inner ++ '>' :: rest) = .ok (e', inner.length + 1) ∧
    e'.bare = e

theorem exists_reads_of_read (h : read size offset cs = .ok (e, n)) :
    ∃ inner rest, cs = inner ++ '>' :: rest ∧ n = inner.length + 1 ∧ Reads inner e.bare := by
  obtain ⟨inner, rest, ls, rfl, rfl, hcut, hls, he⟩ := exists_cut_of_read h
  refine ⟨inner, rest, rfl, rfl, fun size' offset' rest' => ?_⟩
  obtain ⟨ls', hcut', hbare⟩ := exists_cut_of_cut hcut hls rest' offset'
  have hls' : ∀ l ∈ ls', isLast l = false := by
    intro l hl
    obtain ⟨k, hk, hkl⟩ := List.mem_map.mp (hbare ▸ List.mem_map_of_mem hl)
    have htoken : k.token = l.token := (Lexeme.mk.inj hkl).1
    rw [isLast, ← htoken]
    exact hls k hk
  have hsignificant : (ls'.filter fun l => l.token ≠ some .gap).map Lexeme.bare =
      (ls.filter fun l => l.token ≠ some .gap).map Lexeme.bare := by
    have hfilter := congrArg (List.filter fun l => l.token ≠ some .gap) hbare
    rwa [List.filter_map, List.filter_map] at hfilter
  have hresult := ofLexemes_bare ⟨some .close, ['>'], offset' + byteLength inner⟩ []
    (.operand false) (ls'.filter fun l => l.token ≠ some .gap)
  have hclose : Lexeme.bare ⟨some Token.close, ['>'], offset' + byteLength inner⟩ =
      Lexeme.bare ⟨some Token.close, ['>'], offset + byteLength inner⟩ := rfl
  rw [hsignificant, hclose, ofLexemes_bare, he] at hresult
  rw [read_of_cut hcut' hls']
  cases he' : ofLexemes ⟨some .close, ['>'], offset' + byteLength inner⟩ [] (.operand false)
      (ls'.filter fun l => l.token ≠ some .gap) with
  | error e' =>
    rw [he'] at hresult
    cases hresult
  | ok e' =>
    rw [he'] at hresult
    exact ⟨e', rfl, (Option.some.inj hresult).symm⟩

theorem Reads.not_isForeign (h : Reads inner e) (hquote : '"' ∉ inner) :
    ∀ d ∈ inner, ¬ IsForeign d := by
  obtain ⟨e', hread, -⟩ := h 0 0 []
  obtain ⟨inner', rest, ls, hinner, hlength, hcut, hls, -⟩ := exists_cut_of_read hread
  obtain ⟨rfl, -⟩ := List.append_inj hinner (Nat.succ.inj hlength)
  exact not_isForeign_of_cut hcut hls hquote

end GrammarTrees.Template.Expression
