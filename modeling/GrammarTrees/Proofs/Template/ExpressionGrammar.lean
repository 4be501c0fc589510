import GrammarTrees.Proofs.Template.Expressions

/-! The grammar of expressions. An expression is a string, a name, or a name with arguments in
parentheses, and gaps may stand between its tokens. The open calls and the stage of a reader tell
which texts still complete what has been read, and it reads an expression from exactly these. -/

namespace GrammarTrees.Template.Expression

open Lexeme

/-! ### The grammar -/

def IsGap (cs : List Char) : Prop := ∀ c ∈ cs, isGap c = true

/-- A letter or an underscore, and letters, digits and underscores after it. -/
inductive IsName : List Char → Prop
  | mk {c : Char} {cs : List Char} (hstart : isNameStart c = true)
      (hparts : ∀ d ∈ cs, isNamePart d = true) : IsName (c :: cs)

mutual

/-- The characters from byte `offset` on are the expression. -/
inductive Spells : (offset : Nat) → List Char → Expression → Prop
  | literal {offset : Nat} {body : List Char} (hbody : Quotable '"' (fun _ => true) body) :
      Spells offset ('"' :: (body ++ ['"'])) (.literal (unescape body))
  | param {offset : Nat} {name : List Char} (hname : IsName name) :
      Spells offset name (.param (String.ofList name) offset)
  | call {offset : Nat} {name gap cs : List Char} {args : List Expression} (hname : IsName name)
      (hgap : IsGap gap)
      (hargs : SpellsArgs (offset + byteLength (name ++ (gap ++ ['(']))) cs args) :
      Spells offset (name ++ (gap ++ '(' :: cs)) (.call (String.ofList name) args offset)

/-- The characters are the arguments of a call, with its closing parenthesis. -/
inductive SpellsArgs : (offset : Nat) → List Char → List Expression → Prop
  | none {offset : Nat} {gap : List Char} (hgap : IsGap gap) : SpellsArgs offset (gap ++ [')']) []
  | some {offset : Nat} {cs : List Char} {es : List Expression} (h : SpellsList offset cs es) :
      SpellsArgs offset cs es

/-- The characters are one or more arguments, with the closing parenthesis. -/
inductive SpellsList : (offset : Nat) → List Char → List Expression → Prop
  | cons {offset : Nat} {gap cs more : List Char} {e : Expression} {es : List Expression}
      (hgap : IsGap gap) (he : Spells (offset + byteLength gap) cs e)
      (hmore : SpellsMore (offset + byteLength (gap ++ cs)) more es) :
      SpellsList offset (gap ++ (cs ++ more)) (e :: es)

/-- The characters are what follows an argument: further ones after a comma, or the closing
parenthesis. -/
inductive SpellsMore : (offset : Nat) → List Char → List Expression → Prop
  | nil {offset : Nat} {gap : List Char} (hgap : IsGap gap) : SpellsMore offset (gap ++ [')']) []
  | comma {offset : Nat} {gap cs : List Char} {es : List Expression} (hgap : IsGap gap)
      (h : SpellsList (offset + byteLength (gap ++ [','])) cs es) :
      SpellsMore offset (gap ++ ',' :: cs) es

end

variable {c : Char} {cs ds gap inner rest tail : List Char} {t : Token} {offset size n : Nat}
  {l : Lexeme Token} {ls : List (Lexeme Token)} {a e : Expression} {es : List Expression}
  {opened : OpenCall} {calls calls' calls'' : List OpenCall} {s s' s'' : Stage}

theorem IsGap.append (h : IsGap gap) (hcs : IsGap cs) : IsGap (gap ++ cs) :=
  List.forall_mem_append.mpr ⟨h, hcs⟩

/-! ### What a reader still needs -/

/-- After the expression `a`, the characters complete the open calls to the expression `e`. -/
inductive Completes :
    List OpenCall → (a : Expression) → (offset : Nat) → List Char → (e : Expression) → Prop
  | done {e : Expression} {offset : Nat} {gap : List Char} (hgap : IsGap gap) :
      Completes [] e offset gap e
  | close {opened : OpenCall} {calls : List OpenCall} {a e : Expression} {offset : Nat}
      {cs rest : List Char} {es : List Expression} (hmore : SpellsMore offset cs es)
      (hrest : Completes calls (.call opened.name (opened.args.reverse ++ a :: es) opened.offset)
        (offset + byteLength cs) rest e) :
      Completes (opened :: calls) a offset (cs ++ rest) e

/-- In the given stage, the characters complete what has been read to the expression `e`. -/
inductive Continues :
    List OpenCall → Stage → (offset : Nat) → List Char → (e : Expression) → Prop
  | operand {calls : List OpenCall} {afterOpening : Bool} {offset : Nat} {gap cs rest : List Char}
      {a e : Expression} (hgap : IsGap gap) (ha : Spells (offset + byteLength gap) cs a)
      (hrest : Completes calls a (offset + byteLength (gap ++ cs)) rest e) :
      Continues calls (.operand afterOpening) offset (gap ++ (cs ++ rest)) e
  | closing {opened : OpenCall} {calls : List OpenCall} {offset : Nat} {gap rest : List Char}
      {e : Expression} (hgap : IsGap gap)
      (hrest : Completes calls opened.expression (offset + byteLength (gap ++ [')'])) rest e) :
      Continues (opened :: calls) (.operand true) offset (gap ++ ')' :: rest) e
  | opening {calls : List OpenCall} {name : String} {start offset : Nat} {gap cs rest : List Char}
      {args : List Expression} {e : Expression} (hgap : IsGap gap)
      (hargs : SpellsArgs (offset + byteLength (gap ++ ['('])) cs args)
      (hrest : Completes calls (.call name args start) (offset + byteLength (gap ++ '(' :: cs))
        rest e) :
      Continues calls (.name name start) offset (gap ++ '(' :: (cs ++ rest)) e
  | settled {calls : List OpenCall} {s : Stage} {offset : Nat} {cs : List Char} {a e : Expression}
      (hs : s.settle = .complete a) (hrest : Completes calls a offset cs e) :
      Continues calls s offset cs e

theorem SpellsMore.gap_append (hgap : IsGap gap)
    (h : SpellsMore (offset + byteLength gap) cs es) : SpellsMore offset (gap ++ cs) es := by
  cases h with
  | nil hmore =>
    rw [← List.append_assoc]
    exact .nil (hgap.append hmore)
  | comma hmore h =>
    rw [Nat.add_assoc, ← byteLength_append, ← List.append_assoc] at h
    rw [← List.append_assoc]
    exact .comma (hgap.append hmore) h

theorem Completes.gap_append (hgap : IsGap gap)
    (h : Completes calls a (offset + byteLength gap) cs e) :
    Completes calls a offset (gap ++ cs) e := by
  cases h with
  | done hcs => exact .done (hgap.append hcs)
  | close hmore hrest =>
    rw [Nat.add_assoc, ← byteLength_append] at hrest
    rw [← List.append_assoc]
    exact .close (hmore.gap_append hgap) hrest

/-- A gap may stand before anything that completes what has been read. -/
theorem Continues.gap_append (hgap : IsGap gap)
    (h : Continues calls s (offset + byteLength gap) cs e) :
    Continues calls s offset (gap ++ cs) e := by
  cases h with
  | operand hgap' ha hrest =>
    rw [Nat.add_assoc, ← byteLength_append] at ha hrest
    rw [← List.append_assoc] at hrest ⊢
    exact .operand (hgap.append hgap') ha hrest
  | closing hgap' hrest =>
    rw [Nat.add_assoc, ← byteLength_append, ← List.append_assoc] at hrest
    rw [← List.append_assoc]
    exact .closing (hgap.append hgap') hrest
  | opening hgap' hargs hrest =>
    rw [Nat.add_assoc, ← byteLength_append, ← List.append_assoc] at hargs hrest
    rw [← List.append_assoc]
    exact .opening (hgap.append hgap') hargs hrest
  | settled hs hrest => exact .settled hs (hrest.gap_append hgap)

/-! ### Tokens -/

/-- The characters that a token is written as. -/
def Token.IsSpelled : Token → List Char → Prop
  | .name, cs => IsName cs
  | .opening, cs => cs = ['(']
  | .closing, cs => cs = [')']
  | .comma, cs => cs = [',']
  | .quoted, cs => ∃ body, Quotable '"' (fun _ => true) body ∧ cs = '"' :: (body ++ ['"'])
  | .close, cs => cs = ['>']
  | .gap, cs => IsGap cs

theorem isSpelled_of_scan (h : scan c (cs ++ rest) = ⟨some t, cs.length⟩) :
    t.IsSpelled (c :: cs) := by
  have single (u : Token) {d : Char} (hu : u.IsSpelled [d])
      (h : Scan.single u = ⟨some t, cs.length⟩) : t.IsSpelled (d :: cs) := by
    obtain ⟨ht, hlength⟩ := Scan.mk.inj h
    obtain rfl := Option.some.inj ht
    obtain rfl : cs = [] := List.length_eq_zero_iff.mp hlength.symm
    exact hu
  rw [scan.eq_def] at h
  split at h
  · exact single .opening rfl h
  · exact single .closing rfl h
  · exact single .comma rfl h
  · exact single .close rfl h
  · obtain ⟨ht, hlength⟩ := Scan.mk.inj h
    split at ht
    · rename_i hend
      obtain rfl := Option.some.inj ht
      obtain ⟨body, back, hcs, hbody, hn⟩ := exists_of_quotedRun (Prod.ext hend hlength)
      obtain ⟨rfl, -⟩ : cs = body ++ ['"'] ∧ rest = back :=
        List.append_inj (by simpa using hcs) (by simpa using hn)
      exact ⟨body, hbody, rfl⟩
    · cases ht
  · split at h
    · rename_i hname
      obtain ⟨ht, hlength⟩ := Scan.mk.inj h
      obtain rfl := Option.some.inj ht
      exact .mk hname (forall_of_length_takeWhile hlength).1
    · split at h
      · rename_i hgap
        obtain ⟨ht, hlength⟩ := Scan.mk.inj h
        obtain rfl := Option.some.inj ht
        exact List.forall_mem_cons.mpr ⟨hgap, (forall_of_length_takeWhile hlength).1⟩
      · cases h

/-! ### Steps -/

/-- What a lexeme with a token does to the open calls and the stage, if it may come. -/
inductive Steps : List OpenCall → Stage → Lexeme Token → List OpenCall → Stage → Prop
  | literal {calls : List OpenCall} {afterOpening : Bool} {cs : List Char} {offset : Nat} :
      Steps calls (.operand afterOpening) ⟨some .quoted, cs, offset⟩ calls
        (.complete (.literal (unquote '"' (String.ofList cs)).toList))
  | name {calls : List OpenCall} {afterOpening : Bool} {cs : List Char} {offset : Nat} :
      Steps calls (.operand afterOpening) ⟨some .name, cs, offset⟩ calls
        (.name (String.ofList cs) offset)
  | opening {calls : List OpenCall} {name : String} {start : Nat} {cs : List Char} {offset : Nat} :
      Steps calls (.name name start) ⟨some .opening, cs, offset⟩ (⟨name, start, []⟩ :: calls)
        (.operand true)
  | closing {opened : OpenCall} {calls : List OpenCall} {cs : List Char} {offset : Nat} :
      Steps (opened :: calls) (.operand true) ⟨some .closing, cs, offset⟩ calls
        (.complete opened.expression)
  | comma {opened : OpenCall} {calls : List OpenCall} {s : Stage} {a : Expression} {cs : List Char}
      {offset : Nat} (hs : s.settle = .complete a) :
      Steps (opened :: calls) s ⟨some .comma, cs, offset⟩ (opened.add a :: calls) (.operand false)
  | close {opened : OpenCall} {calls : List OpenCall} {s : Stage} {a : Expression} {cs : List Char}
      {offset : Nat} (hs : s.settle = .complete a) :
      Steps (opened :: calls) s ⟨some .closing, cs, offset⟩ calls
        (.complete (opened.add a).expression)

theorem step_eq_ok_iff :
    step calls s ⟨some t, cs, offset⟩ = .ok (calls', s') ↔
      Steps calls s ⟨some t, cs, offset⟩ calls' s' := by
  constructor
  · intro h
    -- each pair of a stage and a token has its own line in `step`
    cases s with
    | operand afterOpening =>
      cases afterOpening <;> cases calls <;> cases t <;> cases h <;> constructor
    | name | complete => cases calls <;> cases t <;> cases h <;> constructor <;> rfl
  · intro h
    cases h with
    | literal | name | opening | closing => rfl
    | comma hs | close hs => cases s <;> cases hs <;> rfl

/-- The lexemes that an expression is read from. -/
def significant (ls : List (Lexeme Token)) : List (Lexeme Token) :=
  ls.filter fun l => l.token ≠ some .gap

/-! ### Soundness -/

/-- Where an argument is expected, the arguments of the innermost open call come first. -/
theorem exists_spells_of_continues {afterOpening : Bool}
    (h : Continues (opened :: calls) (.operand afterOpening) offset cs e) :
    ∃ front back es, cs = front ++ back ∧ SpellsArgs offset front es ∧
      (afterOpening = false → SpellsList offset front es) ∧
      Completes calls (.call opened.name (opened.args.reverse ++ es) opened.offset)
        (offset + byteLength front) back e := by
  cases h with
  | @operand _ _ _ gap cs _ a _ hgap ha hrest =>
    cases hrest with
    | @close _ _ _ _ _ more back es hmore hrest =>
      have hlist : SpellsList offset (gap ++ (cs ++ more)) (a :: es) := .cons hgap ha hmore
      rw [Nat.add_assoc, ← byteLength_append, List.append_assoc] at hrest
      exact ⟨_, back, a :: es, by simp, .some hlist, fun _ => hlist, hrest⟩
  | @closing _ _ _ gap back _ hgap hrest =>
    refine ⟨gap ++ [')'], back, [], by simp, .none hgap, nofun, ?_⟩
    rwa [List.append_nil]
  | settled hs _ => cases hs

/-- Before a lexeme, its characters and what completes the state after it are needed. -/
theorem continues_of_steps (hstep : Steps calls s ⟨some t, cs, offset⟩ calls' s')
    (ht : t.IsSpelled cs) (h : Continues calls' s' (offset + byteLength cs) ds e) :
    Continues calls s offset (cs ++ ds) e := by
  have hnil : IsGap [] := List.forall_mem_nil _
  cases hstep with
  | literal =>
    obtain ⟨body, hbody, rfl⟩ := ht
    cases h with
    | settled hs hrest =>
      cases hs
      rw [unquote_quoted, String.toList_ofList] at hrest
      exact .operand hnil (.literal hbody) hrest
  | @name _ afterOpening =>
    cases h with
    | @opening _ _ _ _ gap cs' rest _ _ hgap hargs hrest =>
      rw [Nat.add_assoc, ← byteLength_append] at hargs hrest
      have hcall : Spells offset (cs ++ (gap ++ '(' :: cs')) _ := .call ht hgap hargs
      have h : Continues calls (.operand afterOpening) offset ([] ++ _) e :=
        .operand hnil hcall hrest
      simpa using h
    | settled hs hrest =>
      cases hs
      exact .operand hnil (.param ht) hrest
  | opening =>
    obtain rfl := ht
    obtain ⟨front, back, args, rfl, hargs, -, hrest⟩ := exists_spells_of_continues h
    rw [Nat.add_assoc, ← byteLength_append] at hrest
    have h : Continues calls (.name _ _) offset ([] ++ '(' :: (front ++ back)) e :=
      .opening hnil hargs hrest
    exact h
  | closing =>
    obtain rfl := ht
    cases h with
    | settled hs hrest =>
      cases hs
      exact .closing hnil hrest
  | @comma opened calls _ a _ _ hs =>
    obtain rfl := ht
    obtain ⟨front, back, es, rfl, -, hlist, hrest⟩ := exists_spells_of_continues h
    have hmore : SpellsMore offset ([] ++ ',' :: front) es := .comma hnil (hlist rfl)
    rw [Nat.add_assoc, ← byteLength_append] at hrest
    have hargs : (opened.add a).args.reverse ++ es = opened.args.reverse ++ a :: es := by
      simp [OpenCall.add]
    rw [hargs] at hrest
    have h : Completes (opened :: calls) a offset (([] ++ ',' :: front) ++ back) e :=
      .close hmore hrest
    exact .settled hs h
  | @close opened _ _ a _ _ hs =>
    obtain rfl := ht
    cases h with
    | settled hs' hrest =>
      cases hs'
      refine .settled hs ?_
      have hmore : SpellsMore offset ([] ++ [')']) [] := .nil hnil
      refine Completes.close hmore ?_
      simpa [OpenCall.expression, OpenCall.add] using hrest

/-- What is read to the end completes the state in which it is read. -/
theorem continues_of_ofLexemes {close : Lexeme Token} (hcut : Cut scan rest offset cs ls)
    (hls : ∀ l ∈ ls, isLast l = false)
    (h : ofLexemes close calls s (significant ls) = .ok e) : Continues calls s offset cs e := by
  have hnil : IsGap [] := List.forall_mem_nil _
  induction hcut generalizing calls s with
  | nil =>
    cases s <;> cases calls <;> cases h
    · exact .settled rfl (.done hnil)
    · exact .settled rfl (.done hnil)
  | @cons offset c cs ds token ls hscan _ ih =>
    obtain ⟨hl, hmore⟩ := List.forall_mem_cons.mp hls
    cases token with
    | none => simp [isLast] at hl
    | some t =>
      have ht := isSpelled_of_scan hscan
      by_cases hgap : t = .gap
      · subst hgap
        rw [significant, List.filter_cons_of_neg (by simp)] at h
        exact (ih hmore h).gap_append ht
      · rw [significant, List.filter_cons_of_pos (by simpa using hgap), ofLexemes] at h
        obtain ⟨⟨calls', s'⟩, hstep, h⟩ := bind_eq_ok h
        exact continues_of_steps (step_eq_ok_iff.mp hstep) ht (ih hmore h)

/-! ### Completeness -/

theorem scan_of_isNameStart (h : isNameStart c = true) (cs : List Char) :
    scan c cs = .run .name isNamePart cs := by
  rw [scan.eq_def]
  split <;> first | exact absurd h (by decide) | rw [if_pos h]

theorem eq_of_isGap (h : isGap c = true) : c = ' ' ∨ c = '\t' ∨ c = '\r' ∨ c = '\n' := by
  simpa [isGap, or_assoc] using h

theorem scan_of_isGap (h : isGap c = true) (cs : List Char) :
    scan c cs = .run .gap isGap cs := by
  rcases eq_of_isGap h with rfl | rfl | rfl | rfl <;> rfl

theorem isGap_of_isNameStart (h : isNameStart c = true) : isGap c = false := by
  rw [Bool.eq_false_iff]
  intro hgap
  rcases eq_of_isGap hgap with rfl | rfl | rfl | rfl <;> revert h <;> decide

/-- What a name that ends here can be followed by. -/
def EndsName (tail : List Char) : Prop := ∀ c ∈ tail.head?, isNamePart c = false

theorem EndsName.gap_append (hgap : IsGap gap) (h : EndsName tail) : EndsName (gap ++ tail) := by
  cases gap with
  | nil => exact h
  | cons c cs =>
    intro d hd
    obtain rfl : c = d := by simpa using hd
    rcases eq_of_isGap (hgap c List.mem_cons_self) with rfl | rfl | rfl | rfl <;> decide

theorem SpellsMore.endsName (h : SpellsMore offset cs es) (tail : List Char) :
    EndsName (cs ++ tail) := by
  cases h with
  | nil hgap =>
    rw [List.append_assoc]
    exact EndsName.gap_append hgap (by simp [EndsName, isNamePart, isNameStart])
  | comma hgap =>
    rw [List.append_assoc]
    exact EndsName.gap_append hgap (by simp [EndsName, isNamePart, isNameStart])

/-- An expression starts with no gap. -/
theorem Spells.isGap_head (h : Spells offset cs e) (tail : List Char) :
    ∀ c ∈ (cs ++ tail).head?, isGap c = false := by
  have hname {name : List Char} (h : IsName name) (tail : List Char) :
      ∀ c ∈ (name ++ tail).head?, isGap c = false := by
    cases h with
    | mk hstart => simpa using isGap_of_isNameStart hstart
  cases h with
  | literal => simp [isGap]
  | param h => exact hname h tail
  | call h =>
    rw [List.append_assoc]
    exact hname h _

/-- In front of `tail`, the characters are cut into lexemes that bring a reader from one state to
another. -/
def Brings (tail : List Char) (offset : Nat) (cs : List Char) (calls : List OpenCall) (s : Stage)
    (calls' : List OpenCall) (s' : Stage) : Prop :=
  ∃ ls, Cut scan tail offset cs ls ∧ (∀ l ∈ ls, isLast l = false) ∧
    ∀ close more, ofLexemes close calls s (significant ls ++ more) = ofLexemes close calls' s' more

theorem Brings.trans (h : Brings (ds ++ tail) offset cs calls s calls' s')
    (hds : Brings tail (offset + byteLength cs) ds calls' s' calls'' s'') :
    Brings tail offset (cs ++ ds) calls s calls'' s'' := by
  obtain ⟨ls, hcut, hls, hread⟩ := h
  obtain ⟨ls', hcut', hls', hread'⟩ := hds
  refine ⟨ls ++ ls', hcut.append hcut', List.forall_mem_append.mpr ⟨hls, hls'⟩,
    fun close more => ?_⟩
  rw [significant, List.filter_append, List.append_assoc]
  exact (hread close _).trans (hread' close more)

theorem brings_gap (hgap : IsGap gap) (htail : ∀ c ∈ tail.head?, isGap c = false) (offset : Nat)
    (calls : List OpenCall) (s : Stage) : Brings tail offset gap calls s calls s := by
  cases gap with
  | nil => exact ⟨[], .nil offset, nofun, fun _ _ => rfl⟩
  | cons c cs =>
    obtain ⟨hc, hcs⟩ := List.forall_mem_cons.mp hgap
    have hscan : scan c (cs ++ tail) = ⟨some .gap, cs.length⟩ := by
      rw [scan_of_isGap hc, Scan.run, takeWhile_append_of_head? hcs htail]
    refine ⟨_, .single hscan offset, ?_, fun _ _ => rfl⟩
    simp [isLast]

theorem brings_token (t : Token) (hscan : scan c (cs ++ tail) = ⟨some t, cs.length⟩)
    (hgap : t ≠ .gap) (hclose : t ≠ .close)
    (hstep : Steps calls s ⟨some t, c :: cs, offset⟩ calls' s') :
    Brings tail offset (c :: cs) calls s calls' s' := by
  refine ⟨_, .single hscan offset, ?_, fun close more => ?_⟩
  · simpa [isLast] using hclose
  · rw [significant, List.filter_cons_of_pos (by simpa using hgap), List.filter_nil,
      List.singleton_append, ofLexemes, step_eq_ok_iff.mpr hstep]
    rfl

theorem brings_name (h : IsName cs) (htail : EndsName tail) (offset : Nat)
    (calls : List OpenCall) (afterOpening : Bool) :
    Brings tail offset cs calls (.operand afterOpening) calls
      (.name (String.ofList cs) offset) := by
  cases h with
  | mk hstart hparts =>
    refine brings_token .name ?_ (by decide) (by decide) .name
    rw [scan_of_isNameStart hstart, Scan.run, takeWhile_append_of_head? hparts htail]

theorem brings_literal {body : List Char} (h : Quotable '"' (fun _ => true) body)
    (tail : List Char) (offset : Nat) (calls : List OpenCall) (afterOpening : Bool) :
    Brings tail offset ('"' :: (body ++ ['"'])) calls (.operand afterOpening) calls
      (.complete (.literal (unescape body))) := by
  refine brings_token .quoted ?_ (by decide) (by decide) ?_
  · rw [scan_quote, List.append_assoc, List.singleton_append, h.quotedRun_eq (by decide)]
    simp
  · rw [← String.toList_ofList (l := unescape body), ← unquote_quoted]
    exact .literal

theorem brings_gap_token (hgap : IsGap gap) (hc : isGap c = false)
    (h : Brings tail (offset + byteLength gap) (c :: cs) calls s calls' s') :
    Brings tail offset (gap ++ c :: cs) calls s calls' s' :=
  (brings_gap hgap (by simpa using hc) offset calls s).trans h

mutual

/-- An expression is read as what it spells. -/
theorem exists_brings {offset : Nat} {cs : List Char} {e : Expression} (h : Spells offset cs e)
    {tail : List Char} (htail : EndsName tail) (calls : List OpenCall) (afterOpening : Bool) :
    ∃ s, s.settle = .complete e ∧
      Brings tail offset cs calls (.operand afterOpening) calls s := by
  match h with
  | .literal hbody => exact ⟨_, rfl, brings_literal hbody tail offset calls afterOpening⟩
  | .param hname => exact ⟨_, rfl, brings_name hname htail offset calls afterOpening⟩
  | @Spells.call _ name gap cs _ hname hgap hargs =>
    have hopens : EndsName ((gap ++ '(' :: cs) ++ tail) := by
      rw [List.append_assoc]
      exact EndsName.gap_append hgap (by simp [EndsName, isNamePart, isNameStart])
    have hcs := brings_args hargs tail ⟨String.ofList name, offset, []⟩ calls
    rw [byteLength_append, byteLength_append, ← Nat.add_assoc, ← Nat.add_assoc] at hcs
    refine ⟨_, rfl, (brings_name hname hopens offset calls afterOpening).trans
      (brings_gap_token hgap (by decide) (Brings.trans ?_ hcs))⟩
    exact brings_token .opening rfl (by decide) (by decide) .opening

theorem brings_args {offset : Nat} {cs : List Char} {es : List Expression}
    (h : SpellsArgs offset cs es) (tail : List Char) (opened : OpenCall) (calls : List OpenCall) :
    Brings tail offset cs (opened :: calls) (.operand true) calls
      (.complete (.call opened.name (opened.args.reverse ++ es) opened.offset)) := by
  match h with
  | .none hgap =>
    rw [List.append_nil]
    exact brings_gap_token hgap (by decide)
      (brings_token .closing rfl (by decide) (by decide) .closing)
  | .some h => exact brings_list h tail opened calls true

theorem brings_list {offset : Nat} {cs : List Char} {es : List Expression}
    (h : SpellsList offset cs es) (tail : List Char) (opened : OpenCall) (calls : List OpenCall)
    (afterOpening : Bool) :
    Brings tail offset cs (opened :: calls) (.operand afterOpening) calls
      (.complete (.call opened.name (opened.args.reverse ++ es) opened.offset)) := by
  match h with
  | .cons hgap he hmore =>
    obtain ⟨s, hs, hfirst⟩ := exists_brings he (hmore.endsName tail) (opened :: calls) afterOpening
    have hrest := brings_more hmore tail opened calls hs
    rw [byteLength_append, ← Nat.add_assoc] at hrest
    refine (brings_gap hgap ?_ offset _ _).trans (hfirst.trans hrest)
    rw [List.append_assoc]
    exact he.isGap_head _

theorem brings_more {offset : Nat} {cs : List Char} {es : List Expression}
    (h : SpellsMore offset cs es) (tail : List Char) (opened : OpenCall) (calls : List OpenCall)
    {s : Stage} {a : Expression} (hs : s.settle = .complete a) :
    Brings tail offset cs (opened :: calls) s calls
      (.complete (.call opened.name (opened.args.reverse ++ a :: es) opened.offset)) := by
  have hadd (es : List Expression) :
      (opened.add a).args.reverse ++ es = opened.args.reverse ++ a :: es := by
    simp [OpenCall.add]
  match h with
  | .nil hgap =>
    rw [← hadd, List.append_nil]
    exact brings_gap_token hgap (by decide)
      (brings_token .closing rfl (by decide) (by decide) (.close hs))
  | .comma hgap h =>
    have hlist := brings_list h tail (opened.add a) calls false
    rw [hadd, byteLength_append, ← Nat.add_assoc] at hlist
    refine brings_gap_token hgap (by decide) (Brings.trans ?_ hlist)
    exact brings_token .comma rfl (by decide) (by decide) (.comma hs)

end

/-! ### Reading -/

/-- An expression is read from exactly the texts that spell it, gaps around them apart, up to the
first closing mark after them. -/
theorem read_eq_ok_iff : read size offset cs = .ok (e, n) ↔
    ∃ before inner after rest, cs = before ++ (inner ++ (after ++ '>' :: rest)) ∧
      n = (before ++ (inner ++ after)).length + 1 ∧ IsGap before ∧ IsGap after ∧
      Spells (offset + byteLength before) inner e := by
  constructor
  · intro h
    obtain ⟨inner, rest, ls, rfl, rfl, hcut, hls, he⟩ := exists_cut_of_read h
    cases continues_of_ofLexemes hcut hls he with
    | @operand _ _ _ before cs _ a _ hbefore ha hrest =>
      cases hrest with
      | done hafter => exact ⟨before, cs, _, rest, by simp, rfl, hbefore, hafter, ha⟩
    | settled hs => cases hs
  · rintro ⟨before, inner, after, rest, rfl, rfl, hbefore, hafter, he⟩
    have hends : EndsName (after ++ '>' :: rest) :=
      EndsName.gap_append hafter (by simp [EndsName, isNamePart, isNameStart])
    obtain ⟨s, hs, hfirst⟩ := exists_brings he hends [] false
    have hgap : Brings ((inner ++ after) ++ '>' :: rest) offset before [] (.operand false) []
        (.operand false) := by
      refine brings_gap hbefore ?_ _ _ _
      rw [List.append_assoc]
      exact he.isGap_head _
    have hlast : Brings ('>' :: rest) (offset + byteLength before + byteLength inner) after [] s
        [] s := brings_gap hafter (by simp [isGap]) _ _ _
    obtain ⟨ls, hcut, hls, hread⟩ := hgap.trans (hfirst.trans hlast)
    have hend (close : Lexeme Token) : ofLexemes close [] (.operand false) (significant ls) =
        .ok e := by
      have h := hread close []
      rw [List.append_nil] at h
      simp [h, ofLexemes, hs]
    have hinner : before ++ (inner ++ (after ++ '>' :: rest)) =
        (before ++ (inner ++ after)) ++ '>' :: rest := by simp
    rw [hinner, read_of_cut hcut hls]
    exact congrArg (Except.map _) (hend _)

/-- No expression starts like a comment. -/
theorem head?_ne_of_read {r : Expression × Nat} (h : read size offset cs = .ok r) :
    cs.head? ≠ some '!' := by
  intro hmark
  obtain ⟨cs, rfl⟩ := List.head?_eq_some_iff.mp hmark
  cases h

/-! ### Names -/

mutual

/-- The names in an expression, each with the byte at which it stands. -/
def names : Expression → List (String × Nat)
  | .literal _ => []
  | .param name offset => [(name, offset)]
  | .call name args offset => (name, offset) :: namesAll args

def namesAll : List Expression → List (String × Nat)
  | [] => []
  | e :: es => e.names ++ namesAll es

end

/-- In the characters from byte `offset` on, the name stands at its byte. -/
def NameAt (offset : Nat) (cs : List Char) (p : String × Nat) : Prop :=
  ∃ front rest, cs = front ++ (p.1.toList ++ rest) ∧ p.2 = offset + byteLength front

variable {p : String × Nat}

theorem nameAt_ofList (offset : Nat) (cs rest : List Char) :
    NameAt offset (cs ++ rest) (String.ofList cs, offset) :=
  ⟨[], rest, by simp, rfl⟩

theorem NameAt.append_right (h : NameAt offset cs p) (rest : List Char) :
    NameAt offset (cs ++ rest) p := by
  obtain ⟨front, back, rfl, hp⟩ := h
  exact ⟨front, back ++ rest, by simp, hp⟩

theorem NameAt.append_left {front : List Char} (h : NameAt (offset + byteLength front) cs p) :
    NameAt offset (front ++ cs) p := by
  obtain ⟨front', back, rfl, hp⟩ := h
  exact ⟨front ++ front', back, by simp, by rw [hp, byteLength_append, Nat.add_assoc]⟩

mutual

theorem nameAt_of_spells {offset : Nat} {cs : List Char} {e : Expression}
    (h : Spells offset cs e) : ∀ p ∈ e.names, NameAt offset cs p := by
  match h with
  | .literal _ => exact nofun
  | .param _ =>
    intro p hp
    obtain rfl := List.mem_singleton.mp hp
    have h := nameAt_ofList offset cs []
    rwa [List.append_nil] at h
  | @Spells.call _ name gap cs args _ _ hargs =>
    refine List.forall_mem_cons.mpr ⟨nameAt_ofList offset name _, fun p hp => ?_⟩
    have h := (nameAt_of_spellsArgs hargs p hp).append_left
    simpa using h

theorem nameAt_of_spellsArgs {offset : Nat} {cs : List Char} {es : List Expression}
    (h : SpellsArgs offset cs es) : ∀ p ∈ namesAll es, NameAt offset cs p := by
  match h with
  | .none _ => exact nofun
  | .some h => exact nameAt_of_spellsList h

theorem nameAt_of_spellsList {offset : Nat} {cs : List Char} {es : List Expression}
    (h : SpellsList offset cs es) : ∀ p ∈ namesAll es, NameAt offset cs p := by
  match h with
  | @SpellsList.cons _ gap cs more _ _ _ he hmore =>
    refine List.forall_mem_append.mpr ⟨fun p hp => ?_, fun p hp => ?_⟩
    · exact ((nameAt_of_spells he p hp).append_right more).append_left
    · have h := (nameAt_of_spellsMore hmore p hp).append_left
      rwa [List.append_assoc] at h

theorem nameAt_of_spellsMore {offset : Nat} {cs : List Char} {es : List Expression}
    (h : SpellsMore offset cs es) : ∀ p ∈ namesAll es, NameAt offset cs p := by
  match h with
  | .nil _ => exact nofun
  | .comma _ h =>
    intro p hp
    have h := (nameAt_of_spellsList h p hp).append_left
    simpa using h

end

end GrammarTrees.Template.Expression
