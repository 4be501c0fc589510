import GrammarTrees.Proofs.Template.BodyErrors
import GrammarTrees.Proofs.Template.Definitions

/-! The grammar of definitions in group files, and what is read of a text that holds them. Up to its
string a definition holds no string, so one that cannot be read is passed over with its string, and
what follows is read as if it were not there. -/

namespace GrammarTrees.Template.GroupText

/-! ### The grammar -/

/-- Parameters that follow others, each after a comma. -/
inductive IsMoreParams : List (Lexeme Token) → List String → Prop
  | nil : IsMoreParams [] []
  | cons {comma param : Lexeme Token} {ls : List (Lexeme Token)} {params : List String}
      (hcomma : comma.token = some .comma) (hparam : param.token = some .name)
      (h : IsMoreParams ls params) : IsMoreParams (comma :: param :: ls) (param.text :: params)

inductive IsParams : List (Lexeme Token) → List String → Prop
  | nil : IsParams [] []
  | cons {param : Lexeme Token} {ls : List (Lexeme Token)} {params : List String}
      (hparam : param.token = some .name) (h : IsMoreParams ls params) :
      IsParams (param :: ls) (param.text :: params)

/-- The body that a string stands for, and the byte it starts at. -/
inductive IsBody : Lexeme Token → String × Nat → Prop
  | bigString {l : Lexeme Token} (h : l.token = some .bigString) :
      IsBody l (bigStringBody l.chars l.offset)
  | quoted {l : Lexeme Token} (h : l.token = some .quoted) :
      IsBody l (unquote '"' l.text, l.offset + 1)

/-- The lexemes are a complete definition. -/
inductive IsDefinition : List (Lexeme Token) → Definition → Prop
  | mk {name opening closing defines string : Lexeme Token} {ls : List (Lexeme Token)}
      {params : List String} {body : String × Nat} (hname : name.token = some .name)
      (hopening : opening.token = some .opening) (hparams : IsParams ls params)
      (hclosing : closing.token = some .closing) (hdefines : defines.token = some .defines)
      (hbody : IsBody string body) :
      IsDefinition (name :: opening :: (ls ++ [closing, defines, string]))
        ⟨name.text, name.offset, params, body.1, body.2⟩

/-- Lexemes up to their first string. -/
def IsSegment (segment : List (Lexeme Token)) : Prop :=
  ∃ front l, segment = front ++ [l] ∧ Stringless front ∧ l.token.any Token.isString = true

variable {l : Lexeme Token} {ls front more rest segment : List (Lexeme Token)} {d : Definition}
  {params : List String} {body : String × Nat} {token : Token} {failure : Failure} {size : Nat}

theorem IsMoreParams.stringless (h : IsMoreParams ls params) : Stringless ls := by
  induction h with
  | nil => exact nofun
  | cons hcomma hparam _ ih =>
    exact List.forall_mem_cons.mpr ⟨⟨_, hcomma, rfl⟩,
      List.forall_mem_cons.mpr ⟨⟨_, hparam, rfl⟩, ih⟩⟩

theorem IsParams.stringless (h : IsParams ls params) : Stringless ls := by
  cases h with
  | nil => exact nofun
  | cons hparam h => exact List.forall_mem_cons.mpr ⟨⟨_, hparam, rfl⟩, h.stringless⟩

theorem IsBody.isString (h : IsBody l body) : l.token.any Token.isString = true := by
  cases h with
  | bigString h | quoted h => rw [h]; rfl

/-- A definition ends with its string, which is the first one in it. -/
theorem IsDefinition.isSegment (h : IsDefinition ls d) : IsSegment ls := by
  cases h with
  | @mk name opening closing defines string ls _ _ hname hopening hparams hclosing hdefines hbody =>
    refine ⟨name :: opening :: (ls ++ [closing, defines]), string, by simp, ?_, hbody.isString⟩
    simp only [Stringless, List.forall_mem_cons, List.forall_mem_append]
    exact ⟨⟨_, hname, rfl⟩, ⟨_, hopening, rfl⟩, hparams.stringless, ⟨_, hclosing, rfl⟩,
      ⟨_, hdefines, rfl⟩, List.forall_mem_nil _⟩

/-! ### Reading a definition -/

theorem expect_eq_ok_iff :
    expect size token ls = .ok (l, rest) ↔ ls = l :: rest ∧ l.token = some token := by
  unfold expect
  constructor
  · intro h
    split at h
    · split at h
      · rename_i htoken
        cases h
        exact ⟨rfl, htoken⟩
      · cases h
    · cases h
  · rintro ⟨rfl, htoken⟩
    simp [htoken]

theorem readMoreParams_of_isMoreParams (h : IsMoreParams ls params)
    (hl : l.token ≠ some .comma) :
    readMoreParams size (ls ++ l :: more) = .ok (params, l :: more) := by
  induction h with
  | nil => cases more <;> rw [List.nil_append, readMoreParams, if_neg hl]
  | cons hcomma hparam _ ih =>
    rw [List.cons_append, List.cons_append, readMoreParams, if_pos hcomma, if_pos hparam, ih]
    rfl

theorem readParams_of_isParams (h : IsParams ls params) (hl : l.token = some .closing) :
    readParams size (ls ++ l :: more) = .ok (params, l :: more) := by
  cases h with
  | nil => rw [List.nil_append, readParams, if_neg (by simp [hl])]
  | cons hparam h =>
    rw [List.cons_append, readParams, if_pos hparam,
      readMoreParams_of_isMoreParams h (by simp [hl])]
    rfl

theorem exists_isMoreParams (h : readMoreParams size ls = .ok (params, rest)) :
    ∃ front, ls = front ++ rest ∧ IsMoreParams front params := by
  fun_induction readMoreParams size ls generalizing params with
  | case1 => cases h; exact ⟨[], rfl, .nil⟩
  | case2 => cases h
  | case3 => cases h; exact ⟨[], rfl, .nil⟩
  | case4 comma param ls hcomma hparam =>
    rename_i ih
    obtain ⟨⟨more, rest⟩, hmore, h⟩ := bind_eq_ok h
    cases h
    obtain ⟨front, rfl, hfront⟩ := ih hmore
    exact ⟨comma :: param :: front, rfl, .cons hcomma hparam hfront⟩
  | case5 => cases h
  | case6 => cases h; exact ⟨[], rfl, .nil⟩

theorem exists_isParams (h : readParams size ls = .ok (params, rest)) :
    ∃ front, ls = front ++ rest ∧ IsParams front params := by
  unfold readParams at h
  split at h
  · rename_i param ls
    split at h
    · rename_i hparam
      obtain ⟨⟨more, rest⟩, hmore, h⟩ := bind_eq_ok h
      cases h
      obtain ⟨front, rfl, hfront⟩ := exists_isMoreParams hmore
      exact ⟨param :: front, rfl, .cons hparam hfront⟩
    · cases h
      exact ⟨[], rfl, .nil⟩
  · cases h
    exact ⟨[], rfl, .nil⟩

theorem readBody_eq_ok_iff :
    readBody size ls = .ok body ↔ ∃ l rest, ls = l :: rest ∧ IsBody l body := by
  unfold readBody
  constructor
  · intro h
    simp only at h
    split at h
    · split at h
      · rename_i htoken
        cases h
        exact ⟨_, _, rfl, .bigString htoken⟩
      · rename_i htoken
        cases h
        exact ⟨_, _, rfl, .quoted htoken⟩
      · cases h
    · cases h
  · rintro ⟨l, rest, rfl, h⟩
    cases h with
    | bigString h | quoted h => simp [h]

/-- A definition is read if and only if it stands at the front. -/
theorem readDefinition_eq_ok_iff : readDefinition size ls = .ok (d, rest) ↔
    ∃ front, ls = front ++ rest ∧ IsDefinition front d := by
  constructor
  · intro h
    obtain ⟨⟨name, ls1⟩, h1, h⟩ := bind_eq_ok h
    obtain ⟨⟨opening, ls2⟩, h2, h⟩ := bind_eq_ok h
    obtain ⟨⟨params, ls3⟩, h3, h⟩ := bind_eq_ok h
    obtain ⟨⟨closing, ls4⟩, h4, h⟩ := bind_eq_ok h
    obtain ⟨⟨defines, ls5⟩, h5, h⟩ := bind_eq_ok h
    obtain ⟨body, h6, h⟩ := bind_eq_ok h
    cases h
    obtain ⟨rfl, hname⟩ := expect_eq_ok_iff.mp h1
    obtain ⟨rfl, hopening⟩ := expect_eq_ok_iff.mp h2
    obtain ⟨front, rfl, hparams⟩ := exists_isParams h3
    obtain ⟨rfl, hclosing⟩ := expect_eq_ok_iff.mp h4
    obtain ⟨rfl, hdefines⟩ := expect_eq_ok_iff.mp h5
    obtain ⟨string, rest, rfl, hbody⟩ := readBody_eq_ok_iff.mp h6
    exact ⟨_, by simp, .mk hname hopening hparams hclosing hdefines hbody⟩
  · rintro ⟨front, rfl, h⟩
    cases h with
    | @mk _ _ closing defines string ls _ _ hname hopening hparams hclosing hdefines hbody =>
      have hread : readParams size (ls ++ closing :: defines :: string :: rest) = _ :=
        readParams_of_isParams hparams hclosing
      have hstring : readBody size (string :: rest) = _ :=
        readBody_eq_ok_iff.mpr ⟨string, rest, rfl, hbody⟩
      simp only [List.cons_append, List.append_assoc, List.nil_append, readDefinition, bind,
        Except.bind, expect_eq_ok_iff.mpr ⟨rfl, hname⟩, expect_eq_ok_iff.mpr ⟨rfl, hopening⟩, hread,
        expect_eq_ok_iff.mpr ⟨rfl, hclosing⟩, expect_eq_ok_iff.mpr ⟨rfl, hdefines⟩, hstring]
      rfl

theorem IsDefinition.unique {d' : Definition} (h : IsDefinition segment d)
    (h' : IsDefinition segment d') : d = d' := by
  have hread : readDefinition 0 segment = .ok (d, []) :=
    readDefinition_eq_ok_iff.mpr ⟨segment, by simp, h⟩
  have hread' : readDefinition 0 segment = .ok (d', []) :=
    readDefinition_eq_ok_iff.mpr ⟨segment, by simp, h'⟩
  rw [hread] at hread'
  exact (Prod.mk.inj (Except.ok.inj hread')).1

/-! ### Failures -/

/-- A failure at a place that no string stands in front of. -/
inductive FailsIn (size : Nat) : List (Lexeme Token) → Failure → Prop
  | mk {done rest : List (Lexeme Token)} (hdone : Stringless done) (expecting : String) :
      FailsIn size (done ++ rest) (mismatchAt size rest expecting)

theorem failsIn_mismatchAt (size : Nat) (ls : List (Lexeme Token)) (expecting : String) :
    FailsIn size ls (mismatchAt size ls expecting) :=
  FailsIn.mk (List.forall_mem_nil _) expecting

theorem FailsIn.append_left (h : FailsIn size ls failure) (hfront : Stringless front) :
    FailsIn size (front ++ ls) failure := by
  cases h with
  | mk hdone expecting =>
    rw [← List.append_assoc]
    exact .mk (hfront.append hdone) expecting

theorem FailsIn.cons (h : FailsIn size ls failure) (hl : l.token = some token)
    (htoken : token.isString = false) : FailsIn size (l :: ls) failure := by
  have hfront : Stringless [l] := List.forall_mem_singleton.mpr ⟨token, hl, htoken⟩
  exact h.append_left hfront

theorem failsIn_expect (h : expect size token ls = .error failure) : FailsIn size ls failure := by
  unfold expect at h
  split at h
  · split at h
    · cases h
    · cases h
      exact failsIn_mismatchAt ..
  · cases h
    exact failsIn_mismatchAt ..

theorem failsIn_readMoreParams (h : readMoreParams size ls = .error failure) :
    FailsIn size ls failure := by
  fun_induction readMoreParams size ls with
  | case1 => cases h
  | case2 comma hcomma =>
    cases h
    exact (failsIn_mismatchAt ..).cons hcomma rfl
  | case3 => cases h
  | case4 comma param ls hcomma hparam =>
    rename_i ih
    rcases bind_eq_error h with h | ⟨_, -, h⟩
    · exact ((ih h).cons hparam rfl).cons hcomma rfl
    · cases h
  | case5 comma param ls hcomma =>
    cases h
    exact (failsIn_mismatchAt ..).cons hcomma rfl
  | case6 => cases h

theorem failsIn_readParams (h : readParams size ls = .error failure) :
    FailsIn size ls failure := by
  unfold readParams at h
  split at h
  · split at h
    · rename_i hparam
      rcases bind_eq_error h with h | ⟨_, -, h⟩
      · exact (failsIn_readMoreParams h).cons hparam rfl
      · cases h
    · cases h
  · cases h

theorem failsIn_readBody (h : readBody size ls = .error failure) : FailsIn size ls failure := by
  unfold readBody at h
  simp only at h
  split at h
  · split at h
    · cases h
    · cases h
    · cases h
      exact failsIn_mismatchAt ..
  · cases h
    exact failsIn_mismatchAt ..

theorem failsIn_readDefinition (h : readDefinition size ls = .error failure) :
    FailsIn size ls failure := by
  rcases bind_eq_error h with h1 | ⟨⟨name, ls1⟩, h1, k1⟩
  · exact failsIn_expect h1
  obtain ⟨rfl, hname⟩ := expect_eq_ok_iff.mp h1
  refine FailsIn.cons ?_ hname rfl
  rcases bind_eq_error k1 with h2 | ⟨⟨opening, ls2⟩, h2, k2⟩
  · exact failsIn_expect h2
  obtain ⟨rfl, hopening⟩ := expect_eq_ok_iff.mp h2
  refine FailsIn.cons ?_ hopening rfl
  rcases bind_eq_error k2 with h3 | ⟨⟨params, ls3⟩, h3, k3⟩
  · exact failsIn_readParams h3
  obtain ⟨front, rfl, hparams⟩ := exists_isParams h3
  refine FailsIn.append_left ?_ hparams.stringless
  rcases bind_eq_error k3 with h4 | ⟨⟨closing, ls4⟩, h4, k4⟩
  · exact failsIn_expect h4
  obtain ⟨rfl, hclosing⟩ := expect_eq_ok_iff.mp h4
  refine FailsIn.cons ?_ hclosing rfl
  rcases bind_eq_error k4 with h5 | ⟨⟨defines, ls5⟩, h5, k5⟩
  · exact failsIn_expect h5
  obtain ⟨rfl, hdefines⟩ := expect_eq_ok_iff.mp h5
  refine FailsIn.cons ?_ hdefines rfl
  rcases bind_eq_error k5 with h6 | ⟨_, -, h6⟩
  · exact failsIn_readBody h6
  · cases h6

/-! ### Recovery -/

theorem recover_of_stringless (h : Stringless ls) : recover ls = [] := by
  induction ls with
  | nil => rfl
  | cons l ls ih =>
    obtain ⟨⟨token, hl, htoken⟩, hls⟩ := List.forall_mem_cons.mp h
    rw [recover, hl, Option.any_some, htoken, if_neg (by simp), ih hls]

theorem recover_append (h : Stringless front) (hl : l.token.any Token.isString = true)
    (more : List (Lexeme Token)) : recover (front ++ l :: more) = more := by
  induction front with
  | nil => rw [List.nil_append, recover, if_pos hl]
  | cons k front ih =>
    obtain ⟨⟨token, hk, htoken⟩, hfront⟩ := List.forall_mem_cons.mp h
    rw [List.cons_append, recover, hk, Option.any_some, htoken, if_neg (by simp), ih hfront]

/-- Where a text holds lexemes without a string in front, its first string is behind them. -/
theorem exists_of_append_eq {done : List (Lexeme Token)} (hdone : Stringless done)
    (hl : l.token.any Token.isString = true) (h : front ++ l :: more = done ++ rest) :
    ∃ back, front = done ++ back ∧ rest = back ++ l :: more := by
  rcases List.append_eq_append_iff.mp h with ⟨back, hback, hmore⟩ | ⟨back, hback, hrest⟩
  · cases back with
    | nil => exact ⟨[], by simpa using hback.symm, by simpa using hmore.symm⟩
    | cons k back =>
      obtain ⟨rfl, -⟩ := List.cons.inj hmore
      obtain ⟨token, htoken, hstring⟩ := hdone l (by simp [hback])
      simp [htoken, hstring] at hl
  · exact ⟨back, hback, hrest⟩

theorem IsSegment.eq_of_append {segment' more' : List (Lexeme Token)} (h : IsSegment segment)
    (h' : IsSegment segment') (happend : segment ++ more = segment' ++ more') :
    segment = segment' ∧ more = more' := by
  obtain ⟨front, l, rfl, hfront, hl⟩ := h
  obtain ⟨front', l', rfl, hfront', hl'⟩ := h'
  simp only [List.append_assoc, List.singleton_append] at happend
  obtain ⟨back, rfl, hrest⟩ := exists_of_append_eq hfront' hl happend
  cases back with
  | nil =>
    obtain ⟨rfl, rfl⟩ := List.cons.inj hrest
    exact ⟨by rw [List.append_nil], rfl⟩
  | cons k back =>
    obtain ⟨rfl, -⟩ := List.cons.inj hrest
    obtain ⟨token, htoken, hstring⟩ := hfront l' (by simp)
    simp [htoken, hstring] at hl'

theorem FailsIn.recover_eq_nil (h : FailsIn size ls failure) (hls : Stringless ls) :
    recover failure.rest = [] := by
  cases h with
  | @mk done rest hdone expecting =>
    have hrest : Stringless rest := fun l hl => hls l (List.mem_append_right done hl)
    cases rest with
    | nil => rfl
    | cons l rest => exact recover_of_stringless hrest

/-- After a failure in a segment, reading goes on behind it. -/
theorem FailsIn.recover_eq (h : FailsIn size (segment ++ more) failure)
    (hsegment : IsSegment segment) :
    recover failure.rest = more ∧
      ∃ l ∈ segment, ∃ expecting, failure.error = ⟨.mismatched l.text expecting, l.offset⟩ := by
  obtain ⟨front, string, rfl, hfront, hstring⟩ := hsegment
  rw [List.append_assoc, List.singleton_append] at h
  generalize hls : front ++ string :: more = ls at h
  cases h with
  | mk hdone expecting =>
    obtain ⟨back, rfl, rfl⟩ := exists_of_append_eq hdone hstring hls
    have hback : Stringless back := fun l hl => hfront l (List.mem_append_right _ hl)
    cases back with
    | nil =>
      exact ⟨recover_append hback hstring more, string, by simp, expecting, rfl⟩
    | cons l back =>
      exact ⟨recover_append hback hstring more, l, by simp, expecting, rfl⟩

/-- A segment gives its definition or one error in it, and what follows is read by itself. -/
theorem readDefinitions_segment (size : Nat) (h : IsSegment segment) (more : List (Lexeme Token)) :
    let after := readDefinitions size 0 more
    (∃ d, IsDefinition segment d ∧
      readDefinitions size 0 (segment ++ more) = (after.1, d :: after.2)) ∨
    (∀ d, ¬ IsDefinition segment d) ∧ ∃ l ∈ segment, ∃ expecting,
      readDefinitions size 0 (segment ++ more) =
        (⟨.mismatched l.text expecting, l.offset⟩ :: after.1, after.2) := by
  obtain ⟨l, ls, rfl⟩ : ∃ l ls, segment = l :: ls := by
    obtain ⟨front, l, rfl, -⟩ := h
    exact List.exists_cons_of_ne_nil (by simp)
  cases hread : readDefinition size (l :: (ls ++ more)) with
  | ok r =>
    obtain ⟨d, rest⟩ := r
    obtain ⟨front, hfront, hd⟩ := readDefinition_eq_ok_iff.mp hread
    obtain ⟨rfl, rfl⟩ := h.eq_of_append hd.isSegment hfront
    exact .inl ⟨d, hd, readDefinitions_of_ok hread⟩
  | error failure =>
    obtain ⟨hrecover, k, hk, expecting, hfailure⟩ :=
      (failsIn_readDefinition hread).recover_eq h
    refine .inr ⟨fun d hd => ?_, k, hk, expecting, ?_⟩
    · have hok : readDefinition size (l :: (ls ++ more)) = .ok (d, more) :=
        readDefinition_eq_ok_iff.mpr ⟨l :: ls, rfl, hd⟩
      rw [hread] at hok
      cases hok
    · rw [← hfailure]
      exact readDefinitions_of_error hread hrecover

/-- Lexemes without a string give one error. -/
theorem readDefinitions_of_stringless (size : Nat) (h : Stringless ls) (hne : ls ≠ []) :
    ∃ e, readDefinitions size 0 ls = ([e], []) := by
  obtain ⟨l, ls, rfl⟩ := List.exists_cons_of_ne_nil hne
  rw [← List.append_nil ls]
  cases hread : readDefinition size (l :: (ls ++ [])) with
  | ok r =>
    obtain ⟨d, rest⟩ := r
    obtain ⟨front, hfront, hd⟩ := readDefinition_eq_ok_iff.mp hread
    obtain ⟨before, string, rfl, -, hstring⟩ := hd.isSegment
    rw [List.append_nil] at hfront
    obtain ⟨token, htoken, hfree⟩ := h string (by simp [hfront])
    simp [htoken, hfree] at hstring
  | error failure =>
    have hfails := failsIn_readDefinition hread
    rw [List.append_nil] at hfails
    exact ⟨failure.error, readDefinitions_of_error hread (hfails.recover_eq_nil h)⟩

end GrammarTrees.Template.GroupText
