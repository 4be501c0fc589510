import GrammarTrees.Proofs.Text.Lexemes
import GrammarTrees.Template.Group

/-! Group files that consist of one definition. The definition is read as it was written, and the
group has one template if its body can be compiled. -/

namespace GrammarTrees.Template

/-- A name that is no keyword. -/
structure IsIdentifier (name : String) : Prop where
  start : name.toList.head?.any isNameStart = true
  parts : ∀ c ∈ name.toList.tail, isNamePart c = true
  noKeyword : name.toList ≠ ['i', 'm', 'p', 'o', 'r', 't']

theorem isIdentifier_singleton {c : Char} (h : isNameStart c = true) :
    IsIdentifier (.singleton c) := by
  have hchars : (String.singleton c).toList = [c] := String.toList_singleton c
  refine ⟨?_, ?_, ?_⟩ <;> rw [hchars]
  · exact h
  · exact List.forall_mem_nil _
  · simp

/-- A definition up to its string, as it is written in a group file. -/
def definitionHead (name : String) (params : List String) : String :=
  name ++ "(" ++ ", ".intercalate params ++ ") ::= "

namespace GroupText

open Lexeme

variable {c : Char} {cs rest : List Char} {name param : String} {params : List String}
  {l nameLexeme : Lexeme Token} {ls more : List (Lexeme Token)} {offset size : Nat}

/-! ### The scanner -/

theorem scan_of_isNameStart (h : isNameStart c = true) (cs : List Char) :
    scan c cs = ⟨some (if c :: cs.takeWhile isNamePart = ['i', 'm', 'p', 'o', 'r', 't'] then
      .importWord else .name), (cs.takeWhile isNamePart).length⟩ := by
  rw [scan.eq_def]
  split <;> first | exact absurd h (by decide) | rw [if_pos h]

theorem scan_quote (cs : List Char) : scan '"' cs =
    ⟨if (quotedRun '"' (· ≠ '\n') cs).1 then some .quoted else none,
      (quotedRun '"' (· ≠ '\n') cs).2⟩ := rfl

theorem cut_name (h : IsIdentifier name) (hrest : ∀ c ∈ rest.head?, isNamePart c = false)
    (offset : Nat) : Cut scan rest offset name.toList [⟨some .name, name.toList, offset⟩] := by
  obtain ⟨hstart, hparts, hkeyword⟩ := h
  match hname : name.toList with
  | [] => simp [hname] at hstart
  | c :: cs =>
    rw [hname] at hstart hparts hkeyword
    have hrun : (cs ++ rest).takeWhile isNamePart = cs := takeWhile_append_of_head? hparts hrest
    refine .single ?_ offset
    rw [scan_of_isNameStart (by simpa using hstart), hrun, if_neg hkeyword]

theorem cut_gap (hrest : ∀ c ∈ rest.head?, isGap c = false) (offset : Nat) :
    Cut scan rest offset [' '] [⟨some .gap, [' '], offset⟩] := by
  refine .single ?_ offset
  have hrun : ([] ++ rest).takeWhile isGap = [] := takeWhile_append_of_head? (by simp) hrest
  change Scan.run Token.gap isGap ([] ++ rest) = _
  rw [Scan.run, hrun]

/-! ### Lexemes that matter -/

/-- The lexemes that a group file is read from. -/
def visible (ls : List (Lexeme Token)) : List (Lexeme Token) :=
  ls.filter fun l => l.token.isSome && !isTrivia l

theorem visible_append (ls more : List (Lexeme Token)) :
    visible (ls ++ more) = visible ls ++ visible more := List.filter_append ..

/-- All of the lexemes have tokens, and none is a string. -/
def Stringless (ls : List (Lexeme Token)) : Prop :=
  ∀ l ∈ ls, ∃ t, l.token = some t ∧ t.isString = false

theorem Stringless.append (h : Stringless ls) (hmore : Stringless more) :
    Stringless (ls ++ more) :=
  List.forall_mem_append.mpr ⟨h, hmore⟩

theorem Stringless.filter_isNone (h : Stringless ls) : ls.filter (·.token.isNone) = [] := by
  rw [List.filter_eq_nil_iff]
  intro l hl
  obtain ⟨t, ht, -⟩ := h l hl
  simp [ht]

/-- Of a string and stray characters after it, the string is visible. -/
theorem visible_string {token : Token} (hl : l.token = some token) (htoken : token.isString = true)
    (hstray : ∀ k ∈ ls, k.token = none) : visible (l :: ls) = [l] := by
  have hls : visible ls = [] :=
    List.filter_eq_nil_iff.mpr fun k hk => by simp [hstray k hk]
  have hstring : (l.token.isSome && !isTrivia l) = true := by
    rw [isTrivia, hl]
    cases token <;> first | rfl | exact absurd htoken (by decide)
  rw [GroupText.visible] at hls ⊢
  rw [List.filter_cons, if_pos hstring, hls]

theorem readImports_of_ne (h : l.token ≠ some .importWord) (size : Nat)
    (ls : List (Lexeme Token)) : readImports size (l :: ls) = ([], [], l :: ls) := by
  cases ls with
  | nil => rw [readImports, if_neg h]
  | cons k ls => rw [readImports, if_neg h]

/-! ### What follows a definition -/

theorem readDefinitions_skip (size : Nat) (ls more : List (Lexeme Token)) :
    readDefinitions size ls.length (ls ++ more) = readDefinitions size 0 more := by
  induction ls with
  | nil => rfl
  | cons l ls ih => rw [List.cons_append, List.length_cons, readDefinitions, ih]

theorem readDefinitions_of_ok {d : Definition}
    (h : readDefinition size (l :: (ls ++ more)) = .ok (d, more)) :
    readDefinitions size 0 (l :: (ls ++ more)) =
      ((readDefinitions size 0 more).1, d :: (readDefinitions size 0 more).2) := by
  have hlength : (ls ++ more).length - more.length = ls.length := by simp
  simp only [readDefinitions, h, hlength, readDefinitions_skip]

theorem readDefinitions_of_error {failure : Failure}
    (h : readDefinition size (l :: (ls ++ more)) = .error failure)
    (hmore : recover failure.rest = more) :
    readDefinitions size 0 (l :: (ls ++ more)) =
      (failure.error :: (readDefinitions size 0 more).1, (readDefinitions size 0 more).2) := by
  have hlength : (ls ++ more).length - more.length = ls.length := by simp
  simp only [readDefinitions, h, hmore, hlength, readDefinitions_skip]

/-! ### Parameters -/

/-- Parameters that follow others, as they are written. -/
def moreParamChars (params : List String) : List Char :=
  params.flatMap fun p => ',' :: ' ' :: p.toList

theorem isNamePart_head_moreParamChars (params : List String)
    (hrest : ∀ c ∈ rest.head?, isNamePart c = false) :
    ∀ c ∈ (moreParamChars params ++ rest).head?, isNamePart c = false := by
  cases params with
  | nil => exact hrest
  | cons p params =>
    intro c hc
    obtain rfl : ',' = c := by simpa [moreParamChars] using hc
    decide

theorem isGap_head_name (h : IsIdentifier name) (rest : List Char) :
    ∀ c ∈ (name.toList ++ rest).head?, isGap c = false := by
  intro c hc
  have hstart := h.start
  match hname : name.toList with
  | [] => simp [hname] at hstart
  | d :: ds =>
    rw [hname] at hstart hc
    obtain rfl : d = c := by simpa using hc
    rw [List.head?_cons, Option.any_some] at hstart
    rw [Bool.eq_false_iff]
    intro hgap
    simp only [isGap, Bool.or_eq_true, decide_eq_true_eq] at hgap
    rcases hgap with ((rfl | rfl) | rfl) | rfl <;> exact absurd hstart (by decide)

theorem exists_cut_moreParams (hparams : ∀ p ∈ params, IsIdentifier p)
    (hrest : ∀ c ∈ rest.head?, isNamePart c = false) (offset : Nat) :
    ∃ ls, Cut scan rest offset (moreParamChars params) ls ∧ Stringless ls ∧
      ∀ size l more, l.token = some .closing →
        readMoreParams size (visible ls ++ l :: more) = .ok (params, l :: more) := by
  induction params generalizing offset with
  | nil =>
    refine ⟨[], .nil offset, nofun, fun size l more hl => ?_⟩
    have hcomma : l.token ≠ some .comma := by simp [hl]
    cases more with
    | nil => rw [visible, List.filter_nil, List.nil_append, readMoreParams, if_neg hcomma]
    | cons k more => rw [visible, List.filter_nil, List.nil_append, readMoreParams, if_neg hcomma]
  | cons p params ih =>
    rw [List.forall_mem_cons] at hparams
    have hname := cut_name hparams.1 (isNamePart_head_moreParamChars params hrest)
      (offset + byteLength [','] + byteLength [' '])
    have hgap : Cut scan (p.toList ++ moreParamChars params ++ rest) (offset + byteLength [','])
        [' '] [⟨some .gap, [' '], offset + byteLength [',']⟩] := by
      rw [List.append_assoc]
      exact cut_gap (isGap_head_name hparams.1 _) _
    obtain ⟨ls, hcut, hls, hread⟩ := ih hparams.2
      (offset + byteLength [','] + byteLength [' '] + byteLength p.toList)
    have hcomma : Cut scan ([' '] ++ (p.toList ++ moreParamChars params) ++ rest) offset [',']
        [⟨some .comma, [','], offset⟩] := .single rfl offset
    refine ⟨_, hcomma.append (hgap.append (hname.append hcut)), ?_, fun size l more hl => ?_⟩
    · simp only [Stringless, List.cons_append, List.nil_append, List.forall_mem_cons]
      exact ⟨⟨_, rfl, rfl⟩, ⟨_, rfl, rfl⟩, ⟨_, rfl, rfl⟩, hls⟩
    · have hvisible : visible ([⟨some .comma, [','], offset⟩] ++
          ([⟨some .gap, [' '], offset + byteLength [',']⟩] ++
            ([⟨some .name, p.toList, offset + byteLength [','] + byteLength [' ']⟩] ++ ls))) =
          ⟨some .comma, [','], offset⟩ ::
            ⟨some .name, p.toList, offset + byteLength [','] + byteLength [' ']⟩ :: visible ls :=
        rfl
      rw [hvisible, List.cons_append, List.cons_append, readMoreParams, if_pos rfl, if_pos rfl,
        hread size l more hl]
      simp [Lexeme.text, bind, Except.bind, pure, Except.pure]

/-- Parameters as they are written. -/
def paramChars : List String → List Char
  | [] => []
  | p :: params => p.toList ++ moreParamChars params

theorem intercalate_params (params : List String) :
    [',', ' '].intercalate (params.map String.toList) = paramChars params := by
  match params with
  | [] => rfl
  | [p] => simp [paramChars, moreParamChars]
  | p :: q :: params =>
    have ih := intercalate_params (q :: params)
    rw [List.map_cons] at ih
    rw [List.map_cons, List.map_cons, List.intercalate_cons_cons, ih]
    simp [paramChars, moreParamChars]

theorem exists_cut_params (rest : List Char) (hparams : ∀ p ∈ params, IsIdentifier p)
    (hrest : ∀ c ∈ rest.head?, isNamePart c = false) (offset : Nat) :
    ∃ ls, Cut scan rest offset (paramChars params) ls ∧ Stringless ls ∧
      ∀ size l more, l.token = some .closing →
        readParams size (visible ls ++ l :: more) = .ok (params, l :: more) := by
  cases params with
  | nil =>
    refine ⟨[], .nil offset, nofun, fun size l more hl => ?_⟩
    have hname : l.token ≠ some .name := by simp [hl]
    rw [visible, List.filter_nil, List.nil_append, readParams, if_neg hname]
  | cons p params =>
    rw [List.forall_mem_cons] at hparams
    obtain ⟨ls, hcut, hls, hread⟩ :=
      exists_cut_moreParams hparams.2 hrest (offset + byteLength p.toList)
    have hname := cut_name hparams.1 (isNamePart_head_moreParamChars params hrest) offset
    refine ⟨_, hname.append hcut, ?_, fun size l more hl => ?_⟩
    · exact List.forall_mem_cons.mpr ⟨⟨_, rfl, rfl⟩, hls⟩
    · have hvisible : visible ([⟨some .name, p.toList, offset⟩] ++ ls) =
          ⟨some .name, p.toList, offset⟩ :: visible ls := rfl
      rw [hvisible, List.cons_append, readParams, if_pos rfl, hread size l more hl]
      simp [Lexeme.text, bind, Except.bind, pure, Except.pure]

/-! ### Definitions -/

/-- What stands between the parameters of a definition and its string. -/
theorem exists_cut_defines (hrest : ∀ c ∈ rest.head?, isGap c = false) (offset : Nat) :
    ∃ ls, Cut scan rest offset [')', ' ', ':', ':', '=', ' '] ls ∧ Stringless ls ∧
      ∃ closing defines, visible ls = [closing, defines] ∧
        closing.token = some .closing ∧ defines.token = some .defines := by
  have hclosing : Cut scan ([' '] ++ ([':', ':', '='] ++ [' ']) ++ rest) offset [')']
    [⟨some .closing, [')'], offset⟩] := .single rfl offset
  have hgap : Cut scan ([':', ':', '='] ++ [' '] ++ rest) (offset + byteLength [')']) [' ']
    [⟨some .gap, [' '], offset + byteLength [')']⟩] := cut_gap (by simp; decide) _
  have hdefines : Cut scan ([' '] ++ rest) (offset + byteLength [')'] + byteLength [' '])
    [':', ':', '='] [⟨some .defines, [':', ':', '='],
      offset + byteLength [')'] + byteLength [' ']⟩] := .single rfl _
  refine ⟨_, hclosing.append (hgap.append (hdefines.append (cut_gap hrest _))), ?_, _, _, rfl,
    rfl, rfl⟩
  simp [Stringless, Token.isString]

theorem toList_definitionHead (name : String) (params : List String) :
    (definitionHead name params).toList =
      name.toList ++ (['('] ++ (paramChars params ++ [')', ' ', ':', ':', '=', ' '])) := by
  simp [definitionHead, intercalate_params]

/-- The lexemes of a definition up to its string, which read as that definition. -/
theorem exists_cut_definitionHead (rest : List Char) (hname : IsIdentifier name)
    (hparams : ∀ p ∈ params, IsIdentifier p) (hrest : ∀ c ∈ rest.head?, isGap c = false) :
    ∃ ls, Cut scan rest 0 (definitionHead name params).toList ls ∧ Stringless ls ∧
      ∃ more, visible ls = ⟨some .name, name.toList, 0⟩ :: more ∧ ∀ size l, readDefinition size
        (⟨some .name, name.toList, 0⟩ :: (more ++ [l])) =
          (readBody size [l]).map fun body => (⟨name, 0, params, body.1, body.2⟩, []) := by
  rw [toList_definitionHead]
  have hfirst : Cut scan (['('] ++ (paramChars params ++ [')', ' ', ':', ':', '=', ' ']) ++ rest) 0
    name.toList [⟨some .name, name.toList, 0⟩] := cut_name hname (by simp; decide) 0
  have hopening : Cut scan (paramChars params ++ [')', ' ', ':', ':', '=', ' '] ++ rest)
    (0 + byteLength name.toList) ['('] [⟨some .opening, ['('], 0 + byteLength name.toList⟩] :=
      .single rfl _
  obtain ⟨ls, hls, hlsString, hread⟩ := exists_cut_params
    ([')', ' ', ':', ':', '=', ' '] ++ rest) hparams (by simp; decide)
    (0 + byteLength name.toList + byteLength ['('])
  obtain ⟨back, hback, hbackString, closing, defines, hvisible, hclosing, hdefines⟩ :=
    exists_cut_defines hrest
      (0 + byteLength name.toList + byteLength ['('] + byteLength (paramChars params))
  refine ⟨_, hfirst.append (hopening.append (hls.append hback)), ?_,
    ⟨some .opening, ['('], 0 + byteLength name.toList⟩ :: visible (ls ++ back), rfl,
    fun size l => ?_⟩
  · exact List.forall_mem_cons.mpr ⟨⟨_, rfl, rfl⟩,
      List.forall_mem_cons.mpr ⟨⟨_, rfl, rfl⟩, hlsString.append hbackString⟩⟩
  · have hparams := hread size closing [defines, l] hclosing
    rw [visible_append, hvisible, List.cons_append, List.append_assoc, readDefinition]
    simp only [expect, hparams, hclosing, hdefines, bind, Except.bind, pure, Except.pure,
      List.cons_append, List.nil_append, if_true]
    cases readBody size [l] <;> simp [Except.map, Lexeme.text]

/-- A group file of one definition. What follows its string may hold stray characters only. -/
theorem read_definition {token : Token} {source : String} {body : String × Nat}
    {back : List (Lexeme Token)} (hname : IsIdentifier name)
    (hparams : ∀ p ∈ params, IsIdentifier p)
    (hsource : source.toList = (definitionHead name params).toList ++ (c :: cs ++ rest))
    (hgap : isGap c = false) (hscan : scan c (cs ++ rest) = ⟨some token, cs.length⟩)
    (hstring : token.isString = true)
    (hbody : readBody (byteLength source.toList)
      [⟨some token, c :: cs, byteLength (definitionHead name params).toList⟩] = .ok body)
    (hback : readFrom scan (fun _ => false)
      (byteLength (definitionHead name params).toList + byteLength (c :: cs)) 0 rest = back)
    (hstray : ∀ l ∈ back, l.token = none) :
    read source = (⟨[], [⟨name, 0, params, body.1, body.2⟩]⟩,
      back.map (strayError stringOpeners (byteLength source.toList))) := by
  obtain ⟨ls, hls, hstringless, more, hvisible, hread⟩ :=
    exists_cut_definitionHead (c :: cs ++ rest) hname hparams (by simpa using hgap)
  have hlexemes : readAll scan source.toList =
      ls ++ ⟨some token, c :: cs, byteLength (definitionHead name params).toList⟩ :: back := by
    rw [hsource, hls.readAll_eq, (Cut.single hscan _).readFrom_eq fun _ _ => rfl, hback]
    rfl
  generalize hl : (⟨some token, c :: cs, byteLength (definitionHead name params).toList⟩ :
    Lexeme Token) = l at *
  have htoken : l.token = some token := by rw [← hl]
  have hstrays : (ls ++ l :: back).filter (·.token.isNone) = back := by
    rw [List.filter_append, hstringless.filter_isNone, List.filter_cons_of_neg (by simp [htoken])]
    exact List.filter_eq_self.mpr fun k hk => by simp [hstray k hk]
  have hrest : visible (ls ++ l :: back) = ⟨some .name, name.toList, 0⟩ :: (more ++ [l]) := by
    rw [visible_append, visible_string htoken hstring hstray, hvisible, List.cons_append]
  have himports := readImports_of_ne (l := ⟨some .name, name.toList, 0⟩) (by simp)
    (byteLength source.toList) (more ++ [l])
  have hdefinition := hread (byteLength source.toList) l
  rw [hbody, ← List.append_nil (more ++ [l])] at hdefinition
  have hdefinitions := readDefinitions_of_ok hdefinition
  rw [List.append_nil] at hdefinitions
  rw [visible] at hrest
  simp only [read, hlexemes, hstrays, hrest, himports, hdefinitions, readDefinitions,
    List.append_nil]

end GroupText

/-! ### Groups of one template -/

variable {source : String} {text : GroupText} {errors : List SyntaxError} {d : Definition}
  {chunks : List Chunk} {e : SyntaxError}

theorem groupOfText_of_read (hread : GroupText.read source = (⟨[], [d]⟩, errors))
    (store : Store) (group : String) (dir : Option String) :
    groupOfText store group source dir =
      (.mk group (defineAll .empty [d]).1 [],
        errors.map (·.message group source) ++
          (defineAll .empty [d]).2.map (·.message group source)) := by
  simp [groupOfText, buildGroup, hread, loadImports]

theorem defineAll_single_of_ok (h : compileBody d.body = .ok chunks) :
    defineAll .empty [d] = (⟨[(d.name, ⟨d.name, d.params, chunks, d.body⟩)]⟩, []) := by
  simp only [defineAll, define, Template.compile, h]
  rfl

theorem defineAll_single_of_error (h : compileBody d.body = .error e) :
    defineAll .empty [d] = (.empty, [{ e with offset := e.offset + d.bodyOffset }]) := by
  simp only [defineAll, define, Template.compile, h]
  rfl

end GrammarTrees.Template
