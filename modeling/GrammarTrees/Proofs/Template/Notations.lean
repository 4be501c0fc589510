import GrammarTrees.Proofs.Template.BigStrings
import GrammarTrees.Proofs.Template.Bodies

/-! The two notations of bodies. Escapes in a quoted body are resolved when the file is read, and
those that are left when the body is compiled; in a big string the latter happens alone. So the
notations agree on the bodies in which nothing that is left by the first pass is an escape, an
expression or the end of a comment that has not been one before. -/

namespace GrammarTrees.Template

open Lexeme GroupText

variable {name : String} {params : List String} {body : String} {chunks : List Chunk} {c : Char}
  {cs rest front : List Char} {piece : Option Piece} {ps : List Piece}

/-! ### Escapes -/

/-- Backslashes stand only in front of the characters that they make stand for themselves. -/
inductive EscapesOnly : List Char → Prop
  | nil : EscapesOnly []
  | plain {c : Char} {cs : List Char} (hc : c ≠ '\\') (hcs : EscapesOnly cs) : EscapesOnly (c :: cs)
  | escape {c : Char} {cs : List Char} (hc : IsEscapable c) (hcs : EscapesOnly cs) :
      EscapesOnly ('\\' :: c :: cs)

theorem unescape_escape (hc : IsEscapable c) (cs : List Char) :
    unescape ('\\' :: c :: cs) = c :: unescape cs := by
  rcases hc with rfl | rfl | rfl <;> rfl

theorem EscapesOnly.unescape_append (h : EscapesOnly front) (cs : List Char) :
    unescape (front ++ cs) = unescape front ++ unescape cs := by
  induction h with
  | nil => rfl
  | plain hc _ ih => rw [List.cons_append, unescape_cons hc, unescape_cons hc, ih, List.cons_append]
  | escape hc _ ih =>
    rw [List.cons_append, List.cons_append, unescape_escape hc, unescape_escape hc, ih,
      List.cons_append]

theorem EscapesOnly.quotable {quote : Char} {allowed : Char → Bool} (h : EscapesOnly cs)
    (hquote : quote ∉ cs) (hallowed : ∀ c ∈ cs, allowed c = true) : Quotable quote allowed cs := by
  induction h with
  | nil => exact .nil
  | plain hc _ ih =>
    rw [List.mem_cons, not_or] at hquote
    rw [List.forall_mem_cons] at hallowed
    exact .plain (Ne.symm hquote.1) hc hallowed.1 (ih hquote.2 hallowed.2)
  | escape hc _ ih =>
    simp only [List.mem_cons, not_or] at hquote
    simp only [List.forall_mem_cons] at hallowed
    refine .escape ?_ (ih hquote.2.2 hallowed.2.2)
    rcases hc with rfl | rfl | rfl <;> decide

/-- The text has the same pieces after its escapes have been resolved: none of them stands for an
opening angle bracket or leaves a backslash that is read as an escape, and comments end where they
did. -/
inductive ResolvesOnce : List Char → Prop
  | nil : ResolvesOnce []
  | comment {front cs : List Char} (hescapes : EscapesOnly front)
      (hfront : ¬ ['!', '>'] <:+: front ++ ['!'])
      (hresolved : ¬ ['!', '>'] <:+: unescape front ++ ['!']) (hcs : ResolvesOnce cs) :
      ResolvesOnce ('<' :: '!' :: (front ++ '!' :: '>' :: cs))
  | plain {c : Char} {cs : List Char} (hc : c ≠ '\\') (hmark : c = '<' → cs.head? ≠ some '!')
      (hcs : ResolvesOnce cs) : ResolvesOnce (c :: cs)
  | bracket {cs : List Char} (hcs : ResolvesOnce cs) : ResolvesOnce ('\\' :: '>' :: cs)
  | backslash {cs : List Char} (hnext : ∀ c ∈ cs.head?, ¬ IsEscapable c)
      (hcs : ResolvesOnce cs) : ResolvesOnce ('\\' :: '\\' :: cs)

namespace ResolvesOnce

theorem tail (h : ResolvesOnce (c :: cs)) (hc : c ≠ '\\') (hangle : c ≠ '<') :
    ResolvesOnce cs := by
  cases h with
  | comment => exact absurd rfl hangle
  | plain _ _ hcs => exact hcs
  | bracket => exact absurd rfl hc
  | backslash => exact absurd rfl hc

theorem tail_angle (h : ResolvesOnce ('<' :: cs)) (hmark : cs.head? ≠ some '!') :
    ResolvesOnce cs := by
  cases h with
  | comment => exact absurd rfl hmark
  | plain _ _ hcs => exact hcs

theorem drop_expression (h : ResolvesOnce (front ++ cs))
    (hfront : ∀ d ∈ front, ¬ Expression.IsForeign d) : ResolvesOnce cs := by
  induction front with
  | nil => exact h
  | cons c front ih =>
    obtain ⟨hc, hfront⟩ := List.forall_mem_cons.mp hfront
    obtain ⟨hbackslash, hangle⟩ := not_or.mp hc
    exact ih (h.tail hbackslash hangle) hfront

theorem drop_comment (h : ResolvesOnce ('<' :: '!' :: (front ++ '!' :: '>' :: cs)))
    (hfront : ¬ ['!', '>'] <:+: front ++ ['!']) :
    EscapesOnly front ∧ ¬ ['!', '>'] <:+: unescape front ++ ['!'] ∧ ResolvesOnce cs := by
  generalize htext : front ++ '!' :: '>' :: cs = text at h
  cases h with
  | @comment front' cs' hescapes hfront' hresolved hcs =>
    have hlength := lengthThrough_append hfront cs
    rw [htext, lengthThrough_append hfront' cs'] at hlength
    obtain ⟨rfl, h⟩ := List.append_inj htext (by simpa using hlength.symm)
    cases h
    exact ⟨hescapes, hresolved, hcs⟩
  | plain _ hmark => exact absurd rfl (hmark rfl)

end ResolvesOnce

theorem head?_unescape (h : ∀ c ∈ cs.head?, c ≠ '\\') : (unescape cs).head? = cs.head? := by
  cases cs with
  | nil => rfl
  | cons c cs => rw [unescape_cons (h c rfl), List.head?_cons, List.head?_cons]

/-- What stands first in a text stands first in it when its escapes have been resolved. -/
theorem Takes.resolved (h : Takes cs piece rest) (honce : ResolvesOnce cs) (hquote : '"' ∉ cs) :
    Takes (unescape cs) piece (unescape rest) ∧ ResolvesOnce rest ∧ '"' ∉ rest := by
  cases h with
  | @escape c cs hc =>
    simp only [List.mem_cons, not_or] at hquote
    rw [unescape_escape hc]
    cases honce with
    | plain hc => exact absurd rfl hc
    | bracket hcs => exact ⟨.plain (by decide) (fun h => absurd h (by decide)), hcs, hquote.2.2⟩
    | backslash hnext hcs =>
      -- The backslash that is left must not be read as an escape of what follows.
      have hhead : (unescape rest).head? = rest.head? :=
        head?_unescape fun d hd hbackslash => hnext d hd (.inr (.inr hbackslash))
      exact ⟨.plain (by decide) (fun _ => by rwa [hhead]), hcs, hquote.2.2⟩
  | @comment front _ hfront =>
    obtain ⟨hescapes, hresolved, hcs⟩ := honce.drop_comment hfront
    simp only [List.mem_cons, List.mem_append, not_or] at hquote
    rw [unescape_cons (by decide), unescape_cons (by decide), hescapes.unescape_append,
      unescape_cons (by decide), unescape_cons (by decide)]
    exact ⟨.comment hresolved, hcs, hquote.2.2.2.2.2⟩
  | @expression inner _ e hmark hinner =>
    simp only [List.mem_cons, List.mem_append, not_or] at hquote
    have hforeign := hinner.not_isForeign hquote.2.1
    -- Without quotes no token holds a backslash, so the expression is left as it is.
    have hrest := (honce.tail_angle (head?_append_close_ne hmark rest)).drop_expression hforeign
    rw [unescape_cons (by decide),
      unescape_append_of_not_mem fun hmem => hforeign _ hmem (.inl rfl), unescape_cons (by decide)]
    exact ⟨.expression hmark hinner, hrest.tail (by decide) (by decide), hquote.2.2.2⟩
  | @plain c _ hangle hescape =>
    rw [List.mem_cons, not_or] at hquote
    have hbackslash : c ≠ '\\' := by
      rintro rfl
      cases honce with
      | plain hc => exact hc rfl
      | bracket => exact hescape rfl _ rfl (.inr (.inl rfl))
      | backslash => exact hescape rfl _ rfl (.inr (.inr rfl))
    rw [unescape_cons hbackslash]
    exact ⟨.plain hangle fun h => absurd h hbackslash, honce.tail hbackslash hangle, hquote.2⟩

theorem Holds.resolved (h : Holds cs ps) (honce : ResolvesOnce cs) (hquote : '"' ∉ cs) :
    Holds (unescape cs) ps := by
  induction h with
  | nil => exact .nil
  | cons htakes _ ih =>
    obtain ⟨hresolved, hrest, hquote⟩ := htakes.resolved honce hquote
    exact .cons hresolved (ih hrest hquote)

/-! ### Group files -/

/-- A group file of one definition, whose body is written between quotes. -/
def quotedText (name : String) (params : List String) (body : String) : String :=
  definitionHead name params ++ "\"" ++ body ++ "\""

theorem read_quotedText (hname : IsIdentifier name) (hparams : ∀ p ∈ params, IsIdentifier p)
    (hbody : Quotable '"' (· ≠ '\n') body.toList) :
    GroupText.read (quotedText name params body) =
      (⟨[], [⟨name, 0, params, String.ofList (unescape body.toList),
          byteLength (definitionHead name params).toList + 1⟩]⟩, []) := by
  have hsource : (quotedText name params body).toList = (definitionHead name params).toList ++
      ('"' :: (body.toList ++ ['"']) ++ []) := by
    simp [quotedText]
  have hscan : scan '"' (body.toList ++ ['"'] ++ []) =
      ⟨some .quoted, (body.toList ++ ['"']).length⟩ := by
    have hrun := hbody.quotedRun_eq (by decide) []
    rw [List.append_nil, scan_quote, hrun]
    simp
  have hstring : readBody (byteLength (quotedText name params body).toList)
      [⟨some .quoted, '"' :: (body.toList ++ ['"']),
        byteLength (definitionHead name params).toList⟩] =
      .ok (String.ofList (unescape body.toList),
        byteLength (definitionHead name params).toList + 1) := by
    simp only [readBody, Lexeme.text, unquote_quoted]
  exact read_definition hname hparams hsource (by decide) hscan rfl hstring rfl
    (List.forall_mem_nil _)

theorem read_bigStringText_of_oneLine (hname : IsIdentifier name)
    (hparams : ∀ p ∈ params, IsIdentifier p) (hline : '\n' ∉ body.toList)
    (hclosing : ¬ ['>', '>'] <:+: body.toList) (hangle : body.toList.getLast? ≠ some '>') :
    GroupText.read (bigStringText name params body) =
      (⟨[], [⟨name, 0, params, body, byteLength (definitionHead name params).toList + 2⟩]⟩,
        []) := by
  have hread := read_bigStringText hname hparams hclosing hangle
  rw [dropLineEnd_eq_self, dropLastLineEnd_eq_self, String.ofList_toList] at hread
  · exact hread
  · exact fun h => hline (List.mem_of_getLast? h)
  · exact fun h => hline (List.mem_of_head? h)
  · exact fun h => hline (h.mem (by simp))

/-- A body without quotes and line ends, whose backslashes belong to escapes of the body, can be
written in both notations; between quotes, its escapes are resolved when it is read. If nothing
becomes an escape or an expression by that, and no comment ends earlier, both definitions are
loaded, and they are rendered alike in any group, for all arguments. -/
theorem groupOfText_notations (store : Store) (group : String) (dir : Option String)
    (hname : IsIdentifier name) (hparams : ∀ p ∈ params, IsIdentifier p)
    (hquote : '"' ∉ body.toList) (hline : '\n' ∉ body.toList)
    (hclosing : ¬ ['>', '>'] <:+: body.toList) (hangle : body.toList.getLast? ≠ some '>')
    (hescapes : EscapesOnly body.toList) :
    (∃ offset, GroupText.read (quotedText name params body) =
      (⟨[], [⟨name, 0, params, String.ofList (unescape body.toList), offset⟩]⟩, [])) ∧
    (∃ offset, GroupText.read (bigStringText name params body) =
      (⟨[], [⟨name, 0, params, body, offset⟩]⟩, [])) ∧
    ∀ chunks, compileBody body = .ok chunks → ResolvesOnce body.toList → ∃ quoted big : Template,
      groupOfText store group (quotedText name params body) dir =
        (.mk group ⟨[(name, quoted)]⟩ [], []) ∧
      groupOfText store group (bigStringText name params body) dir =
        (.mk group ⟨[(name, big)]⟩ [], []) ∧
      ∀ before after imports limit,
        (∀ levels args,
          renderCalled (.mk group ⟨before ++ (name, quoted) :: after⟩ imports) limit levels quoted
              args =
            renderCalled (.mk group ⟨before ++ (name, big) :: after⟩ imports) limit levels big
              args) ∧
        ∀ source,
          renderInline (.mk group ⟨before ++ (name, quoted) :: after⟩ imports) limit source =
            renderInline (.mk group ⟨before ++ (name, big) :: after⟩ imports) limit source := by
  have hquoted := read_quotedText hname hparams (hescapes.quotable hquote
    fun c hc => decide_eq_true fun h => hline (h ▸ hc))
  have hbig := read_bigStringText_of_oneLine hname hparams hline hclosing hangle
  refine ⟨⟨_, hquoted⟩, ⟨_, hbig⟩, fun chunks hchunks honce => ?_⟩
  obtain ⟨ps, hps, hbare⟩ := exists_holds_of_compileBody hchunks
  have hresolved : Holds (String.ofList (unescape body.toList)).toList ps := by
    rw [String.toList_ofList]
    exact hps.resolved honce hquote
  obtain ⟨chunks', hchunks', hbare'⟩ := exists_compileBody_of_holds hresolved
  have halike : Template.bare ⟨name, params, chunks', String.ofList (unescape body.toList)⟩ =
      Template.bare ⟨name, params, chunks, body⟩ := by
    simp only [bare, hbare, hbare']
  refine ⟨⟨name, params, chunks', String.ofList (unescape body.toList)⟩,
    ⟨name, params, chunks, body⟩, ?_, ?_, fun before after imports limit => ?_⟩
  · rw [groupOfText_of_read hquoted, defineAll_single_of_ok
      (d := ⟨name, 0, params, String.ofList (unescape body.toList), _⟩) hchunks']
    rfl
  · rw [groupOfText_of_read hbig, defineAll_single_of_ok (d := ⟨name, 0, params, body, _⟩) hchunks]
    rfl
  · have hgroups := Group.alike_of_bare halike group name before after imports
    exact ⟨fun levels args => hgroups.renderCalled_eq halike limit levels args,
      hgroups.renderInline_eq limit⟩

/-- `<x> -\> \\d` in both notations, rendered as `v -> \d` for the argument `v`. -/
theorem groupOfText_notations_arrow :
    compileBody "<x> -\\> \\\\d" =
        .ok [.expression (.param "x" 1), .text [' ', '-', '>', ' ', '\\', 'd']] ∧
      ResolvesOnce "<x> -\\> \\\\d".toList ∧
      ∃ quoted big : Template,
        groupOfText .empty "T.stg" (quotedText "t" ["x"] "<x> -\\> \\\\d") none =
          (.mk "T.stg" ⟨[("t", quoted)]⟩ [], []) ∧
        groupOfText .empty "T.stg" (bigStringText "t" ["x"] "<x> -\\> \\\\d") none =
          (.mk "T.stg" ⟨[("t", big)]⟩ [], []) ∧
        renderCalled (.mk "T.stg" ⟨[("t", quoted)]⟩ []) 9 8 quoted [['v']] =
          renderCalled (.mk "T.stg" ⟨[("t", big)]⟩ []) 9 8 big [['v']] := by
  have hbody : compileBody "<x> -\\> \\\\d" =
      .ok [.expression (.param "x" 1), .text [' ', '-', '>', ' ', '\\', 'd']] := rfl
  have hchars : "<x> -\\> \\\\d".toList =
      ['<', 'x', '>', ' ', '-', '\\', '>', ' ', '\\', '\\', 'd'] := rfl
  have hescapes : EscapesOnly "<x> -\\> \\\\d".toList := hchars ▸
    (.plain (by decide) <| .plain (by decide) <| .plain (by decide) <| .plain (by decide) <|
      .plain (by decide) <| .escape (.inr (.inl rfl)) <| .plain (by decide) <|
      .escape (.inr (.inr rfl)) <| .plain (by decide) .nil)
  have honce : ResolvesOnce "<x> -\\> \\\\d".toList := hchars ▸
    (.plain (by decide) (by decide) <| .plain (by decide) (by decide) <|
      .plain (by decide) (by decide) <| .plain (by decide) (by decide) <|
      .plain (by decide) (by decide) <| .bracket <| .plain (by decide) (by decide) <|
      .backslash (by simp [IsEscapable]) <| .plain (by decide) (by decide) .nil)
  have ht : IsIdentifier "t" := isIdentifier_singleton (c := 't') (by decide)
  have hparams : ∀ p ∈ ["x"], IsIdentifier p :=
    List.forall_mem_singleton.mpr (isIdentifier_singleton (c := 'x') (by decide))
  obtain ⟨quoted, big, hquoted, hbig, halike⟩ :=
    (groupOfText_notations .empty "T.stg" none ht hparams (by rw [hchars]; decide)
      (by rw [hchars]; decide) (by rw [hchars]; decide) (by rw [hchars]; decide)
      hescapes).2.2 _ hbody honce
  exact ⟨hbody, honce, quoted, big, hquoted, hbig, (halike [] [] [] 9).1 8 [['v']]⟩

/-- Between quotes, escaped brackets are read as an expression. -/
theorem groupOfText_resolves_twice :
    EscapesOnly "\\<x\\>!".toList ∧
      (groupOfText .empty "T.stg" (quotedText "t" ["x"] "\\<x\\>!") none).2 = [] ∧
      (groupOfText .empty "T.stg" (bigStringText "t" ["x"] "\\<x\\>!") none).2 = [] ∧
      renderInline (groupOfText .empty "T.stg" (quotedText "t" ["x"] "\\<x\\>!") none).1 9
        "<t(\"v\")>" = (some "v!", []) ∧
      renderInline (groupOfText .empty "T.stg" (bigStringText "t" ["x"] "\\<x\\>!") none).1 9
        "<t(\"v\")>" = (some "<x>!", []) :=
  ⟨.escape (.inl rfl) <| .plain (by decide) <| .escape (.inr (.inl rfl)) <| .plain (by decide) .nil,
    by decide +kernel, by decide +kernel, by decide +kernel, by decide +kernel⟩

end GrammarTrees.Template
