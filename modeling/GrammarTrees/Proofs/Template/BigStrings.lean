import GrammarTrees.Proofs.Template.Definitions
import GrammarTrees.Proofs.Template.Positions

/-! Bodies that are written as big strings. A big string ends with the first two closing angle
brackets, so one that stands at the end of its body is not read as part of it. -/

namespace GrammarTrees.Template

open Lexeme GroupText

variable {name : String} {params : List String} {body : String} {chunks : List Chunk}
  {cs rest : List Char} {offset : Nat}

/-- A group file of one definition, whose body is written as a big string. -/
def bigStringText (name : String) (params : List String) (body : String) : String :=
  definitionHead name params ++ "<<" ++ body ++ ">>"

theorem toList_bigStringText (name : String) (params : List String) (body : String) :
    (bigStringText name params body).toList =
      (definitionHead name params).toList ++ '<' :: '<' :: (body.toList ++ ['>', '>']) := by
  simp [bigStringText]

/-! ### Line ends -/

theorem dropLineEnd_eq_self (hfirst : cs.head? ≠ some '\n') (hreturn : ¬ ['\r', '\n'] <+: cs) :
    dropLineEnd cs = (cs, 0) := by
  unfold dropLineEnd
  split
  · rename_i cs
    exact absurd ⟨cs, rfl⟩ hreturn
  · simp at hfirst
  · rfl

theorem dropLastLineEnd_eq_self (hlast : cs.getLast? ≠ some '\n') : dropLastLineEnd cs = cs := by
  rw [← List.head?_reverse] at hlast
  unfold dropLastLineEnd
  split
  · simp_all
  · simp_all
  · rfl

/-- What is taken away from one end of a big string. -/
inductive IsLineEnd : List Char → Prop
  | none : IsLineEnd []
  | feed : IsLineEnd ['\n']
  | returnFeed : IsLineEnd ['\r', '\n']

theorem exists_dropLineEnd (cs : List Char) : ∃ lineEnd, IsLineEnd lineEnd ∧
    cs = lineEnd ++ (dropLineEnd cs).1 ∧ (dropLineEnd cs).2 = byteLength lineEnd := by
  unfold dropLineEnd
  split
  · exact ⟨_, .returnFeed, rfl, rfl⟩
  · exact ⟨_, .feed, rfl, rfl⟩
  · exact ⟨_, .none, rfl, rfl⟩

theorem exists_dropLastLineEnd (cs : List Char) :
    ∃ lineEnd, IsLineEnd lineEnd ∧ cs = dropLastLineEnd cs ++ lineEnd := by
  unfold dropLastLineEnd
  split
  · rename_i back h
    exact ⟨_, .returnFeed, by simp [List.reverse_eq_iff.mp h]⟩
  · rename_i back _ h
    exact ⟨_, .feed, by simp [List.reverse_eq_iff.mp h]⟩
  · exact ⟨_, .none, (List.append_nil cs).symm⟩

/-! ### Reading -/

theorem bigStringBody_eq (cs : List Char) (offset : Nat) :
    bigStringBody ('<' :: '<' :: (cs ++ ['>', '>'])) offset =
      (String.ofList (dropLastLineEnd (dropLineEnd cs).1), offset + 2 + (dropLineEnd cs).2) := by
  have hcs : (('<' :: '<' :: (cs ++ ['>', '>'])).drop 2).take
      (('<' :: '<' :: (cs ++ ['>', '>'])).length - 4) = cs := by
    simp
  rw [bigStringBody, hcs]

theorem not_closing_concat (hclosing : ¬ ['>', '>'] <:+: cs) (hlast : cs.getLast? ≠ some '>') :
    ¬ ['>', '>'] <:+: cs ++ ['>'] := by
  rw [List.infix_concat_iff, not_or]
  refine ⟨?_, hclosing⟩
  rintro ⟨front, h⟩
  obtain rfl : front ++ ['>'] = cs := by simpa using congrArg List.dropLast h
  simp at hlast

theorem scan_bigString (hclosing : ¬ ['>', '>'] <:+: cs ++ ['>']) (rest : List Char) :
    scan '<' ('<' :: (cs ++ ['>', '>']) ++ rest) =
      ⟨some .bigString, ('<' :: (cs ++ ['>', '>'])).length⟩ := by
  have hlength := lengthThrough_append hclosing rest
  have hdrop : ('<' :: (cs ++ ['>', '>']) ++ rest).drop 1 = cs ++ '>' :: '>' :: rest := by simp
  change enclosed .bigString '>' '>' ('<' :: (cs ++ ['>', '>']) ++ rest) = _
  rw [enclosed, hdrop, hlength]
  simp

/-- A big string is read up to its first two closing angle brackets; a third one is no part of
it. -/
theorem read_bigString {source : String} {back : List Char} (hname : IsIdentifier name)
    (hparams : ∀ p ∈ params, IsIdentifier p)
    (hsource : source.toList = (definitionHead name params).toList ++
      ('<' :: '<' :: (cs ++ ['>', '>']) ++ back))
    (hclosing : ¬ ['>', '>'] <:+: cs) (hlast : cs.getLast? ≠ some '>')
    (hback : back = [] ∨ back = ['>']) :
    GroupText.read source =
      (⟨[], [⟨name, 0, params, String.ofList (dropLastLineEnd (dropLineEnd cs).1),
          byteLength (definitionHead name params).toList + 2 + (dropLineEnd cs).2⟩]⟩,
        back.map fun c => ⟨.invalidCharacter c, byteLength source.toList - 1⟩) := by
  have hscan := scan_bigString (not_closing_concat hclosing hlast) back
  have hbody := congrArg (Except.ok (ε := Failure))
    (bigStringBody_eq cs (byteLength (definitionHead name params).toList))
  have hsize : byteLength source.toList = byteLength (definitionHead name params).toList +
      byteLength ('<' :: '<' :: (cs ++ ['>', '>'])) + byteLength back := by
    rw [hsource, byteLength_append, byteLength_append, Nat.add_assoc]
  rcases hback with rfl | rfl
  · exact read_definition hname hparams hsource (by decide) hscan rfl hbody rfl nofun
  · have hback : readFrom scan (fun _ => false) (byteLength (definitionHead name params).toList +
        byteLength ('<' :: '<' :: (cs ++ ['>', '>']))) 0 ['>'] = [⟨none, ['>'], _⟩] := rfl
    rw [read_definition hname hparams hsource (by decide) hscan rfl hbody hback (by simp), hsize]
    rfl

/-- The body that is read has no line end at either end. -/
theorem read_bigStringText (hname : IsIdentifier name) (hparams : ∀ p ∈ params, IsIdentifier p)
    (hclosing : ¬ ['>', '>'] <:+: body.toList) (hlast : body.toList.getLast? ≠ some '>') :
    GroupText.read (bigStringText name params body) =
      (⟨[], [⟨name, 0, params, String.ofList (dropLastLineEnd (dropLineEnd body.toList).1),
        byteLength (definitionHead name params).toList + 2 + (dropLineEnd body.toList).2⟩]⟩,
        []) := by
  have hsource : (bigStringText name params body).toList = (definitionHead name params).toList ++
      ('<' :: '<' :: (body.toList ++ ['>', '>']) ++ []) := by
    rw [toList_bigStringText, List.append_nil]
  exact read_bigString hname hparams hsource hclosing hlast (.inl rfl)

/-! ### Loading -/

/-- The bracket at the end of a body is one of the two that end its big string, and leaves the last
one over. -/
theorem invalidCharacter_mem_messages (store : Store) (group : String) (dir : Option String)
    (hname : IsIdentifier name) (hparams : ∀ p ∈ params, IsIdentifier p)
    (hclosing : ¬ ['>', '>'] <:+: body.toList) (hangle : body.toList.getLast? = some '>') :
    SyntaxError.message ⟨.invalidCharacter '>', (bigStringText name params body).utf8ByteSize - 1⟩
        group (bigStringText name params body) ∈
      (groupOfText store group (bigStringText name params body) dir).2 := by
  obtain ⟨front, hbody⟩ := List.getLast?_eq_some_iff.mp hangle
  have hfront : ¬ ['>', '>'] <:+: front := fun h =>
    hclosing (h.trans (hbody ▸ List.infix_append' [] front ['>']))
  have hend : front.getLast? ≠ some '>' := by
    intro h
    obtain ⟨front, rfl⟩ := List.getLast?_eq_some_iff.mp h
    exact hclosing (hbody ▸ ⟨front, [], by simp⟩)
  have hsource : (bigStringText name params body).toList = (definitionHead name params).toList ++
      ('<' :: '<' :: (front ++ ['>', '>']) ++ ['>']) := by
    simp [toList_bigStringText, hbody]
  have hread := read_bigString hname hparams hsource hfront hend (.inr rfl)
  rw [groupOfText_of_read hread, ← byteLength_toList]
  simp

theorem source_of_defineAll_single {d : Definition} {t : Template}
    (h : (defineAll .empty [d]).1 = ⟨[(name, t)]⟩) : t.source = d.body := by
  cases hbody : compileBody d.body with
  | ok chunks =>
    rw [defineAll_single_of_ok hbody] at h
    simp only [OrderedMap.mk.injEq, List.cons.injEq, Prod.mk.injEq] at h
    rw [← h.1.2]
  | error e =>
    rw [defineAll_single_of_error hbody] at h
    simp [OrderedMap.empty] at h

/-- A body that can be compiled and holds no `>>` is loaded from a big string, without a message, if
and only if it does not end with a closing angle bracket (and does not start with a carriage return
and a line feed, which would be taken away). Otherwise that bracket is reported as an invalid
character. -/
theorem groupOfText_bigStringText (store : Store) (group : String) (dir : Option String)
    (hname : IsIdentifier name) (hparams : ∀ p ∈ params, IsIdentifier p)
    (hbody : compileBody body = .ok chunks) (hclosing : ¬ ['>', '>'] <:+: body.toList)
    (hfirst : body.toList.head? ≠ some '\n') (hlast : body.toList.getLast? ≠ some '\n') :
    (groupOfText store group (bigStringText name params body) dir =
        (.mk group ⟨[(name, ⟨name, params, chunks, body⟩)]⟩ [], []) ↔
      body.toList.getLast? ≠ some '>' ∧ ¬ ['\r', '\n'] <+: body.toList) ∧
    (body.toList.getLast? = some '>' →
      SyntaxError.message
          ⟨.invalidCharacter '>', (bigStringText name params body).utf8ByteSize - 1⟩
          group (bigStringText name params body) ∈
        (groupOfText store group (bigStringText name params body) dir).2) := by
  refine ⟨⟨fun h => ?_, fun ⟨hangle, hreturn⟩ => ?_⟩, invalidCharacter_mem_messages store group dir
    hname hparams hclosing⟩
  · have hangle : body.toList.getLast? ≠ some '>' := by
      intro hangle
      have hmem := invalidCharacter_mem_messages store group dir hname hparams hclosing hangle
      rw [h] at hmem
      exact List.not_mem_nil hmem
    refine ⟨hangle, ?_⟩
    rintro ⟨back, hback⟩
    rw [groupOfText_of_read (read_bigStringText hname hparams hclosing hangle)] at h
    obtain ⟨hgroup, -⟩ := Prod.mk.inj h
    have hsource := source_of_defineAll_single (Group.mk.inj hgroup).2.1
    -- the body as it is read lacks the line end
    have hlength := congrArg (fun s : String => s.toList.length) hsource
    obtain ⟨lineEnd, -, hline⟩ := exists_dropLastLineEnd back
    have hle := congrArg List.length hline
    rw [← hback] at hlength
    simp [dropLineEnd] at hlength hle
    omega
  · have hread := read_bigStringText hname hparams hclosing hangle
    rw [dropLineEnd_eq_self hfirst hreturn, dropLastLineEnd_eq_self hlast, String.ofList_toList]
      at hread
    rw [groupOfText_of_read hread, defineAll_single_of_ok (d := ⟨name, 0, params, body, _⟩) hbody]
    rfl

/-- A parameter between square brackets is loaded; the last bracket of one that stands alone is
stray. -/
theorem groupOfText_bigStringText_param :
    groupOfText .empty "T.stg" (bigStringText "t" ["x"] "[<x>]") none =
        (.mk "T.stg" ⟨[("t", ⟨"t", ["x"],
          [.text ['['], .expression (.param "x" 2), .text [']']], "[<x>]"⟩)]⟩ [], []) ∧
      SyntaxError.message ⟨.invalidCharacter '>', 15⟩ "T.stg" (bigStringText "t" ["x"] "<x>") ∈
        (groupOfText .empty "T.stg" (bigStringText "t" ["x"] "<x>") none).2 := by
  have ht : IsIdentifier "t" := isIdentifier_singleton (c := 't') (by decide)
  have hparams : ∀ p ∈ ["x"], IsIdentifier p :=
    List.forall_mem_singleton.mpr (isIdentifier_singleton (c := 'x') (by decide))
  have hbody : compileBody "<x>" = .ok [.expression (.param "x" 1)] := rfl
  exact ⟨(groupOfText_bigStringText .empty "T.stg" none ht hparams rfl (by decide) (by decide)
      (by decide)).1.mpr (by decide),
    (groupOfText_bigStringText .empty "T.stg" none ht hparams hbody (by decide) (by decide)
      (by decide)).2 (by decide)⟩

/-- The body `<x>` compiles, but a group file in which it is written as a big string has no template
and two errors. -/
theorem groupOfText_loses_bracket :
    compileBody "<x>" = .ok [.expression (.param "x" 1)] ∧ ¬ ['>', '>'] <:+: "<x>".toList ∧
      bigStringText "t" ["x"] "<x>" = "t(x) ::= <<<x>>>" ∧
      (groupOfText .empty "T.stg" "t(x) ::= <<<x>>>" none).1.templates.keys = [] ∧
      (groupOfText .empty "T.stg" "t(x) ::= <<<x>>>" none).2.length = 2 := by
  refine ⟨rfl, by decide, by decide, by decide, by decide⟩

end GrammarTrees.Template
