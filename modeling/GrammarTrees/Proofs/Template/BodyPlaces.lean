import GrammarTrees.Proofs.Template.BigStrings
import GrammarTrees.Proofs.Template.DefinitionGrammar
import GrammarTrees.Proofs.Template.Loading
import GrammarTrees.Proofs.Template.Positions
import GrammarTrees.Proofs.Text.Quoted

/-! Places in bodies as places in the group file. The characters of a body stand in the file as they
are or, between quotes, as escapes. An error in a body is reported at its offset there, counted from
the start of the body in the file; escapes are one byte longer than the characters they stand
for. -/

namespace GrammarTrees.Template

open Lexeme GroupText

variable {cs front : List Char} {c : Char} {source : String} {d : Definition} {n size : Nat}
  {ls rest segment : List (Lexeme Token)} {l : Lexeme Token}

/-! ### Spellings -/

/-- A character of a body, as it is written in the group file. -/
inductive Spelling where
  | plain (c : Char)
  | escape (c : Char)

namespace Spelling

def chars : Spelling → List Char
  | plain c => [c]
  | escape c => ['\\', c]

def meaning : Spelling → Char
  | plain c => c
  | escape c => escaped c

def isEscape : Spelling → Bool
  | plain _ => false
  | escape _ => true

theorem byteLength_chars (spelling : List Spelling) :
    byteLength (spelling.flatMap chars) =
      byteLength (spelling.map meaning) + spelling.countP isEscape := by
  induction spelling with
  | nil => rfl
  | cons s spelling ih =>
    rw [List.flatMap_cons, byteLength_append, ih, List.map_cons, byteLength_cons, List.countP_cons]
    cases s with
    | plain c => simp [chars, meaning, isEscape]; omega
    | escape c =>
      have hbackslash : '\\'.utf8Size = 1 := rfl
      simp [chars, meaning, isEscape, utf8Size_escaped, hbackslash]
      omega

theorem flatMap_chars_plain (cs : List Char) : (cs.map plain).flatMap chars = cs := by
  induction cs with
  | nil => rfl
  | cons c cs ih => rw [List.map_cons, List.flatMap_cons, ih]; rfl

theorem map_meaning_plain (cs : List Char) : (cs.map plain).map meaning = cs := by
  rw [List.map_map]
  exact List.map_id cs

/-- A text between quotes is a spelling of what it stands for. -/
theorem exists_of_quotable {quote : Char} {allowed : Char → Bool}
    (h : Quotable quote allowed cs) : ∃ spelling : List Spelling,
      spelling.flatMap chars = cs ∧ spelling.map meaning = unescape cs := by
  induction h with
  | nil => exact ⟨[], rfl, rfl⟩
  | @plain c cs _ hescape _ _ ih =>
    obtain ⟨spelling, hchars, hmeaning⟩ := ih
    refine ⟨.plain c :: spelling, by rw [List.flatMap_cons, hchars]; rfl, ?_⟩
    rw [unescape_cons hescape, List.map_cons, hmeaning]
    rfl
  | @escape c cs _ _ ih =>
    obtain ⟨spelling, hchars, hmeaning⟩ := ih
    refine ⟨.escape c :: spelling, by rw [List.flatMap_cons, hchars]; rfl, ?_⟩
    rw [unescape, List.map_cons, hmeaning]
    rfl

end Spelling

/-- How the body of a definition is written in the text of its file, and what stands in front of
it there. -/
inductive Spells (source : List Char) (d : Definition) : (front : List Char) →
    (spelling : List Spelling) → Prop
  | bigString {front lineEnd body lastEnd back : List Char} (hfirst : IsLineEnd lineEnd)
      (hlast : IsLineEnd lastEnd)
      (hsource : source =
        front ++ '<' :: '<' :: lineEnd ++ (body ++ (lastEnd ++ '>' :: '>' :: back)))
      (hbody : d.body.toList = body)
      (hoffset : d.bodyOffset = byteLength (front ++ '<' :: '<' :: lineEnd)) :
      Spells source d (front ++ '<' :: '<' :: lineEnd) (body.map .plain)
  | quoted {front back : List Char} {spelling : List Spelling}
      (hsource : source = front ++ ['"'] ++ (spelling.flatMap Spelling.chars ++ '"' :: back))
      (hbody : d.body.toList = spelling.map Spelling.meaning)
      (hoffset : d.bodyOffset = byteLength (front ++ ['"'])) :
      Spells source d (front ++ ['"']) spelling

namespace Spells

variable {spelling : List Spelling} {chars : List Char}

theorem exists_back (h : Spells chars d front spelling) :
    ∃ back, chars = front ++ (spelling.flatMap Spelling.chars ++ back) := by
  cases h with
  | bigString _ _ hsource => exact ⟨_, by rw [Spelling.flatMap_chars_plain]; exact hsource⟩
  | quoted hsource => exact ⟨_, hsource⟩

theorem body_eq (h : Spells chars d front spelling) :
    d.body.toList = spelling.map Spelling.meaning := by
  cases h with
  | bigString _ _ _ hbody => rw [Spelling.map_meaning_plain, hbody]
  | quoted _ hbody => exact hbody

theorem bodyOffset_eq (h : Spells chars d front spelling) : d.bodyOffset = byteLength front := by
  cases h <;> assumption

end Spells

/-! ### The scanner -/

theorem eq_of_scan_string {token : Token} (h : (scan c cs).token = some token)
    (htoken : token.isString = true) : c = '<' ∨ c = '"' := by
  by_contra hc
  obtain ⟨hangle, hquote⟩ := not_or.mp hc
  suffices (scan c cs).token.any Token.isString = false by simp [h, htoken] at this
  unfold scan enclosed Scan.single Scan.run Scan.stray
  split <;> first | contradiction | rfl | (try dsimp only); (repeat' split) <;> rfl

theorem exists_of_scan_angle {token : Token} (h : scan '<' cs = ⟨some token, n⟩) :
    token = .bigString ∧
      ∃ inner back, cs = '<' :: (inner ++ '>' :: '>' :: back) ∧ n = inner.length + 3 := by
  change (if cs.head? = some '<' then enclosed .bigString '>' '>' cs else .stray) = _ at h
  split at h
  · rename_i hhead
    obtain ⟨more, rfl⟩ := List.head?_eq_some_iff.mp hhead
    unfold enclosed at h
    split at h
    · rename_i length hlength
      obtain ⟨inner, back, hmore, -, rfl⟩ := exists_of_lengthThrough hlength
      obtain ⟨htoken, hn⟩ := Scan.mk.inj h
      exact ⟨(Option.some.inj htoken).symm, inner, back, congrArg ('<' :: ·) hmore, hn.symm⟩
    · simp at h
  · simp [Scan.stray] at h

theorem exists_of_scan_quote {token : Token} (h : scan '"' cs = ⟨some token, n⟩) :
    token = .quoted ∧ ∃ inner back, cs = inner ++ '"' :: back ∧
      Quotable '"' (· ≠ '\n') inner ∧ n = inner.length + 1 := by
  rw [scan_quote] at h
  obtain ⟨htoken, hn⟩ := Scan.mk.inj h
  split at htoken
  · rename_i hend
    exact ⟨(Option.some.inj htoken).symm, exists_of_quotedRun (Prod.ext hend hn)⟩
  · simp at htoken

/-! ### Definitions -/

theorem spells_of_bigString {inner back : List Char}
    (hsource : cs = front ++ '<' :: '<' :: (inner ++ '>' :: '>' :: back))
    (hbody : bigStringBody ('<' :: '<' :: (inner ++ ['>', '>'])) (byteLength front) =
      (d.body, d.bodyOffset)) : ∃ front spelling, Spells cs d front spelling := by
  rw [bigStringBody_eq] at hbody
  obtain ⟨hbody, hoffset⟩ := Prod.mk.inj hbody
  obtain ⟨lineEnd, hfirst, hinner, hdropped⟩ := exists_dropLineEnd inner
  generalize (dropLineEnd inner).1 = kept at *
  obtain ⟨lastEnd, hlast, hkept⟩ := exists_dropLastLineEnd kept
  generalize dropLastLineEnd kept = body at *
  have hsource' : cs =
      front ++ '<' :: '<' :: lineEnd ++ (body ++ (lastEnd ++ '>' :: '>' :: back)) := by
    simp [hsource, hinner, hkept]
  refine ⟨_, _, .bigString hfirst hlast hsource'
    ((congrArg String.toList hbody).symm.trans String.toList_ofList) ?_⟩
  have hangle : '<'.utf8Size = 1 := rfl
  rw [← hoffset, hdropped]
  simp [byteLength_append, hangle]
  omega

theorem spells_of_quoted {inner back : List Char} {allowed : Char → Bool}
    (hsource : cs = front ++ '"' :: (inner ++ '"' :: back)) (hinner : Quotable '"' allowed inner)
    (hbody : unquote '"' (String.ofList ('"' :: (inner ++ ['"']))) = d.body)
    (hoffset : byteLength front + 1 = d.bodyOffset) :
    ∃ front spelling, Spells cs d front spelling := by
  obtain ⟨spelling, hchars, hmeaning⟩ := Spelling.exists_of_quotable hinner
  have hsource' : cs = front ++ ['"'] ++ (spelling.flatMap Spelling.chars ++ '"' :: back) := by
    rw [hsource, hchars, List.append_assoc, List.singleton_append]
  refine ⟨_, spelling, .quoted hsource' ?_ ?_⟩
  · rw [← hbody, unquote_quoted, String.toList_ofList, hmeaning]
  · rw [← hoffset, byteLength_append]
    rfl

/-- The string of a definition stands in the file, and its body is what the string stands for. -/
theorem exists_spells_of_readBody (hl : l ∈ readAll scan cs)
    (hbody : readBody size (l :: rest) = .ok (d.body, d.bodyOffset)) :
    ∃ front spelling, Spells cs d front spelling := by
  obtain ⟨front, c, back, rfl, rfl⟩ := exists_of_mem_readFrom hl
  rw [Nat.zero_add, readBody] at hbody
  have hscan : ∀ token, (scan c back).token = some token →
      scan c back = ⟨some token, (scan c back).further⟩ := fun token h => by rw [← h]
  -- The token says which notation it is, and the first character must agree with it.
  split at hbody
  · rename_i htoken
    rcases eq_of_scan_string htoken rfl with rfl | rfl
    · obtain ⟨-, inner, rest, rfl, hlength⟩ := exists_of_scan_angle (hscan _ htoken)
      have hbody := Except.ok.inj hbody
      have hchars : ('<' :: (inner ++ '>' :: '>' :: rest)).take (inner.length + 3) =
          '<' :: (inner ++ ['>', '>']) := by simp [List.take_length_add_append]
      rw [hlength, hchars] at hbody
      exact spells_of_bigString rfl hbody
    · cases (exists_of_scan_quote (hscan _ htoken)).1
  · rename_i htoken
    rcases eq_of_scan_string htoken rfl with rfl | rfl
    · cases (exists_of_scan_angle (hscan _ htoken)).1
    · obtain ⟨-, inner, rest, rfl, hinner, hlength⟩ := exists_of_scan_quote (hscan _ htoken)
      obtain ⟨hbody, hoffset⟩ := Prod.mk.inj (Except.ok.inj hbody)
      have hchars : (inner ++ '"' :: rest).take (inner.length + 1) = inner ++ ['"'] := by
        simp [List.take_length_add_append]
      rw [Lexeme.text, hlength, hchars] at hbody
      exact spells_of_quoted rfl hinner hbody hoffset
  · cases hbody

/-! ### Group files -/

theorem readImports_suffix (size : Nat) (ls : List (Lexeme Token)) :
    (readImports size ls).2.2 <:+ ls := by
  fun_induction readImports size ls with
  | case1 => exact List.suffix_refl _
  | case2 => exact List.nil_suffix
  | case3 => exact List.suffix_refl _
  | case4 l s ls _ _ imports errors rest hread =>
    rename_i ih
    rw [hread] at ih
    exact ih.trans (List.suffix_append [l, s] ls)
  | case5 l s ls _ _ imports errors rest hread =>
    rename_i ih
    rw [hread] at ih
    exact ih.trans (List.suffix_cons l _)
  | case6 => exact List.suffix_refl _

theorem exists_readBody (h : readDefinition size ls = .ok (d, rest)) :
    ∃ l ∈ ls, ∃ more, readBody size (l :: more) = .ok (d.body, d.bodyOffset) := by
  obtain ⟨front, rfl, hd⟩ := readDefinition_eq_ok_iff.mp h
  cases hd with
  | @mk _ _ _ _ string _ _ _ _ _ _ _ _ hbody =>
    exact ⟨string, by simp, rest, readBody_eq_ok_iff.mpr ⟨string, rest, rfl, hbody⟩⟩

theorem exists_of_mem_readDefinitions {skip : Nat} (h : d ∈ (readDefinitions size skip ls).2) :
    ∃ back rest, back <:+ ls ∧ readDefinition size back = .ok (d, rest) := by
  induction ls generalizing skip with
  | nil => cases skip <;> cases h
  | cons l ls ih =>
    have hlater : ∀ skip', d ∈ (readDefinitions size skip' ls).2 →
        ∃ back rest, back <:+ l :: ls ∧ readDefinition size back = .ok (d, rest) := by
      intro skip' h
      obtain ⟨back, rest, hback, hread⟩ := ih h
      exact ⟨back, rest, hback.trans (List.suffix_cons l ls), hread⟩
    cases skip with
    | succ skip => exact hlater skip h
    | zero =>
      rw [readDefinitions] at h
      split at h
      · rename_i d' rest hread
        rcases List.mem_cons.mp h with rfl | h
        · exact ⟨_, rest, List.suffix_refl _, hread⟩
        · exact hlater _ h
      · exact hlater _ h

/-- The body of every definition that is read stands in the file. -/
theorem exists_spells (h : d ∈ (GroupText.read source).1.definitions) :
    ∃ front spelling, Spells source.toList d front spelling := by
  obtain ⟨ls, rest, hls, hd⟩ := exists_of_mem_readDefinitions h
  obtain ⟨l, hl, more, hbody⟩ := exists_readBody hd
  refine exists_spells_of_readBody ?_ hbody
  exact (List.mem_filter.mp ((hls.trans (readImports_suffix _ _)).mem hl)).1

/-! ### Reports -/

/-- The errors of later definitions come after those of earlier ones. -/
theorem defineAll_append (table : OrderedMap String Template) (before after : List Definition) :
    defineAll table (before ++ after) = ((defineAll (defineAll table before).1 after).1,
      (defineAll table before).2 ++ (defineAll (defineAll table before).1 after).2) := by
  induction before generalizing table with
  | nil => rfl
  | cons d before ih =>
    rw [List.cons_append, defineAll, defineAll]
    split
    · exact ih _
    · simp only [ih, List.cons_append]

variable {store : Store} {load : Loader} {visited : List Location} {name : String}
  {dir : Option String} {before after : List Definition} {e : SyntaxError}

theorem mem_messages_of_bodyError
    (hread : (GroupText.read source).1.definitions = before ++ d :: after)
    (hnew : (defineAll .empty before).1.contains d.name = false)
    (hbody : compileBody d.body = .error e) :
    SyntaxError.message ⟨e.fault, e.offset + d.bodyOffset⟩ name source ∈
      (buildGroup store load visited name source dir).messages := by
  have hdefine : define (defineAll .empty before).1 d =
      .error ⟨e.fault, e.offset + d.bodyOffset⟩ := by
    rw [define, hnew, Template.compile, hbody]
    rfl
  have hmem : ⟨e.fault, e.offset + d.bodyOffset⟩ ∈
      (defineAll .empty (GroupText.read source).1.definitions).2 := by
    rw [hread, defineAll_append, defineAll, hdefine]
    exact List.mem_append_right _ List.mem_cons_self
  rw [buildGroup_eq]
  exact List.mem_append_right _ (List.mem_map_of_mem hmem)

/-- The error in the body of a definition is reported. The compiler stopped behind the characters
that `done` spells; the reported place is that of the next character in the file if and only if
there is no escape among them, and each escape moves it one byte to the front. In a big string there
are none. -/
theorem buildGroup_bodyError (store : Store) (load : Loader) (visited : List Location)
    (name : String) (dir : Option String)
    (hread : (GroupText.read source).1.definitions = before ++ d :: after)
    (hnew : (defineAll .empty before).1.contains d.name = false)
    (hbody : compileBody d.body = .error e) :
    SyntaxError.message ⟨e.fault, e.offset + d.bodyOffset⟩ name source ∈
      (buildGroup store load visited name source dir).messages ∧
    ∃ front done todo, Spells source.toList d front (done ++ todo) ∧
      e.offset = byteLength (done.map Spelling.meaning) ∧
      e.fault.StandsAt (todo.map Spelling.meaning) ∧
      e.offset + d.bodyOffset + done.countP Spelling.isEscape =
        byteLength (front ++ done.flatMap Spelling.chars) ∧
      (Position.ofOffset source (e.offset + d.bodyOffset) =
          .ofOffset source (byteLength (front ++ done.flatMap Spelling.chars)) ↔
        ∀ s ∈ done, s.isEscape = false) := by
  refine ⟨mem_messages_of_bodyError hread hnew hbody, ?_⟩
  obtain ⟨front, spelling, hspells⟩ := exists_spells
    (hread ▸ List.mem_append_right before List.mem_cons_self)
  obtain ⟨done', todo', hdone, hoffset, hfault⟩ := standsIn_of_compileBody hbody
  rw [hspells.body_eq] at hdone
  obtain ⟨done, todo, rfl, rfl, rfl⟩ := List.map_eq_append_iff.mp hdone
  have hplace : e.offset + d.bodyOffset + done.countP Spelling.isEscape =
      byteLength (front ++ done.flatMap Spelling.chars) := by
    rw [hoffset, hspells.bodyOffset_eq, byteLength_append, Spelling.byteLength_chars]
    omega
  refine ⟨front, done, todo, hspells, by rw [hoffset, Nat.zero_add], hfault, hplace, ?_⟩
  obtain ⟨back, hsource⟩ := hspells.exists_back
  rw [List.flatMap_append, List.append_assoc, ← List.append_assoc] at hsource
  rw [Position.ofOffset_eq_iff hsource (by omega), ← hplace]
  simp [List.countP_eq_zero]

/-- A stray character in the second line of a big string. -/
theorem buildGroup_bodyError_secondLine :
    (GroupText.read "t() ::= <<\nα<¢>\n>>").1.definitions = [⟨"t", 0, [], "α<¢>", 11⟩] ∧
      compileBody "α<¢>" = .error ⟨.invalidCharacter '¢', 3⟩ ∧
      (⟨.compile, .lexer, some "T.stg", some ⟨2, 2⟩, "invalid character '¢'", none⟩ : Message) ∈
        (buildGroup .empty (loadFile .empty 0) [] "T.stg" "t() ::= <<\nα<¢>\n>>"
          none).messages := by
  have hread : (GroupText.read "t() ::= <<\nα<¢>\n>>").1.definitions =
      [] ++ ⟨"t", 0, [], "α<¢>", 11⟩ :: [] := rfl
  have hbody : compileBody "α<¢>" = .error ⟨.invalidCharacter '¢', 3⟩ := rfl
  exact ⟨hread, hbody,
    (buildGroup_bodyError .empty (loadFile .empty 0) [] "T.stg" none hread rfl hbody).1⟩

/-- The stray character is the thirteenth of its line, but it is reported in the place of the one
before it, since an escape stands further to the front. -/
theorem buildGroup_misplaces_bodyError :
    (GroupText.read "t() ::= \"\\\"<¢>\"").1.definitions = [⟨"t", 0, [], "\"<¢>", 9⟩] ∧
      compileBody "\"<¢>" = .error ⟨.invalidCharacter '¢', 2⟩ ∧
      "t() ::= \"\\\"<¢>\"".toList = "t() ::= \"\\\"<".toList ++ '¢' :: ">\"".toList ∧
      Position.ofOffset "t() ::= \"\\\"<¢>\"" (byteLength "t() ::= \"\\\"<".toList) = ⟨1, 12⟩ ∧
      (groupOfText .empty "T.stg" "t() ::= \"\\\"<¢>\"" none).2 =
        [⟨.compile, .lexer, some "T.stg", some ⟨1, 11⟩, "invalid character '¢'", none⟩] := by
  refine ⟨rfl, rfl, by decide, by decide, by decide⟩

end GrammarTrees.Template
