import GrammarTrees.Proofs.Template.DefinitionGrammar
import GrammarTrees.Proofs.Template.Loading

/-! Error recovery in group files. The lexemes after the imports are cut behind each string, and
each of the segments gives a template of its own or one error of its own, whatever the others
hold. -/

namespace GrammarTrees.Template

open GroupText

/-- Lexemes cut behind each string, and those behind the last one. -/
structure CutInto (ls : List (Lexeme GroupText.Token))
    (segments : List (List (Lexeme GroupText.Token))) (rest : List (Lexeme GroupText.Token)) :
    Prop where
  append : segments.flatten ++ rest = ls
  segments : ∀ segment ∈ segments, IsSegment segment
  rest : Stringless rest

/-- What a segment gives when there are templates with the names `taken`. -/
inductive Contributes (taken : List String) (segment : List (Lexeme GroupText.Token)) :
    Except SyntaxError Template → Prop
  | template {d : Definition} {t : Template} (hd : IsDefinition segment d) (hnew : d.name ∉ taken)
      (ht : Template.compile d.name d.params d.body = .ok t) :
      Contributes taken segment (.ok t)
  | mismatch {l : Lexeme GroupText.Token} (hd : ∀ d, ¬ IsDefinition segment d) (hl : l ∈ segment)
      (expecting : String) :
      Contributes taken segment (.error ⟨.mismatched l.text expecting, l.offset⟩)
  | redefinition {d : Definition} (hd : IsDefinition segment d) (htaken : d.name ∈ taken) :
      Contributes taken segment (.error ⟨.redefinition d.name, d.nameOffset⟩)
  | body {d : Definition} {e : SyntaxError} (hd : IsDefinition segment d) (hnew : d.name ∉ taken)
      (he : Template.compile d.name d.params d.body = .error e) :
      Contributes taken segment (.error ⟨e.fault, e.offset + d.bodyOffset⟩)

/-- The name that an outcome gives a template to. -/
def takenBy : Except SyntaxError Template → List String
  | .ok t => [t.name]
  | .error _ => []

/-- What segments give in order. -/
inductive Contributions : (taken : List String) → List (List (Lexeme GroupText.Token)) →
    List (Except SyntaxError Template) → Prop
  | nil {taken : List String} : Contributions taken [] []
  | cons {taken : List String} {segment : List (Lexeme GroupText.Token)}
      {segments : List (List (Lexeme GroupText.Token))} {outcome : Except SyntaxError Template}
      {outcomes : List (Except SyntaxError Template)} (h : Contributes taken segment outcome)
      (hrest : Contributions (taken ++ takenBy outcome) segments outcomes) :
      Contributions taken (segment :: segments) (outcome :: outcomes)

def templatesOf (outcomes : List (Except SyntaxError Template)) : List Template :=
  outcomes.filterMap Except.toOption

def errorsOf (outcomes : List (Except SyntaxError Template)) : List SyntaxError :=
  outcomes.filterMap fun
    | .ok _ => none
    | .error e => some e

/-- The segment is a definition that compiles to the template. -/
def Compiles (segment : List (Lexeme GroupText.Token)) (t : Template) : Prop :=
  ∃ d, IsDefinition segment d ∧ Template.compile d.name d.params d.body = .ok t

variable {ls rest segment : List (Lexeme GroupText.Token)}
  {segments : List (List (Lexeme GroupText.Token))} {taken : List String} {d : Definition}
  {t : Template} {e : SyntaxError} {outcome : Except SyntaxError Template}
  {outcomes : List (Except SyntaxError Template)} {table : OrderedMap String Template}

/-! ### Segments -/

/-- Lexemes with tokens can be cut into segments. -/
theorem exists_cutInto (h : ∀ l ∈ ls, l.token.isSome = true) :
    ∃ segments rest, CutInto ls segments rest := by
  induction ls with
  | nil => exact ⟨[], [], rfl, nofun, nofun⟩
  | cons l ls ih =>
    obtain ⟨hl, hls⟩ := List.forall_mem_cons.mp h
    obtain ⟨segments, rest, rfl, hsegments, hrest⟩ := ih hls
    by_cases hstring : l.token.any Token.isString = true
    · exact ⟨[l] :: segments, rest, by simp,
        List.forall_mem_cons.mpr ⟨⟨[], l, rfl, nofun, hstring⟩, hsegments⟩, hrest⟩
    · obtain ⟨token, htoken⟩ := Option.isSome_iff_exists.mp hl
      have hfree : token.isString = false := by simpa [htoken] using hstring
      cases segments with
      | nil =>
        exact ⟨[], l :: rest, rfl, nofun, List.forall_mem_cons.mpr ⟨⟨token, htoken, hfree⟩, hrest⟩⟩
      | cons segment segments =>
        obtain ⟨⟨front, k, rfl, hfront, hk⟩, hmore⟩ := List.forall_mem_cons.mp hsegments
        exact ⟨(l :: (front ++ [k])) :: segments, rest, by simp,
          List.forall_mem_cons.mpr ⟨⟨l :: front, k, rfl,
            List.forall_mem_cons.mpr ⟨⟨token, htoken, hfree⟩, hfront⟩, hk⟩, hmore⟩, hrest⟩

/-! ### Contributions -/

theorem name_of_compile {name body : String} {params : List String}
    (h : Template.compile name params body = .ok t) : t.name = name := by
  obtain ⟨chunks, -, h⟩ := bind_eq_ok h
  cases h
  rfl

theorem mem_keys_of_contains {name : String} (h : table.contains name = true) :
    name ∈ table.keys := by
  obtain ⟨t, ht⟩ := Option.isSome_iff_exists.mp h
  exact List.mem_map_of_mem (OrderedMap.mem_entries_of_get? ht)

/-- A definition gives its template to a table or leaves the table as it is, with one error. -/
theorem exists_define (hd : IsDefinition segment d) (table : OrderedMap String Template) :
    (∃ t, Contributes table.keys segment (.ok t) ∧ define table d = .ok (table.insert t.name t) ∧
      table.get? t.name = none) ∨
    ∃ e, Contributes table.keys segment (.error e) ∧ define table d = .error e := by
  unfold define
  split
  · rename_i hcontains
    exact .inr ⟨_, .redefinition hd (mem_keys_of_contains hcontains), rfl⟩
  · rename_i hcontains
    have hnone : table.get? d.name = none := by simpa [OrderedMap.contains] using hcontains
    have hnew : d.name ∉ table.keys := OrderedMap.not_mem_keys_of_get? hnone
    split
    · rename_i t ht
      have hname := name_of_compile ht
      exact .inl ⟨t, .template hd hnew ht, by rw [hname], by rw [hname, hnone]⟩
    · rename_i e he
      exact .inr ⟨_, .body hd hnew he, rfl⟩

theorem keys_insert_of_get? (h : table.get? t.name = none) :
    (table.insert t.name t).keys = table.keys ++ [t.name] := by
  rw [OrderedMap.keys, OrderedMap.entries_insert h, List.map_append]
  rfl

/-- What is read of segments and defined in a table is what they contribute to it. -/
theorem exists_contributions (size : Nat) (hcut : CutInto ls segments rest)
    (table : OrderedMap String Template) :
    let read := readDefinitions size 0 ls
    let defined := defineAll table read.2
    ∃ outcomes errors, Contributions table.keys segments outcomes ∧
      errors.length = (if rest = [] then 0 else 1) ∧
      defined.1.entries = table.entries ++ (templatesOf outcomes).map (fun t => (t.name, t)) ∧
      (read.1 ++ defined.2).Perm (errorsOf outcomes ++ errors) := by
  obtain ⟨rfl, hsegments, hrest⟩ := hcut
  induction segments generalizing table with
  | nil =>
    by_cases hnil : rest = []
    · subst hnil
      exact ⟨[], [], .nil, rfl, by simp [readDefinitions, defineAll, templatesOf], .nil⟩
    · obtain ⟨e, he⟩ := readDefinitions_of_stringless size hrest hnil
      refine ⟨[], [e], .nil, by simp [hnil], ?_, ?_⟩
      · simp [he, defineAll, templatesOf]
      · simp [he, defineAll, errorsOf]
  | cons segment segments ih =>
    obtain ⟨hsegment, hsegments⟩ := List.forall_mem_cons.mp hsegments
    rw [List.flatten_cons, List.append_assoc]
    rcases readDefinitions_segment size hsegment (segments.flatten ++ rest) with
      ⟨d, hd, hread⟩ | ⟨hd, l, hl, expecting, hread⟩
    · rw [hread]
      rcases exists_define hd table with ⟨t, ht, hdefine, hnew⟩ | ⟨e, he, hdefine⟩
      · obtain ⟨outcomes, errors, houtcomes, hlength, hentries, herrors⟩ :=
          ih (table.insert t.name t) hsegments
        rw [keys_insert_of_get? hnew] at houtcomes
        rw [OrderedMap.entries_insert hnew, List.append_assoc] at hentries
        simp only [defineAll, hdefine]
        exact ⟨.ok t :: outcomes, errors, .cons ht houtcomes, hlength, hentries, herrors⟩
      · obtain ⟨outcomes, errors, houtcomes, hlength, hentries, herrors⟩ := ih table hsegments
        rw [← List.append_nil table.keys] at houtcomes
        simp only [defineAll, hdefine]
        exact ⟨.error e :: outcomes, errors, .cons he houtcomes, hlength, hentries,
          List.perm_middle.trans (herrors.cons e)⟩
    · obtain ⟨outcomes, errors, houtcomes, hlength, hentries, herrors⟩ := ih table hsegments
      rw [← List.append_nil table.keys] at houtcomes
      rw [hread]
      exact ⟨.error _ :: outcomes, errors, .cons (.mismatch hd hl expecting) houtcomes, hlength,
        hentries, herrors.cons _⟩

/-! ### First definitions -/

theorem Contributes.not_compiles (h : Contributes taken segment (.error e)) {name : String}
    (hname : name ∉ taken) (ht : Compiles segment t) : t.name ≠ name := by
  obtain ⟨d, hd, ht⟩ := ht
  rw [name_of_compile ht]
  rintro rfl
  cases h with
  | mismatch hnone => exact hnone d hd
  | redefinition hd' htaken => exact hname (hd.unique hd' ▸ htaken)
  | body hd' _ he =>
    obtain rfl := hd.unique hd'
    rw [ht] at he
    cases he

theorem Contributes.compiles (h : Contributes taken segment (.ok t)) : Compiles segment t := by
  cases h with
  | template hd _ ht => exact ⟨_, hd, ht⟩

theorem Compiles.unique {u : Template} (h : Compiles segment t) (h' : Compiles segment u) :
    t = u := by
  obtain ⟨d, hd, ht⟩ := h
  obtain ⟨d', hd', hu⟩ := h'
  obtain rfl := hd.unique hd'
  rw [ht] at hu
  exact Except.ok.inj hu

/-- The first of the segments that compile to a template of that name compiles to `t`. -/
def FirstCompiles (segments : List (List (Lexeme GroupText.Token))) (name : String)
    (t : Template) : Prop :=
  ∃ before segment after, segments = before ++ segment :: after ∧ Compiles segment t ∧
    t.name = name ∧ ∀ s ∈ before, ∀ u, Compiles s u → u.name ≠ name

theorem firstCompiles_cons_of_ne {name : String}
    (hne : ∀ u, Compiles segment u → u.name ≠ name) :
    FirstCompiles (segment :: segments) name t ↔ FirstCompiles segments name t := by
  constructor
  · rintro ⟨before, s, after, hsegments, ht, hname, hbefore⟩
    cases before with
    | nil =>
      obtain ⟨rfl, rfl⟩ := List.cons.inj hsegments
      exact absurd hname (hne t ht)
    | cons s' before =>
      obtain ⟨rfl, rfl⟩ := List.cons.inj hsegments
      exact ⟨before, s, after, rfl, ht, hname, (List.forall_mem_cons.mp hbefore).2⟩
  · rintro ⟨before, s, after, rfl, ht, hname, hbefore⟩
    exact ⟨segment :: before, s, after, rfl, ht, hname, List.forall_mem_cons.mpr ⟨hne, hbefore⟩⟩

theorem firstCompiles_cons_iff {u : Template} (hu : Compiles segment u) :
    FirstCompiles (segment :: segments) u.name t ↔ t = u := by
  constructor
  · rintro ⟨before, s, after, hsegments, ht, -, hbefore⟩
    cases before with
    | nil =>
      obtain ⟨rfl, rfl⟩ := List.cons.inj hsegments
      exact ht.unique hu
    | cons s' before =>
      obtain ⟨rfl, rfl⟩ := List.cons.inj hsegments
      exact absurd rfl (hbefore _ List.mem_cons_self u hu)
  · rintro rfl
    exact ⟨[], segment, segments, rfl, hu, rfl, nofun⟩

/-- Among the templates that segments contribute, that of a name is the first that compiles. -/
theorem Contributions.find?_eq_some_iff (h : Contributions taken segments outcomes)
    {name : String} (hname : name ∉ taken) :
    (templatesOf outcomes).find? (·.name = name) = some t ↔ FirstCompiles segments name t := by
  induction h with
  | nil =>
    simp [templatesOf, FirstCompiles]
  | @cons taken segment segments outcome outcomes h _ ih =>
    cases outcome with
    | error e =>
      rw [firstCompiles_cons_of_ne fun u hu => h.not_compiles hname hu]
      exact ih (by simpa [takenBy] using hname)
    | ok u =>
      have hcons : templatesOf (.ok u :: outcomes) = u :: templatesOf outcomes := rfl
      rw [hcons]
      by_cases hu : u.name = name
      · subst hu
        rw [List.find?_cons_of_pos (by simp), firstCompiles_cons_iff h.compiles,
          Option.some.injEq, eq_comm]
      · rw [List.find?_cons_of_neg (by simpa using hu),
          ih (by simpa [takenBy, Ne.symm hu] using hname), firstCompiles_cons_of_ne]
        intro v hv
        rwa [← h.compiles.unique hv]

/-! ### Groups -/

variable {clauses : List (Lexeme GroupText.Token × Lexeme GroupText.Token)} {source : String}

/-- An import clause: its keyword and its path. -/
def IsClause (c : Lexeme GroupText.Token × Lexeme GroupText.Token) : Prop :=
  c.1.token = some .importWord ∧ c.2.token = some .quoted

def clauseImport (c : Lexeme GroupText.Token × Lexeme GroupText.Token) : Import :=
  ⟨unquote '"' c.2.text, c.2.offset⟩

theorem readImports_of_clauses (size : Nat) (hclauses : ∀ c ∈ clauses, IsClause c)
    (hnext : ∀ l ∈ ls.head?, l.token ≠ some .importWord) :
    readImports size (clauses.flatMap (fun c => [c.1, c.2]) ++ ls) =
      (clauses.map clauseImport, [], ls) := by
  induction clauses with
  | nil =>
    cases ls with
    | nil => rfl
    | cons l ls => exact readImports_of_ne (hnext l rfl) size ls
  | cons c clauses ih =>
    obtain ⟨⟨himport, hpath⟩, hclauses⟩ := List.forall_mem_cons.mp hclauses
    have ih := ih hclauses
    rw [List.flatMap_cons, List.append_assoc, List.cons_append, List.cons_append, List.nil_append,
      readImports, if_pos himport, if_pos hpath, ih]
    rfl

theorem get?_of_entries {ts : List Template} (h : table.entries = ts.map fun t => (t.name, t))
    (key : String) : table.get? key = ts.find? (·.name = key) := by
  rw [OrderedMap.get?, h, List.find?_map, Option.map_map]
  exact Option.map_id'

theorem read_of_clauses
    (hstrays : ∀ l ∈ Lexeme.readAll GroupText.scan source.toList, l.token.isSome = true)
    (htokens : visible (Lexeme.readAll GroupText.scan source.toList) =
      clauses.flatMap (fun c => [c.1, c.2]) ++ ls)
    (hclauses : ∀ c ∈ clauses, IsClause c)
    (hnext : ∀ l ∈ ls.head?, l.token ≠ some .importWord) :
    let read := readDefinitions (byteLength source.toList) 0 ls
    GroupText.read source = (⟨clauses.map clauseImport, read.2⟩, read.1) := by
  have hnone : (Lexeme.readAll GroupText.scan source.toList).filter (·.token.isNone) = [] :=
    List.filter_eq_nil_iff.mpr fun l hl => by simp [Option.isSome_iff_ne_none.mp (hstrays l hl)]
  rw [visible] at htokens
  simp only [GroupText.read, hnone, htokens, readImports_of_clauses _ hclauses hnext,
    List.map_nil, List.nil_append]

/-- Behind import clauses that are all complete, a group file without stray characters is cut into
segments, and what it gives is what each of them contributes. A definition gives its template if it
compiles and no segment before it has given one of its name, and no error then; any other segment
gives one error and no template, and so does what is left behind the last string. -/
theorem buildGroup_segments (store : Store) (load : Loader) (visited : List Location)
    (name : String) (dir : Option String)
    (hstrays : ∀ l ∈ Lexeme.readAll GroupText.scan source.toList, l.token.isSome = true)
    (htokens : visible (Lexeme.readAll GroupText.scan source.toList) =
      clauses.flatMap (fun c => [c.1, c.2]) ++ ls)
    (hclauses : ∀ c ∈ clauses, IsClause c)
    (hnext : ∀ l ∈ ls.head?, l.token ≠ some .importWord) :
    (∃ segments rest, CutInto ls segments rest) ∧
    ∀ segments rest, CutInto ls segments rest →
      let imported := loadImports store load name source dir visited (clauses.map clauseImport)
      let built := buildGroup store load visited name source dir
      ∃ outcomes errors, Contributions [] segments outcomes ∧
        errors.length = (if rest = [] then 0 else 1) ∧
        built.messages.Perm (imported.messages ++
          (errorsOf outcomes ++ errors).map (·.message name source)) ∧
        built.result.templates.entries = (templatesOf outcomes).map (fun t => (t.name, t)) ∧
        ∀ key t, built.result.templates.get? key = some t ↔ FirstCompiles segments key t := by
  refine ⟨exists_cutInto ?_, fun segments rest hcut => ?_⟩
  · intro l hl
    have hvisible : l ∈ visible (Lexeme.readAll GroupText.scan source.toList) :=
      htokens ▸ List.mem_append_right _ hl
    exact hstrays l (List.mem_filter.mp hvisible).1
  · obtain ⟨outcomes, errors, houtcomes, hlength, hentries, herrors⟩ :=
      exists_contributions (byteLength source.toList) hcut .empty
    rw [buildGroup_eq, assemble, read_of_clauses hstrays htokens hclauses hnext]
    refine ⟨outcomes, errors, houtcomes, hlength, ?_, hentries, fun key t => ?_⟩
    · have hmessages := (herrors.map (SyntaxError.message · name source)).append_left
        (loadImports store load name source dir visited (clauses.map clauseImport)).messages
      refine List.Perm.trans ?_ hmessages
      rw [List.map_append, ← List.append_assoc]
      exact List.perm_append_comm.append_right _
    · rw [← houtcomes.find?_eq_some_iff List.not_mem_nil]
      exact Eq.congr_left (get?_of_entries hentries key)

/-- A definition behind one that breaks off and behind an import that leads nowhere. -/
theorem buildGroup_segments_behindError :
    let lexemes := Lexeme.readAll GroupText.scan
      "import \"i\" s( ::= \"x\" t() ::= \"y\" u".toList
    let clause : Lexeme GroupText.Token × Lexeme GroupText.Token :=
      (⟨some .importWord, ['i', 'm', 'p', 'o', 'r', 't'], 0⟩, ⟨some .quoted, ['"', 'i', '"'], 7⟩)
    let ls := (visible lexemes).drop 2
    (∀ l ∈ lexemes, l.token.isSome = true) ∧
    visible lexemes = [clause].flatMap (fun c => [c.1, c.2]) ++ ls ∧
    (∀ c ∈ [clause], IsClause c) ∧
    (∀ l ∈ ls.head?, l.token ≠ some .importWord) ∧
    ∃ segments rest, CutInto ls segments rest ∧
      FirstCompiles segments "t" ⟨"t", [], [.text ['y']], "y"⟩ := by
  intro lexemes clause ls
  have hstrays : ∀ l ∈ lexemes, l.token.isSome = true := by decide
  have htokens : visible lexemes = [clause].flatMap (fun c => [c.1, c.2]) ++ ls :=
    (List.take_append_drop 2 (visible lexemes)).symm
  have hclauses : ∀ c ∈ [clause], IsClause c := List.forall_mem_singleton.mpr ⟨rfl, rfl⟩
  have hnext : ∀ l ∈ ls.head?, l.token ≠ some .importWord := by decide
  obtain ⟨⟨segments, rest, hcut⟩, hsegments⟩ :=
    buildGroup_segments .empty (loadFile .empty 0) [] "T.stg" none hstrays htokens hclauses hnext
  refine ⟨hstrays, htokens, hclauses, hnext, segments, rest, hcut, ?_⟩
  obtain ⟨outcomes, errors, -, -, -, -, hfirst⟩ := hsegments segments rest hcut
  exact (hfirst "t" _).mp rfl

end GrammarTrees.Template
