import GrammarTrees.Proofs.Template.Loading
import Mathlib.Logic.Relation

/-! Compiling a group file again wherever it is imported gives a group in which every name has the
same template as in the group for which each file is compiled once, unless files import each other
in a cycle. -/

namespace GrammarTrees.Template

open Relation GrammarTrees.Path

variable {store : Store} {path path' name source source' : String} {dir : Option String}
  {clause : Import} {clauses : List Import} {visited files : List Location}
  {place u : Location} {imported : Loaded (List Group)}

/-! ### Which files import which -/

theorem isName_of_groupSuffix (cs : List Char) : IsName (cs ++ groupSuffix.toList) := by
  have hlength : (cs ++ groupSuffix.toList).length = cs.length + 4 := List.length_append
  refine ⟨?_, fun h => ?_⟩
  · rintro (h | h) <;> simp [h] at hlength
  · simp [h] at hlength

/-- The path of a group file leads to it from its directory. -/
theorem isDir_of_readGroupFile (h : readGroupFile store path = .ok (source, place)) :
    ∃ dir, parent? path = some dir ∧ store.IsDir dir place.dropLast := by
  obtain ⟨hsuffix, hplace, -⟩ := readGroupFile_eq_ok_iff.mp h
  rw [hasSuffix, List.isSuffixOf_iff_suffix] at hsuffix
  obtain ⟨cs, hcs⟩ := hsuffix
  have hslash : '/' ∉ groupSuffix.toList := by decide
  obtain ⟨front, last, hsplit⟩ := splitAtChar_append_of_not_mem hslash cs
  rw [hcs] at hsplit
  exact Store.isDir_parent hsplit (isName_of_groupSuffix last) hplace

/-- The file that an import clause leads to depends on the place of the importing file only. -/
theorem readGroupFile_importPath (h : readGroupFile store path = .ok (source, place))
    (h' : readGroupFile store path' = .ok (source', place)) (clause : Import)
    (r : String × Location) : readGroupFile store (importPath (parent? path) clause) = .ok r ↔
      readGroupFile store (importPath (parent? path') clause) = .ok r := by
  obtain ⟨next, u⟩ := r
  obtain ⟨dir, hparent, hdir⟩ := isDir_of_readGroupFile h
  obtain ⟨dir', hparent', hdir'⟩ := isDir_of_readGroupFile h'
  have hslash : '/' ∉ groupSuffix.toList := by decide
  rw [hparent, hparent', readGroupFile_eq_ok_iff, readGroupFile_eq_ok_iff, importPath, importPath,
    Option.map_some, Option.map_some, Option.getD_some, Option.getD_some,
    hasSuffix_join hslash, hasSuffix_join hslash]
  refine and_congr_right fun hsuffix => and_congr_left fun _ => ?_
  have hne : clause.path ≠ "" := by
    intro hempty
    rw [hempty] at hsuffix
    exact absurd hsuffix (by decide)
  rw [Store.locate_join hdir hne, Store.locate_join hdir' hne]

theorem source_unique (h : readGroupFile store path = .ok (source, place))
    (h' : readGroupFile store path' = .ok (source', place)) : source = source' := by
  obtain ⟨-, -, hentry⟩ := readGroupFile_eq_ok_iff.mp h
  obtain ⟨-, -, hentry'⟩ := readGroupFile_eq_ok_iff.mp h'
  simpa using hentry.symm.trans hentry'

/-- The group file at one place imports the one at another place. -/
def ImportsFile (store : Store) (a b : Location) : Prop :=
  ∃ path source, readGroupFile store path = .ok (source, a) ∧
    ∃ clause ∈ (GroupText.read source).1.imports, ∃ next,
      readGroupFile store (importPath (parent? path) clause) = .ok (next, b)

/-- Any path to the importing file shows what it imports. -/
theorem importsFile_iff (h : readGroupFile store path = .ok (source, place)) :
    ImportsFile store place u ↔ ∃ clause ∈ (GroupText.read source).1.imports, ∃ next,
      readGroupFile store (importPath (parent? path) clause) = .ok (next, u) := by
  constructor
  · rintro ⟨path', source', h', clause, hclause, next, hnext⟩
    obtain rfl := source_unique h h'
    exact ⟨clause, hclause, next, (readGroupFile_importPath h' h clause _).mp hnext⟩
  · rintro ⟨clause, hclause, next, hnext⟩
    exact ⟨path, source, h, clause, hclause, next, hnext⟩

/-- None of the files that are loaded for the one at `place` imports itself, directly or not. -/
def AcyclicFrom (store : Store) (place : Location) : Prop :=
  ∀ u, ReflTransGen (ImportsFile store) place u → ¬ TransGen (ImportsFile store) u u

theorem AcyclicFrom.next (h : AcyclicFrom store place) (hu : ImportsFile store place u) :
    AcyclicFrom store u :=
  fun w hw => h w (.head hu hw)

/-! ### Templates -/

/-- The template of a name that the file at a place defines itself. -/
def ownTemplate (store : Store) (name : String) (place : Location) : Option Template :=
  match store.entry? place with
  | some (.file (some source)) =>
    (defineAll .empty (GroupText.read source).1.definitions).1.get? name
  | _ => none

theorem lookup_assemble (h : readGroupFile store path = .ok (source, place)) (own : String) :
    (assemble own source imported).result.lookup name =
      (ownTemplate store name place).or (Group.lookupAny name imported.result) := by
  obtain ⟨-, -, hentry⟩ := readGroupFile_eq_ok_iff.mp h
  rw [ownTemplate, hentry]
  rfl

/-! ### Each file once -/

/-- The files of a list that are not in `visited`, each of them once. -/
def unseen : (visited files : List Location) → List Location
  | _, [] => []
  | visited, u :: files =>
    if u ∈ visited then unseen visited files else u :: unseen (visited ++ [u]) files

theorem unseen_append (visited ps qs : List Location) :
    unseen visited (ps ++ qs) = unseen visited ps ++ unseen (visited ++ unseen visited ps) qs := by
  induction ps generalizing visited with
  | nil => simp [unseen]
  | cons p ps ih =>
    rw [List.cons_append, unseen, unseen]
    split
    · rw [ih]
    · rw [ih, List.cons_append, List.append_assoc]
      rfl

theorem mem_append_unseen : u ∈ visited ++ unseen visited files ↔ u ∈ visited ∨ u ∈ files := by
  induction files generalizing visited with
  | nil => simp [unseen]
  | cons p files ih =>
    rw [unseen]
    split
    · rename_i hp
      rw [ih, List.mem_cons]
      constructor
      · rintro (hu | hu)
        · exact .inl hu
        · exact .inr (.inr hu)
      · rintro (hu | rfl | hu)
        · exact .inl hu
        · exact .inl hp
        · exact .inr hu
    · rw [List.append_cons, ih, List.mem_append, List.mem_singleton, List.mem_cons, or_assoc]

theorem unseen_of_subset (h : files ⊆ visited) : unseen visited files = [] := by
  induction files with
  | nil => rfl
  | cons p files ih =>
    rw [List.cons_subset] at h
    rw [unseen, if_pos h.1, ih h.2]

/-- To leave out files that come again does not change what is found first. -/
theorem findSome?_unseen {α : Type} (find : Location → Option α) (visited files : List Location) :
    (visited.findSome? find).or ((unseen visited files).findSome? find) =
      (visited.findSome? find).or (files.findSome? find) := by
  induction files generalizing visited with
  | nil => rfl
  | cons p files ih =>
    rw [unseen]
    split
    · rename_i hp
      rw [ih, List.findSome?_cons]
      cases hvisited : visited.findSome? find with
      | some a => rfl
      | none => rw [List.findSome?_eq_none_iff.mp hvisited p hp]
    · have hstep := ih (visited ++ [p])
      rw [List.findSome?_append, List.findSome?_singleton, Option.or_assoc,
        Option.or_assoc] at hstep
      rw [List.findSome?_cons, List.findSome?_cons]
      cases hp : find p with
      | some a => rfl
      | none => simpa [hp] using hstep

/-! ### Compiling files again -/

/-- The outcomes of a loader that compiles a file wherever it is imported. -/
abbrev Reloads (store : Store) : List Location → String → Loaded (Except LoadFault Group) → Prop :=
  Loads store fun _ _ => false

abbrev ReloadsAll (store : Store) : (name source : String) → (dir : Option String) →
    List Location → List Import → Loaded (List Group) → Prop :=
  LoadsAll store fun _ _ => false

theorem Loads.read_of_ok {passes : List Location → String → Bool} {between : List Location}
    {messages : List Message} {group : Group}
    (h : Loads store passes visited path ⟨.ok group, between, messages⟩) :
    ∃ source place, readGroupFile store path = .ok (source, place) := by
  cases h with
  | compiled hread => exact ⟨_, _, hread⟩

theorem Loads.refused_of_error {passes : List Location → String → Bool} {between : List Location}
    {messages : List Message} {fault : LoadFault}
    (h : Loads store passes visited path ⟨.error fault, between, messages⟩) :
    readGroupFile store path = .error fault ∧ between = visited := by
  cases h with
  | refused hread => exact ⟨hread, rfl⟩

/-- A place that one of the import clauses, seen from `dir`, leads to. -/
def LeadsTo (store : Store) (dir : Option String) (clauses : List Import) (u : Location) : Prop :=
  ∃ clause ∈ clauses, ∃ next, readGroupFile store (importPath dir clause) = .ok (next, u)

theorem leadsTo_cons_of_ok {next : String}
    (h : readGroupFile store (importPath dir clause) = .ok (next, place)) :
    LeadsTo store dir (clause :: clauses) u ↔ u = place ∨ LeadsTo store dir clauses u := by
  rw [LeadsTo, List.exists_mem_cons_iff, LeadsTo]
  simp [h, eq_comm]

theorem leadsTo_cons_of_error {fault : LoadFault}
    (h : readGroupFile store (importPath dir clause) = .error fault) :
    LeadsTo store dir (clause :: clauses) u ↔ LeadsTo store dir clauses u := by
  rw [LeadsTo, List.exists_mem_cons_iff, LeadsTo]
  simp [h]

mutual

/-- A file that is compiled wherever it is imported gives the templates of all files that it leads
to, in order. -/
theorem Loads.files : {visited : List Location} → {path : String} →
    {run : Loaded (Except LoadFault Group)} → Reloads store visited path run →
    {source : String} → {place : Location} → readGroupFile store path = .ok (source, place) →
    ∃ files group, run.result = .ok group ∧ run.visited = visited ++ files ∧
      (∀ u, u ∈ files ↔ ReflTransGen (ImportsFile store) place u) ∧
      ∀ name, group.lookup name = files.findSome? (ownTemplate store name)
  | _, _, _, .refused h, _, _, hread => by simp [h] at hread
  | visited, _, _, @Loads.compiled _ _ _ _ _ place _ h himports, _, _, hread => by
    obtain ⟨rfl, rfl⟩ := Prod.mk.inj (Except.ok.inj (h.symm.trans hread))
    obtain ⟨files, hvisited, hmem, hlookup⟩ := himports.files
    refine ⟨place :: files, _, rfl, ?_, fun u => ?_, fun name => ?_⟩
    · rw [hvisited, List.append_assoc]
      rfl
    · rw [List.mem_cons, hmem, ReflTransGen.cases_head_iff, eq_comm]
      refine or_congr_right (exists_congr fun w => and_congr_left fun _ => ?_)
      exact (importsFile_iff h).symm
    · rw [lookup_assemble h, hlookup, List.findSome?_cons]
      cases ownTemplate store name place <;> rfl

theorem LoadsAll.files : {own source : String} → {dir : Option String} →
    {visited : List Location} → {clauses : List Import} → {run : Loaded (List Group)} →
    ReloadsAll store own source dir visited clauses run →
    ∃ files, run.visited = visited ++ files ∧
      (∀ u, u ∈ files ↔
        ∃ w, LeadsTo store dir clauses w ∧ ReflTransGen (ImportsFile store) w u) ∧
      ∀ name, Group.lookupAny name run.result = files.findSome? (ownTemplate store name)
  | _, _, _, visited, _, _, .nil => by
    refine ⟨[], (List.append_nil visited).symm, fun u => ?_, fun name => rfl⟩
    simp [LeadsTo]
  | _, _, _, _, _, _, .passed h _ => by simp at h
  | _, _, _, _, _, _, .loaded _ hfirst hrest => by
    obtain ⟨next, place, hread⟩ := hfirst.read_of_ok
    obtain ⟨first, group, hgroup, hbetween, hmemFirst, hlookupFirst⟩ := hfirst.files hread
    obtain ⟨rest, hvisited, hmemRest, hlookupRest⟩ := hrest.files
    obtain rfl := Except.ok.inj hgroup
    refine ⟨first ++ rest, ?_, fun u => ?_, fun name => ?_⟩
    · dsimp only at hbetween
      rw [hvisited, hbetween, List.append_assoc]
    · simp only [List.mem_append, hmemFirst, hmemRest, leadsTo_cons_of_ok hread, or_and_right,
        exists_or, exists_eq_left]
    · rw [Group.lookupAny, hlookupFirst, hlookupRest, List.findSome?_append]
  | _, _, _, _, _, _, .failed _ hfirst hrest => by
    obtain ⟨hread, rfl⟩ := hfirst.refused_of_error
    obtain ⟨rest, hvisited, hmemRest, hlookupRest⟩ := hrest.files
    refine ⟨rest, hvisited, fun u => ?_, hlookupRest⟩
    simp only [hmemRest, leadsTo_cons_of_error hread]

end

/-- The first import is refused, or its files come before those of the others. -/
theorem ReloadsAll.of_cons {own : String} {run : Loaded (List Group)}
    (h : ReloadsAll store own source dir visited (clause :: clauses) run)
    (hfiles : run.visited = visited ++ files) :
    (∃ fault rest, readGroupFile store (importPath dir clause) = .error fault ∧
      ReloadsAll store own source dir visited clauses rest ∧ rest.visited = visited ++ files) ∨
    ∃ next place first rest ahead below,
      readGroupFile store (importPath dir clause) = .ok (next, place) ∧
      Reloads store visited (importPath dir clause) first ∧ first.visited = visited ++ ahead ∧
      (∀ u, u ∈ ahead ↔ ReflTransGen (ImportsFile store) place u) ∧
      ReloadsAll store own source dir (visited ++ ahead) clauses rest ∧
      rest.visited = visited ++ ahead ++ below ∧ files = ahead ++ below := by
  cases h with
  | passed h => simp at h
  | failed _ hfirst hrest =>
    obtain ⟨hread, rfl⟩ := hfirst.refused_of_error
    exact .inl ⟨_, _, hread, hrest, hfiles⟩
  | loaded _ hfirst hrest =>
    obtain ⟨next, place, hread⟩ := hfirst.read_of_ok
    obtain ⟨ahead, -, -, hbetween, hmem, -⟩ := hfirst.files hread
    obtain ⟨below, hvisited, -⟩ := hrest.files
    dsimp only at hbetween hfiles
    subst hbetween
    refine .inr ⟨next, place, _, _, ahead, below, hread, hfirst, rfl, hmem, hrest, hvisited, ?_⟩
    rw [hfiles, List.append_assoc] at hvisited
    exact List.append_cancel_left hvisited

/-! ### Compiling files once -/

mutual

/-- A file that is compiled only if it has not been before gives the templates of the files that are
new. What was compiled before is complete, or waits for this file. -/
theorem Loads.unseen_files : {visited visited' files : List Location} → {path : String} →
    {run run' : Loaded (Except LoadFault Group)} → Loads store (readBefore store) visited path run →
    readBefore store visited path = false → Reloads store visited' path run' →
    run'.visited = visited' ++ files → {source : String} → {place : Location} →
    readGroupFile store path = .ok (source, place) → AcyclicFrom store place →
    (∀ u ∈ visited, (∀ w, ReflTransGen (ImportsFile store) u w → w ∈ visited) ∨
      TransGen (ImportsFile store) u place) →
    ∃ group, run.result = .ok group ∧ run.visited = visited ++ unseen visited files ∧
      ∀ name, group.lookup name = (unseen visited files).findSome? (ownTemplate store name)
  | _, _, _, _, _, _, .refused h, _, _, _, _, _, hread, _, _ => by simp [h] at hread
  | visited, visited', files, _, _, _, @Loads.compiled _ _ _ path source place _ h himports, hnew,
      hrun', hfiles, _, _, hread, hacyclic, hbefore => by
    obtain ⟨rfl, rfl⟩ := Prod.mk.inj (Except.ok.inj (h.symm.trans hread))
    have hplace := not_mem_of_readBefore hnew h
    cases hrun' with
    | refused h' => simp [h] at h'
    | compiled h' himports' =>
    obtain ⟨rfl, rfl⟩ := Prod.mk.inj (Except.ok.inj (h.symm.trans h'))
    obtain ⟨below, hbelow, -⟩ := himports'.files
    obtain rfl : files = place :: below := by
      have heq := hfiles.symm.trans hbelow
      rw [List.append_assoc] at heq
      exact List.append_cancel_left heq
    have hleads : ∀ u, LeadsTo store (parent? path) (GroupText.read source).1.imports u →
        ImportsFile store place u := fun u hu => (importsFile_iff h).mpr hu
    obtain ⟨hvisited, hlookup⟩ := himports.unseen_files himports' hbelow hleads hacyclic
      fun u hu => by
        rcases List.mem_append.mp hu with hu | hu
        · rcases hbefore u hu with hall | hwaits
          · exact .inl fun w hw => List.mem_append_left _ (hall w hw)
          · exact .inr hwaits.to_reflTransGen
        · exact .inr (List.mem_singleton.mp hu ▸ .refl)
    refine ⟨_, rfl, ?_, fun name => ?_⟩
    · rw [hvisited, unseen, if_neg hplace, List.append_assoc]
      rfl
    · rw [lookup_assemble h, hlookup, unseen, if_neg hplace, List.findSome?_cons]
      cases ownTemplate store name place <;> rfl

theorem LoadsAll.unseen_files : {own source : String} → {dir : Option String} →
    {visited visited' files : List Location} → {clauses : List Import} →
    {run run' : Loaded (List Group)} →
    LoadsAll store (readBefore store) own source dir visited clauses run →
    ReloadsAll store own source dir visited' clauses run' → run'.visited = visited' ++ files →
    {place : Location} → (∀ u, LeadsTo store dir clauses u → ImportsFile store place u) →
    AcyclicFrom store place →
    (∀ u ∈ visited, (∀ w, ReflTransGen (ImportsFile store) u w → w ∈ visited) ∨
      ReflTransGen (ImportsFile store) u place) →
    run.visited = visited ++ unseen visited files ∧ ∀ name,
      Group.lookupAny name run.result = (unseen visited files).findSome? (ownTemplate store name)
  | _, _, _, visited, _, _, _, _, _, .nil, hrun', hfiles, _, _, _, _ => by
    cases hrun'
    rw [show _ = [] from List.self_eq_append_right.mp hfiles]
    exact ⟨(List.append_nil visited).symm, fun name => rfl⟩
  | _, _, _, _, _, _, _, _, _, .passed h hrest, hrun', hfiles, _, hleads, hacyclic, hbefore => by
    rcases hrun'.of_cons hfiles with ⟨fault, rest, hread, hrest', hbelow⟩ |
      ⟨next, u, first, rest, ahead, below, hread, -, -, hmem, hrest', hbelow, rfl⟩
    · exact hrest.unseen_files hrest' hbelow
        (fun u hu => hleads u ((leadsTo_cons_of_error hread).mpr hu)) hacyclic hbefore
    have himport := hleads u ((leadsTo_cons_of_ok hread).mpr (.inl rfl))
    -- A file that waits for this one cannot be imported by it.
    have hcomplete := (hbefore u (mem_of_readBefore h hread)).resolve_right fun hwaits =>
      hacyclic _ .refl (.head' himport hwaits)
    have hnone : unseen _ ahead = [] := unseen_of_subset fun w hw => hcomplete w ((hmem w).mp hw)
    rw [unseen_append, hnone, List.append_nil, List.nil_append]
    exact hrest.unseen_files hrest' hbelow
      (fun w hw => hleads w ((leadsTo_cons_of_ok hread).mpr (.inr hw))) hacyclic hbefore
  | _, _, _, _, _, _, _, _, _, .loaded h hfirst hrest, hrun', hfiles, _, hleads, hacyclic,
      hbefore => by
    obtain ⟨next, u, hread⟩ := hfirst.read_of_ok
    rcases hrun'.of_cons hfiles with ⟨fault, rest, hread', -⟩ |
      ⟨next', u', first, rest, ahead, below, hread', hfirst', hahead, hmem, hrest', hbelow, rfl⟩
    · simp [hread] at hread'
    obtain ⟨rfl, rfl⟩ := Prod.mk.inj (Except.ok.inj (hread.symm.trans hread'))
    have himport := hleads u ((leadsTo_cons_of_ok hread).mpr (.inl rfl))
    obtain ⟨group, hgroup, hbetween, hlookup⟩ := hfirst.unseen_files h hfirst' hahead hread
      (hacyclic.next himport) fun w hw =>
        (hbefore w hw).imp_right fun hwaits => .tail' hwaits himport
    dsimp only at hgroup hbetween
    obtain rfl := Except.ok.inj hgroup
    obtain ⟨hvisited, hrestLookup⟩ := hrest.unseen_files hrest' hbelow
      (fun w hw => hleads w ((leadsTo_cons_of_ok hread).mpr (.inr hw))) hacyclic fun w hw => by
        rw [hbetween] at hw ⊢
        rcases mem_append_unseen.mp hw with hold | hahead
        · refine (hbefore w hold).imp_left fun hall x hx => ?_
          exact List.mem_append_left _ (hall x hx)
        · refine .inl fun x hx => mem_append_unseen.mpr (.inr ?_)
          exact (hmem x).mpr (((hmem w).mp hahead).trans hx)
    rw [unseen_append, ← hbetween]
    refine ⟨?_, fun name => ?_⟩
    · rw [hvisited, hbetween, List.append_assoc]
    · rw [Group.lookupAny, hlookup, hrestLookup, List.findSome?_append]
  | _, _, _, _, _, _, _, _, _, .failed h hfirst hrest, hrun', hfiles, _, hleads, hacyclic,
      hbefore => by
    obtain ⟨hread, rfl⟩ := hfirst.refused_of_error
    rcases hrun'.of_cons hfiles with ⟨fault, rest, -, hrest', hbelow⟩ |
      ⟨next, u, first, rest, ahead, below, hread', -⟩
    · exact hrest.unseen_files hrest' hbelow
        (fun u hu => hleads u ((leadsTo_cons_of_error hread).mpr hu)) hacyclic hbefore
    · simp [hread] at hread'

end

theorem exists_reloadsAll
    (h : ∀ clause ∈ clauses, ∀ visited, ∃ run, Reloads store visited (importPath dir clause) run)
    (own source : String) (visited : List Location) :
    ∃ run, ReloadsAll store own source dir visited clauses run := by
  induction clauses generalizing visited with
  | nil => exact ⟨_, .nil⟩
  | cons clause clauses ih =>
    rw [List.forall_mem_cons] at h
    obtain ⟨⟨result, between, messages⟩, hfirst⟩ := h.1 visited
    obtain ⟨rest, hrest⟩ := ih h.2 between
    cases result with
    | ok group => exact ⟨_, .loaded rfl hfirst hrest⟩
    | error fault => exact ⟨_, .failed rfl hfirst hrest⟩

/-- Without cycles it comes to an end to compile files wherever they are imported. The files above
the one to be compiled are other ones, and there are finitely many. -/
theorem exists_reloads {above : List Location} {n : Nat} (hn : (unread store above).card < n)
    (hread : readGroupFile store path = .ok (source, place)) (hacyclic : AcyclicFrom store place)
    (habove : ∀ u ∈ above, TransGen (ImportsFile store) u place) (visited : List Location) :
    ∃ run, Reloads store visited path run := by
  induction n generalizing above path source place visited with
  | zero => exact absurd hn (Nat.not_lt_zero _)
  | succ n ih =>
    have hnew : place ∉ above := fun hmem => hacyclic place .refl (habove place hmem)
    have hcard := card_unread_lt (mem_filePlaces hread) hnew
    have hclauses : ∀ clause ∈ (GroupText.read source).1.imports, ∀ visited,
        ∃ run, Reloads store visited (importPath (parent? path) clause) run := by
      intro clause hclause visited
      cases hnext : readGroupFile store (importPath (parent? path) clause) with
      | error fault => exact ⟨_, .refused hnext⟩
      | ok r =>
        obtain ⟨next, u⟩ := r
        have himport : ImportsFile store place u :=
          (importsFile_iff hread).mpr ⟨clause, hclause, next, hnext⟩
        refine ih (Nat.lt_of_lt_of_le hcard (Nat.le_of_lt_succ hn)) hnext (hacyclic.next himport)
          (fun w hw => ?_) visited
        rcases List.mem_append.mp hw with hw | hw
        · exact (habove w hw).tail himport
        · exact List.mem_singleton.mp hw ▸ .single himport
    obtain ⟨imported, himported⟩ :=
      exists_reloadsAll hclauses (groupName path) source (visited ++ [place])
    exact ⟨_, .compiled hread himported⟩

/-! ### Lookup -/

/-- Loading a group file comes to an end, also if files import each other, and compiles no file
twice. If they do not, each name has the same template as in the group of the loader that compiles a
file wherever it is imported. -/
theorem loadGroup_lookup (store : Store) (path : String) :
    ∃ visited : List Location, visited.Nodup ∧
      (∀ run, Loads store (readBefore store) [] path run ↔
        run = ⟨(loadGroup store path).1, visited, (loadGroup store path).2⟩) ∧
      ((∀ source place, readGroupFile store path = .ok (source, place) →
          AcyclicFrom store place) →
        ∃ naive, (∀ run, Reloads store [] path run ↔ run = naive) ∧ ∀ name,
          (loadGroup store path).1.map (Group.lookup name) =
            naive.result.map (Group.lookup name)) := by
  obtain ⟨visited, hnodup, hloads⟩ := loads_loadGroup store path
  refine ⟨visited, hnodup, hloads, fun hacyclic => ?_⟩
  have hload := (hloads _).mpr rfl
  cases hread : readGroupFile store path with
  | error fault =>
    have hsame := hload.unique (.refused hread)
    refine ⟨_, fun _ => Loads.iff_eq (.refused hread), fun name => ?_⟩
    rw [(Loaded.mk.inj hsame).1]
  | ok r =>
    obtain ⟨source, place⟩ := r
    have hplace := hacyclic source place hread
    obtain ⟨run, hrun⟩ := exists_reloads (Nat.lt_succ_self (unread store []).card) hread hplace
      (by simp) []
    obtain ⟨files, naive, hnaive, hfiles, -, hnaiveLookup⟩ := hrun.files hread
    obtain ⟨group, hgroup, -, hlookup⟩ := hload.unseen_files (readBefore_nil store path) hrun hfiles
      hread hplace (by simp)
    refine ⟨run, fun _ => hrun.iff_eq, fun name => ?_⟩
    have hsame := findSome?_unseen (ownTemplate store name) [] files
    dsimp only at hgroup
    rw [hgroup, hnaive, Except.map, Except.map, hlookup, hnaiveLookup]
    exact congrArg Except.ok hsame

/-- The places of the group files that the one at a path imports. -/
def importedPlaces (store : Store) (path : String) : List Location :=
  match readGroupFile store path with
  | .error _ => []
  | .ok (source, _) =>
    (GroupText.read source).1.imports.filterMap fun clause =>
      (readGroupFile store (importPath (parent? path) clause)).toOption.map Prod.snd

theorem importsFile_iff_mem (h : readGroupFile store path = .ok (source, place)) :
    ImportsFile store place u ↔ u ∈ importedPlaces store path := by
  rw [importsFile_iff h, importedPlaces, h]
  simp only [List.mem_filterMap]
  refine exists_congr fun clause => and_congr_right fun _ => ?_
  cases readGroupFile store (importPath (parent? path) clause) with
  | error fault => simp [Except.toOption]
  | ok r => simp [Except.toOption, Prod.ext_iff]

theorem acyclicFrom_of_lt (rank : Location → Nat)
    (h : ∀ a b, ImportsFile store a b → rank a < rank b) (place : Location) :
    AcyclicFrom store place := by
  have hpath : ∀ a b, TransGen (ImportsFile store) a b → rank a < rank b := by
    intro a b hab
    induction hab with
    | single hab => exact h a _ hab
    | tail _ hbc ih => exact Nat.lt_trans ih (h _ _ hbc)
  exact fun u _ hu => Nat.lt_irrefl _ (hpath u u hu)

/-- A file that imports two others, which import the same one: below the working directory, beside
it, and from there. -/
def diamond : Store where
  workingDirectory := ["home"]
  entries :=
    [(["home", "top.stg"], .file (some "import \"sub/left.stg\"\nimport \"/lib/right.stg\"\n")),
      (["home", "sub", "left.stg"],
        .file (some "import \"../../lib/base.stg\"\nl() ::= \"left\"\n")),
      (["lib", "right.stg"], .file (some "import \"base.stg\"\nr() ::= \"right\"\n")),
      (["lib", "base.stg"], .file (some "b() ::= \"base\"\n"))]

/-- A file is imported by files of lower rank only. -/
def diamondRank : Location → Nat
  | ["home", "top.stg"] => 0
  | ["lib", "base.stg"] => 2
  | _ => 1

theorem loadGroup_lookup_diamond :
    ∃ naive, Reloads diamond [] "/home/top.stg" naive ∧ ∀ name,
      (loadGroup diamond "/home/top.stg").1.map (Group.lookup name) =
        naive.result.map (Group.lookup name) := by
  have hranks : ∀ a ∈ filePlaces diamond,
      (readGroupFile diamond (Store.absolutePath a)).toOption.map Prod.snd = some a ∧
        ∀ b ∈ importedPlaces diamond (Store.absolutePath a), diamondRank a < diamondRank b := by
    decide +kernel
  have hrank : ∀ a b, ImportsFile diamond a b → diamondRank a < diamondRank b := by
    intro a b hab
    obtain ⟨path, source, hpath, -⟩ := id hab
    obtain ⟨hplace, hlt⟩ := hranks a (mem_filePlaces hpath)
    cases hread : readGroupFile diamond (Store.absolutePath a) with
    | error fault =>
      rw [hread] at hplace
      simp [Except.toOption] at hplace
    | ok r =>
      obtain ⟨source', place⟩ := r
      rw [hread] at hplace
      obtain rfl : place = a := Option.some.inj hplace
      exact hlt b ((importsFile_iff_mem hread).mp hab)
  obtain ⟨visited, -, -, hlookup⟩ := loadGroup_lookup diamond "/home/top.stg"
  obtain ⟨naive, hnaive, hsame⟩ :=
    hlookup fun _ place _ => acyclicFrom_of_lt diamondRank hrank place
  exact ⟨naive, (hnaive naive).mpr rfl, hsame⟩

-- Each of the import clauses leads to a file.
example : (loadGroup diamond "/home/top.stg").2 = [] := by decide +kernel

end GrammarTrees.Template
