import GrammarTrees.Proofs.FileSystem.Paths
import GrammarTrees.Template.Group
import Mathlib.Data.Finset.Card

/-! Loading group files without a bound on how deep imports nest. The bound of the loader is never
reached, since each level of imports has read one more of the files there are. -/

namespace GrammarTrees.Template

variable {store : Store} {path name source : String} {dir : Option String} {clause : Import}
  {clauses : List Import} {visited : List Location} {place : Location} {depth : Nat}

/-! ### Rules -/

/-- The path of an import, seen from `dir`. -/
def importPath (dir : Option String) (clause : Import) : String :=
  (dir.map (Path.join · clause.path)).getD clause.path

/-- Whether a path leads to a file that has been read. One that leads nowhere counts by the place
that it spells, such as a path to a file with a slash after it. -/
def readBefore (store : Store) (visited : List Location) (path : String) : Bool :=
  (store.canonical? path).any visited.contains

/-- The group with the given name and source, if its imports have been loaded. -/
def assemble (name source : String) (imported : Loaded (List Group)) : Loaded Group :=
  let read := GroupText.read source
  let defined := defineAll .empty read.1.definitions
  ⟨.mk name defined.1 imported.result, imported.visited,
    read.2.map (·.message name source) ++ imported.messages ++
      defined.2.map (·.message name source)⟩

theorem assemble_visited (name source : String) (imported : Loaded (List Group)) :
    (assemble name source imported).visited = imported.visited := rfl

theorem buildGroup_eq (load : Loader) : buildGroup store load visited name source dir =
    assemble name source
      (loadImports store load name source dir visited (GroupText.read source).1.imports) := by
  rw [buildGroup, assemble]

def groupName (path : String) : String := (Path.fileName? path).getD path

mutual

/-- The outcomes of loading a group file when the files at `visited` have been read before. Imports
may nest as deep as they do; those that `passes` holds of are passed over. The place of each file
that is compiled goes to the end of `visited`. -/
inductive Loads (store : Store) (passes : List Location → String → Bool) :
    List Location → String → Loaded (Except LoadFault Group) → Prop
  | refused {visited : List Location} {path : String} {fault : LoadFault}
      (h : readGroupFile store path = .error fault) :
      Loads store passes visited path ⟨.error fault, visited, []⟩
  | compiled {visited : List Location} {path source : String} {place : Location}
      {imported : Loaded (List Group)} (h : readGroupFile store path = .ok (source, place))
      (himports : LoadsAll store passes (groupName path) source (Path.parent? path)
        (visited ++ [place]) (GroupText.read source).1.imports imported) :
      Loads store passes visited path ⟨.ok (assemble (groupName path) source imported).result,
        imported.visited, (assemble (groupName path) source imported).messages⟩

/-- The outcomes of loading the imports of a group file in order. -/
inductive LoadsAll (store : Store) (passes : List Location → String → Bool) :
    (name source : String) → (dir : Option String) → List Location → List Import →
      Loaded (List Group) → Prop
  | nil {name source : String} {dir : Option String} {visited : List Location} :
      LoadsAll store passes name source dir visited [] ⟨[], visited, []⟩
  | passed {name source : String} {dir : Option String} {visited : List Location}
      {clause : Import} {clauses : List Import} {rest : Loaded (List Group)}
      (h : passes visited (importPath dir clause) = true)
      (hrest : LoadsAll store passes name source dir visited clauses rest) :
      LoadsAll store passes name source dir visited (clause :: clauses) rest
  | loaded {name source : String} {dir : Option String} {visited between : List Location}
      {clause : Import} {clauses : List Import} {group : Group} {messages : List Message}
      {rest : Loaded (List Group)} (h : passes visited (importPath dir clause) = false)
      (hfirst : Loads store passes visited (importPath dir clause) ⟨.ok group, between, messages⟩)
      (hrest : LoadsAll store passes name source dir between clauses rest) :
      LoadsAll store passes name source dir visited (clause :: clauses)
        ⟨group :: rest.result, rest.visited, messages ++ rest.messages⟩
  | failed {name source : String} {dir : Option String} {visited between : List Location}
      {clause : Import} {clauses : List Import} {fault : LoadFault} {messages : List Message}
      {rest : Loaded (List Group)} (h : passes visited (importPath dir clause) = false)
      (hfirst : Loads store passes visited (importPath dir clause)
        ⟨.error fault, between, messages⟩)
      (hrest : LoadsAll store passes name source dir between clauses rest) :
      LoadsAll store passes name source dir visited (clause :: clauses)
        ⟨rest.result, rest.visited,
          messages ++ importMessage name source clause fault :: rest.messages⟩

end

mutual

/-- Files that have been read stay so. -/
theorem Loads.grows {passes : List Location → String → Bool} :
    {visited : List Location} → {path : String} → {run : Loaded (Except LoadFault Group)} →
    Loads store passes visited path run → visited <+: run.visited
  | _, _, _, .refused _ => List.prefix_rfl
  | _, _, _, .compiled _ himports => (List.prefix_append ..).trans himports.grows

theorem LoadsAll.grows {passes : List Location → String → Bool} :
    {name source : String} → {dir : Option String} → {visited : List Location} →
    {clauses : List Import} → {run : Loaded (List Group)} →
    LoadsAll store passes name source dir visited clauses run → visited <+: run.visited
  | _, _, _, _, _, _, .nil => List.prefix_rfl
  | _, _, _, _, _, _, .passed _ hrest => hrest.grows
  | _, _, _, _, _, _, .loaded _ hfirst hrest => hfirst.grows.trans hrest.grows
  | _, _, _, _, _, _, .failed _ hfirst hrest => hfirst.grows.trans hrest.grows

end

/-! ### Reading group files -/

theorem readGroupFile_eq_ok_iff : readGroupFile store path = .ok (source, place) ↔
    Path.hasSuffix path groupSuffix = true ∧ store.locate path = .ok place ∧
      store.entry? place = some (.file (some source)) := by
  rw [← Store.readText_eq_ok_iff, readGroupFile]
  cases Path.hasSuffix path groupSuffix with
  | false => simp
  | true => cases store.readText path <;> simp [Except.mapError]

theorem canonical?_of_readGroupFile (h : readGroupFile store path = .ok (source, place)) :
    store.canonical? path = some place := by
  rw [Store.canonical?, (readGroupFile_eq_ok_iff.mp h).2.1]

theorem not_mem_of_readBefore (h : readBefore store visited path = false)
    (hread : readGroupFile store path = .ok (source, place)) : place ∉ visited := by
  rw [readBefore, canonical?_of_readGroupFile hread] at h
  simpa using h

theorem mem_of_readBefore (h : readBefore store visited path = true)
    (hread : readGroupFile store path = .ok (source, place)) : place ∈ visited := by
  rw [readBefore, canonical?_of_readGroupFile hread] at h
  simpa using h

/-- The places of all files there are. -/
def filePlaces (store : Store) : List Location := store.entries.map Prod.fst

theorem mem_filePlaces (h : readGroupFile store path = .ok (source, place)) :
    place ∈ filePlaces store := by
  obtain ⟨-, -, hentry⟩ := readGroupFile_eq_ok_iff.mp h
  rw [Store.entry?, Option.map_eq_some_iff] at hentry
  obtain ⟨e, he, -⟩ := hentry
  have hplace := List.find?_some he
  rw [decide_eq_true_eq] at hplace
  exact List.mem_map.mpr ⟨e, List.mem_of_find?_eq_some he, hplace⟩

/-! ### The bound -/

/-- The places of the files that have not been read. -/
def unread (store : Store) (visited : List Location) : Finset Location :=
  (filePlaces store).toFinset \ visited.toFinset

theorem card_unread_le (store : Store) (visited : List Location) :
    (unread store visited).card ≤ store.entries.length := by
  refine (Finset.card_le_card Finset.sdiff_subset).trans ?_
  refine (List.toFinset_card_le _).trans (Nat.le_of_eq ?_)
  rw [filePlaces, List.length_map]

theorem card_unread_anti {visited' : List Location} (h : visited ⊆ visited') :
    (unread store visited').card ≤ (unread store visited).card := by
  refine Finset.card_le_card (Finset.sdiff_subset_sdiff Finset.Subset.rfl fun a ha => ?_)
  exact List.mem_toFinset.mpr (h (List.mem_toFinset.mp ha))

/-- Reading a file leaves fewer of them. -/
theorem card_unread_lt (hplace : place ∈ filePlaces store) (hnew : place ∉ visited) :
    (unread store (visited ++ [place])).card < (unread store visited).card := by
  refine Finset.card_lt_card ((Finset.ssubset_iff_of_subset fun a ha => ?_).mpr ⟨place, ?_, ?_⟩)
  · simp [unread] at ha ⊢
    tauto
  · simp [unread, hplace, hnew]
  · simp [unread]

theorem loadImports_cons (load : Loader) :
    loadImports store load name source dir visited (clause :: clauses) =
      if readBefore store visited (importPath dir clause) = true then
        loadImports store load name source dir visited clauses
      else
        let first := load visited (importPath dir clause)
        let rest := loadImports store load name source dir first.visited clauses
        match first.result with
        | .ok group => ⟨group :: rest.result, rest.visited, first.messages ++ rest.messages⟩
        | .error fault => ⟨rest.result, rest.visited,
          first.messages ++ importMessage name source clause fault :: rest.messages⟩ := rfl

/-- Imports are loaded as the rules say if the files they lead to are. -/
theorem loadsAll_loadImports {load : Loader}
    (hload : ∀ visited' path, visited ⊆ visited' → readBefore store visited' path = false →
      Loads store (readBefore store) visited' path (load visited' path)) (name source : String)
    (dir : Option String) (clauses : List Import) :
    LoadsAll store (readBefore store) name source dir visited clauses
      (loadImports store load name source dir visited clauses) := by
  induction clauses generalizing visited with
  | nil => exact .nil
  | cons clause clauses ih =>
    rw [loadImports_cons]
    split
    · rename_i hseen
      exact .passed hseen (ih hload)
    rename_i hseen
    rw [Bool.not_eq_true] at hseen
    have hfirst := hload visited (importPath dir clause) (List.Subset.refl _) hseen
    have hrest := ih fun visited' path hsub =>
      hload visited' path (List.Subset.trans hfirst.grows.subset hsub)
    dsimp only
    cases hresult : (load visited (importPath dir clause)).result with
    | ok group =>
      refine .loaded hseen ?_ hrest
      rwa [← hresult]
    | error fault =>
      refine .failed hseen ?_ hrest
      rwa [← hresult]

/-- A bound above the number of unread files is never reached. -/
theorem loads_loadFile (hdepth : (unread store visited).card < depth)
    (hnew : readBefore store visited path = false) :
    Loads store (readBefore store) visited path (loadFile store depth visited path) := by
  induction depth generalizing visited path with
  | zero => exact absurd hdepth (Nat.not_lt_zero _)
  | succ depth ih =>
    rw [loadFile]
    cases hread : readGroupFile store path with
    | error fault => exact .refused hread
    | ok r =>
      obtain ⟨source, place⟩ := r
      dsimp only
      rw [buildGroup_eq, assemble_visited, ← groupName]
      refine .compiled hread (loadsAll_loadImports (fun visited' path' hsub hnew' => ?_) ..)
      refine ih (Nat.lt_of_le_of_lt (card_unread_anti hsub) ?_) hnew'
      exact Nat.lt_of_lt_of_le
        (card_unread_lt (mem_filePlaces hread) (not_mem_of_readBefore hnew hread))
        (Nat.le_of_lt_succ hdepth)

/-! ### Each file once -/

mutual

/-- No file is compiled twice. -/
theorem Loads.nodup : {visited : List Location} → {path : String} →
    {run : Loaded (Except LoadFault Group)} → Loads store (readBefore store) visited path run →
    visited.Nodup → readBefore store visited path = false → run.visited.Nodup
  | _, _, _, .refused _, hvisited, _ => hvisited
  | _, _, _, .compiled h himports, hvisited, hnew =>
    himports.nodup (hvisited.append (List.nodup_singleton _)
      (List.disjoint_singleton.mpr (not_mem_of_readBefore hnew h)))

theorem LoadsAll.nodup : {name source : String} → {dir : Option String} →
    {visited : List Location} → {clauses : List Import} → {run : Loaded (List Group)} →
    LoadsAll store (readBefore store) name source dir visited clauses run →
    visited.Nodup → run.visited.Nodup
  | _, _, _, _, _, _, .nil, hvisited => hvisited
  | _, _, _, _, _, _, .passed _ hrest, hvisited => hrest.nodup hvisited
  | _, _, _, _, _, _, .loaded h hfirst hrest, hvisited => hrest.nodup (hfirst.nodup hvisited h)
  | _, _, _, _, _, _, .failed h hfirst hrest, hvisited => hrest.nodup (hfirst.nodup hvisited h)

end

/-! ### Outcomes -/

mutual

/-- There is one outcome at most. -/
theorem Loads.unique {passes : List Location → String → Bool} : {visited : List Location} →
    {path : String} → {run run' : Loaded (Except LoadFault Group)} →
    Loads store passes visited path run → Loads store passes visited path run' → run = run'
  | _, _, _, _, .refused h, hrun' => by
    cases hrun' with
    | refused h' => rw [Except.error.inj (h.symm.trans h')]
    | compiled h' => simp [h] at h'
  | _, _, _, _, .compiled h himports, hrun' => by
    cases hrun' with
    | refused h' => simp [h] at h'
    | compiled h' himports' =>
      obtain ⟨rfl, rfl⟩ := Prod.mk.inj (Except.ok.inj (h.symm.trans h'))
      rw [himports.unique himports']

theorem LoadsAll.unique {passes : List Location → String → Bool} : {name source : String} →
    {dir : Option String} → {visited : List Location} → {clauses : List Import} →
    {run run' : Loaded (List Group)} →
    LoadsAll store passes name source dir visited clauses run →
    LoadsAll store passes name source dir visited clauses run' → run = run'
  | _, _, _, _, _, _, _, .nil, hrun' => by
    cases hrun'
    rfl
  | _, _, _, _, _, _, _, .passed h hrest, hrun' => by
    cases hrun' with
    | passed _ hrest' => exact hrest.unique hrest'
    | loaded h' => simp [h] at h'
    | failed h' => simp [h] at h'
  | _, _, _, _, _, _, _, .loaded h hfirst hrest, hrun' => by
    cases hrun' with
    | passed h' => simp [h] at h'
    | loaded _ hfirst' hrest' =>
      obtain ⟨hgroup, rfl, rfl⟩ := Loaded.mk.inj (hfirst.unique hfirst')
      rw [Except.ok.inj hgroup, hrest.unique hrest']
    | failed _ hfirst' => simpa using hfirst.unique hfirst'
  | _, _, _, _, _, _, _, .failed h hfirst hrest, hrun' => by
    cases hrun' with
    | passed h' => simp [h] at h'
    | loaded _ hfirst' => simpa using hfirst.unique hfirst'
    | failed _ hfirst' hrest' =>
      obtain ⟨hfault, rfl, rfl⟩ := Loaded.mk.inj (hfirst.unique hfirst')
      rw [Except.error.inj hfault, hrest.unique hrest']

end

theorem Loads.iff_eq {passes : List Location → String → Bool}
    {run run' : Loaded (Except LoadFault Group)} (h : Loads store passes visited path run) :
    Loads store passes visited path run' ↔ run' = run :=
  ⟨fun h' => h'.unique h, fun he => he ▸ h⟩

theorem readBefore_nil (store : Store) (path : String) : readBefore store [] path = false := by
  rw [readBefore]
  cases store.canonical? path <;> rfl

/-- Loading a group file comes to an end, with what `loadGroup` gives, and compiles no file
twice. -/
theorem loads_loadGroup (store : Store) (path : String) :
    ∃ visited : List Location, visited.Nodup ∧ ∀ run, Loads store (readBefore store) [] path run ↔
      run = ⟨(loadGroup store path).1, visited, (loadGroup store path).2⟩ := by
  have hcard : (unread store []).card < importDepth store :=
    Nat.lt_of_le_of_lt (card_unread_le store []) (by simp [importDepth])
  have hload := loads_loadFile hcard (readBefore_nil store path)
  exact ⟨_, hload.nodup List.nodup_nil (readBefore_nil store path), fun _ => hload.iff_eq⟩

end GrammarTrees.Template
