import GrammarTrees.FileSystem.Store
import Mathlib.Algebra.GroupWithZero.Nat
import Mathlib.Data.List.Induction

/-! Paths that are seen from the directory of a file. Where they lead depends on the place of the
file only, and not on the path by which it was found. -/

namespace GrammarTrees

variable {c : Char} {cs xs ys piece last : List Char} {before after front pieces : List (List Char)}

/-! ### Pieces -/

theorem splitAtChar_append (c : Char) (xs ys : List Char) :
    splitAtChar c (xs ++ c :: ys) = splitAtChar c xs ++ splitAtChar c ys := by
  induction xs with
  | nil => simp [splitAtChar]
  | cons x xs ih =>
    rw [List.cons_append, splitAtChar, splitAtChar, ih]
    split
    · rfl
    · cases h : splitAtChar c xs with
      | nil => exact absurd h (splitAtChar_ne_nil c xs)
      | cons piece pieces => rfl

theorem splitAtChar_of_not_mem (h : c ∉ ys) : splitAtChar c ys = [ys] := by
  induction ys with
  | nil => rfl
  | cons y ys ih =>
    rw [List.mem_cons, not_or] at h
    rw [splitAtChar, if_neg (Ne.symm h.1), ih h.2]

/-- What has no separator in it goes to the last piece. -/
theorem splitAtChar_append_of_not_mem (h : c ∉ ys) (xs : List Char) :
    ∃ front last, splitAtChar c (xs ++ ys) = front ++ [last ++ ys] := by
  induction xs with
  | nil =>
    exact ⟨[], [], splitAtChar_of_not_mem h⟩
  | cons x xs ih =>
    obtain ⟨front, last, hfront⟩ := ih
    rw [List.cons_append, splitAtChar, hfront]
    split
    · exact ⟨[] :: front, last, rfl⟩
    · cases front with
      | nil => exact ⟨[], x :: last, rfl⟩
      | cons piece front => exact ⟨(x :: piece) :: front, last, rfl⟩

/-- A text up to the end of one of its pieces. -/
theorem exists_prefix_of_splitAtChar (h : splitAtChar c cs = before ++ piece :: after)
    (hafter : after ≠ []) :
    ∃ xs ys, cs = xs ++ c :: ys ∧ splitAtChar c xs = before ++ [piece] ∧
      xs.length = (before.map (·.length + 1)).sum + piece.length := by
  induction cs generalizing before piece with
  | nil =>
    have hlength := congrArg List.length h
    have hpos := List.length_pos_iff.mpr hafter
    simp [splitAtChar] at hlength
    omega
  | cons x cs ih =>
    rw [splitAtChar] at h
    split at h
    · rename_i hx
      subst hx
      cases before with
      | nil =>
        obtain ⟨rfl, rfl⟩ := List.cons.inj h
        exact ⟨[], cs, rfl, rfl, rfl⟩
      | cons b before =>
        obtain ⟨rfl, hcs⟩ := List.cons.inj h
        obtain ⟨xs, ys, rfl, hxs, hlength⟩ := ih hcs
        refine ⟨x :: xs, ys, rfl, ?_, ?_⟩
        · rw [splitAtChar, if_pos rfl, hxs]
          rfl
        · rw [List.length_cons, hlength]
          simp
          omega
    · rename_i hx
      cases hcs : splitAtChar c cs with
      | nil => exact absurd hcs (splitAtChar_ne_nil c cs)
      | cons p ps =>
        rw [hcs] at h
        cases before with
        | nil =>
          obtain ⟨rfl, rfl⟩ := List.cons.inj h
          obtain ⟨xs, ys, rfl, hxs, hlength⟩ := ih (show splitAtChar c cs = [] ++ p :: ps from hcs)
          refine ⟨x :: xs, ys, rfl, ?_, ?_⟩
          · rw [splitAtChar, if_neg hx, hxs]
            rfl
          · rw [List.length_cons, hlength]
            simp
        | cons b before =>
          obtain ⟨rfl, rfl⟩ := List.cons.inj h
          obtain ⟨xs, ys, rfl, hxs, hlength⟩ :=
            ih (show splitAtChar c cs = (p :: before) ++ piece :: after from hcs)
          refine ⟨x :: xs, ys, rfl, ?_, ?_⟩
          · rw [splitAtChar, if_neg hx, hxs]
            rfl
          · rw [List.length_cons, hlength]
            simp
            omega

/-! ### The directory of a path -/

namespace Path

/-- A piece of a path that does not lead anywhere else. -/
def IsBlank (piece : List Char) : Prop := piece = [] ∨ piece = ['.']

/-- A piece of a path that is the name of a file or a directory. -/
structure IsName (piece : List Char) : Prop where
  not_blank : ¬ IsBlank piece
  ne_parent : piece ≠ ['.', '.']

theorem blank_of_componentsFrom_eq_nil {start : Nat} (h : componentsFrom start pieces = []) :
    ∀ p ∈ pieces, IsBlank p := by
  induction pieces generalizing start with
  | nil => simp
  | cons p pieces ih =>
    rw [componentsFrom] at h
    have hrest : componentsFrom (start + p.length + 1) pieces = [] := by
      split_ifs at h <;> exact h
    refine List.forall_mem_cons.mpr ⟨?_, ih hrest⟩
    split_ifs at h with hempty hdot
    · exact .inl hempty
    · exact .inr hdot

/-- The last component ends with a piece that only blank ones follow. -/
theorem exists_piece_of_componentsFrom {start stop : Nat} {component : Component}
    (h : (componentsFrom start pieces).getLast? = some (component, stop)) :
    ∃ before piece after, pieces = before ++ piece :: after ∧ piece ≠ [] ∧
      (∀ q ∈ after, IsBlank q) ∧
      stop = start + ((before.map (·.length + 1)).sum + piece.length) := by
  induction pieces generalizing start with
  | nil => simp [componentsFrom] at h
  | cons p pieces ih =>
    rw [componentsFrom] at h
    cases hrest : componentsFrom (start + p.length + 1) pieces with
    | nil =>
      have hblank := blank_of_componentsFrom_eq_nil hrest
      simp only [hrest] at h
      refine ⟨[], p, pieces, rfl, ?_, hblank, ?_⟩
      · rintro rfl
        simp at h
      · split_ifs at h <;> simp_all
    | cons e es =>
      have hlast : (componentsFrom (start + p.length + 1) pieces).getLast? =
          some (component, stop) := by
        simp only [hrest] at h ⊢
        split_ifs at h <;> simpa using h
      obtain ⟨before, piece, after, rfl, hpiece, hafter, hstop⟩ := ih hlast
      refine ⟨p :: before, piece, after, rfl, hpiece, hafter, ?_⟩
      rw [hstop, List.map_cons, List.sum_cons]
      omega

theorem componentsFrom_concat (hlast : IsName last) (start : Nat) (front : List (List Char)) :
    ∃ stop, componentsFrom start (front ++ [last]) =
      componentsFrom start front ++ [(.name (String.ofList last), stop)] := by
  induction front generalizing start with
  | nil =>
    obtain ⟨hblank, hparent⟩ := hlast
    rw [IsBlank, not_or] at hblank
    simp [componentsFrom, hblank, hparent]
  | cons p front ih =>
    obtain ⟨stop, hstop⟩ := ih (start + p.length + 1)
    refine ⟨stop, ?_⟩
    rw [List.cons_append, componentsFrom, componentsFrom]
    simp only [hstop]
    split_ifs <;> rfl

/-- What stands in front of the name of a file is its directory. -/
theorem parent?_eq {path : String} (h : splitAtChar '/' path.toList = front ++ [last])
    (hlast : IsName last) :
    parent? path = some
      (match (if path.toList.head? = some '/' then (Component.root, 1) :: componentsFrom 0 front
        else componentsFrom 0 front).getLast? with
      | none => ""
      | some (_, stop) => String.ofList (path.toList.take stop)) := by
  obtain ⟨stop, hstop⟩ := componentsFrom_concat hlast 0 front
  have hcomponents : components path =
      (if path.toList.head? = some '/' then (Component.root, 1) :: componentsFrom 0 front
        else componentsFrom 0 front) ++ [(.name (String.ofList last), stop)] := by
    rw [components, h, hstop]
    split_ifs <;> rfl
  rw [parent?, hcomponents, List.reverse_append]
  generalize (if path.toList.head? = some '/' then (Component.root, 1) :: componentsFrom 0 front
    else componentsFrom 0 front) = parts
  cases parts using List.reverseRecOn with
  | nil => rfl
  | append_singleton parts e => simp

theorem isSuffixOf_append_cons (h : c ∉ cs) (xs ys : List Char) :
    cs.isSuffixOf (xs ++ c :: ys) = cs.isSuffixOf ys := by
  rw [Bool.eq_iff_iff, List.isSuffixOf_iff_suffix, List.isSuffixOf_iff_suffix]
  have hrest : ys <:+ xs ++ c :: ys := (List.suffix_cons c ys).trans (List.suffix_append _ _)
  refine ⟨fun hcs => ?_, fun hcs => hcs.trans hrest⟩
  rcases List.suffix_or_suffix_of_suffix hcs (List.suffix_append xs (c :: ys)) with hshort | hlong
  · rcases List.suffix_cons_iff.mp hshort with rfl | hys
    · exact absurd List.mem_cons_self h
    · exact hys
  · exact absurd (hlong.subset List.mem_cons_self) h

/-- What ends a path has no part in the directory from which the path is seen. -/
theorem hasSuffix_join {suffix : String} (h : '/' ∉ suffix.toList) (dir path : String) :
    hasSuffix (join dir path) suffix = hasSuffix path suffix := by
  rw [join]
  split
  · rfl
  split
  · rename_i hdir
    by_cases hempty : dir = ""
    · rw [hempty, String.empty_append]
    · obtain ⟨chars, hchars⟩ := List.getLast?_eq_some_iff.mp (hdir.resolve_left hempty)
      rw [hasSuffix, String.toList_append, hchars, List.append_assoc]
      exact isSuffixOf_append_cons h ..
  · rw [hasSuffix, String.toList_append, String.toList_append, List.append_assoc]
    exact isSuffixOf_append_cons h ..

end Path

/-! ### Places -/

namespace Store

open GrammarTrees.Path

variable {s : Store} {place target names : Location} {path dir other source : String}

theorem enter_blank (hpiece : IsBlank piece) (h : s.enter place piece = .ok target) :
    target = place := by
  unfold enter at h
  split at h
  · simp at h
  · rw [if_pos (show piece = [] ∨ piece = ['.'] from hpiece)] at h
    exact (Except.ok.inj h).symm

/-- A name leads from a directory to what is in it. -/
theorem enter_name (hpiece : IsName piece) (h : s.enter place piece = .ok target) :
    target = place ++ [String.ofList piece] := by
  unfold enter at h
  split at h
  · simp at h
  rw [if_neg (show ¬ (piece = [] ∨ piece = ['.']) from hpiece.not_blank),
    if_neg hpiece.ne_parent] at h
  split at h
  · simp at h
  · dsimp only at h
    split at h
    · exact (Except.ok.inj h).symm
    · simp at h

theorem foldlM_enter_cons (h : (piece :: pieces).foldlM s.enter place = .ok target) :
    ∃ middle, s.enter place piece = .ok middle ∧ pieces.foldlM s.enter middle = .ok target := by
  rw [List.foldlM_cons] at h
  cases hpiece : s.enter place piece with
  | error fault => simp [hpiece, bind, Except.bind] at h
  | ok middle =>
    rw [hpiece] at h
    exact ⟨middle, rfl, h⟩

theorem foldlM_enter_append (h : (before ++ after).foldlM s.enter place = .ok target) :
    ∃ middle, before.foldlM s.enter place = .ok middle ∧
      after.foldlM s.enter middle = .ok target := by
  rw [List.foldlM_append] at h
  cases hb : before.foldlM s.enter place with
  | error fault => simp [hb, bind, Except.bind] at h
  | ok middle =>
    rw [hb] at h
    exact ⟨middle, rfl, h⟩

theorem foldlM_enter_blank (hpieces : ∀ q ∈ pieces, IsBlank q)
    (h : pieces.foldlM s.enter place = .ok target) : target = place := by
  induction pieces generalizing place with
  | nil => exact (Except.ok.inj h).symm
  | cons p pieces ih =>
    rw [List.forall_mem_cons] at hpieces
    obtain ⟨middle, hp, hrest⟩ := foldlM_enter_cons h
    rw [ih hpieces.2 hrest, enter_blank hpieces.1 hp]

theorem locate_eq_ok_iff : s.locate path = .ok place ↔ path ≠ "" ∧ '\x00' ∉ path.toList ∧
    (splitAtChar '/' path.toList).foldlM s.enter (s.start path) = .ok place := by
  by_cases hempty : path = ""
  · simp [locate, hempty]
  by_cases hnull : '\x00' ∈ path.toList
  · simp [locate, hempty, hnull]
  · simp [locate, hempty, hnull]

/-- The root is a directory even if nothing is in it. -/
theorem enter_root : s.enter [] [] = .ok [] := by
  have hroot : s.isDirectory [] = true := by simp [isDirectory]
  unfold enter
  rw [hroot]
  rfl

theorem locate_root : s.locate "/" = .ok [] := by
  have hpieces : [[], []].foldlM s.enter [] = .ok [] := by
    rw [List.foldlM_cons, enter_root]
    change [[]].foldlM s.enter [] = .ok []
    rw [List.foldlM_cons, enter_root]
    rfl
  exact locate_eq_ok_iff.mpr ⟨by decide, by decide, hpieces⟩

/-- The directory at a place, as it stands in front of a path. -/
def IsDir (s : Store) (dir : String) (place : Location) : Prop :=
  (dir = "" ∧ place = s.workingDirectory) ∨ (dir ≠ "" ∧ s.locate dir = .ok place)

/-- A path up to the end of one of its pieces is that of a directory. -/
theorem isDir_take {stop : Nat} (hsplit : splitAtChar '/' path.toList = before ++ piece :: after)
    (hafter : after ≠ []) (hpiece : piece ≠ [])
    (hstop : stop = (before.map (·.length + 1)).sum + piece.length) (hnull : '\x00' ∉ path.toList)
    (h : (before ++ [piece]).foldlM s.enter (s.start path) = .ok place) :
    s.IsDir (String.ofList (path.toList.take stop)) place := by
  obtain ⟨xs, ys, hpath, hxs, hlength⟩ := exists_prefix_of_splitAtChar hsplit hafter
  have htake : path.toList.take stop = xs := by
    rw [hpath, hstop, ← hlength, List.take_left]
  have hne : xs ≠ [] := by
    rintro rfl
    have hmem : piece ∈ splitAtChar '/' [] := hxs ▸ List.mem_concat_self
    exact hpiece (List.mem_singleton.mp hmem)
  obtain ⟨x, xs, rfl⟩ := List.exists_cons_of_ne_nil hne
  have hstart : s.start (String.ofList (x :: xs)) = s.start path := by
    rw [start, start, String.toList_ofList, hpath]
    rfl
  rw [htake]
  refine .inr ⟨by simp, locate_eq_ok_iff.mpr ⟨by simp, ?_, ?_⟩⟩
  · rw [String.toList_ofList]
    rw [hpath] at hnull
    exact fun hmem => hnull (List.mem_append_left _ hmem)
  · rw [String.toList_ofList, hxs, hstart, h]

/-- What stands in front of the name of a file leads to its directory. -/
theorem isDir_parent (hsplit : splitAtChar '/' path.toList = front ++ [last])
    (hlast : IsName last) (h : s.locate path = .ok place) :
    ∃ dir, parent? path = some dir ∧ s.IsDir dir place.dropLast := by
  obtain ⟨-, hnull, h⟩ := locate_eq_ok_iff.mp h
  rw [hsplit] at h
  obtain ⟨middle, hfront, hname⟩ := foldlM_enter_append h
  obtain ⟨_, hentered, hdone⟩ := foldlM_enter_cons hname
  obtain rfl := Except.ok.inj hdone
  obtain rfl := enter_name hlast hentered
  rw [List.dropLast_concat]
  refine ⟨_, parent?_eq hsplit hlast, ?_⟩
  cases hcomponents : (componentsFrom 0 front).getLast? with
  | none =>
    rw [List.getLast?_eq_none_iff] at hcomponents
    obtain rfl := foldlM_enter_blank (blank_of_componentsFrom_eq_nil hcomponents) hfront
    rw [hcomponents, start]
    by_cases habsolute : path.toList.head? = some '/'
    · obtain ⟨cs, hpath⟩ := List.head?_eq_some_iff.mp habsolute
      rw [if_pos habsolute, if_pos habsolute, hpath]
      exact .inr ⟨show "/" ≠ "" by decide, locate_root⟩
    · rw [if_neg habsolute, if_neg habsolute]
      exact .inl ⟨rfl, rfl⟩
  | some entry =>
    obtain ⟨component, stop⟩ := entry
    have hlastEntry : (if path.toList.head? = some '/' then
        (Component.root, 1) :: componentsFrom 0 front else componentsFrom 0 front).getLast? =
        some (component, stop) := by
      split
      · rw [List.getLast?_cons, hcomponents]
        rfl
      · exact hcomponents
    rw [hlastEntry]
    obtain ⟨before, piece, after, rfl, hpiece, hblank, hstop⟩ :=
      exists_piece_of_componentsFrom hcomponents
    rw [List.append_assoc, List.cons_append] at hsplit
    rw [List.append_cons] at hfront
    obtain ⟨dirPlace, hbefore, hafter⟩ := foldlM_enter_append hfront
    rw [foldlM_enter_blank hblank hafter]
    exact isDir_take hsplit (by simp) hpiece (hstop.trans (Nat.zero_add _)) hnull hbefore

theorem start_eq_of_append (hne : dir ≠ "") (h : path.toList = dir.toList ++ xs) :
    s.start path = s.start dir := by
  obtain ⟨c, cs, hdir⟩ := List.exists_cons_of_ne_nil (show dir.toList ≠ [] by simpa using hne)
  rw [start, start, h, hdir]
  rfl

/-- Where a path leads whose first pieces lead to the place `names`. -/
theorem locate_of_pieces (hnull : '\x00' ∉ xs)
    (h : (splitAtChar '/' xs).foldlM s.enter (s.start path) = .ok names)
    (hpath : path.toList = xs ++ '/' :: other.toList) :
    s.locate path = .ok place ↔ '\x00' ∉ other.toList ∧
      (splitAtChar '/' other.toList).foldlM s.enter names = .ok place := by
  have hne : path ≠ "" := by
    rintro rfl
    simp at hpath
  rw [locate_eq_ok_iff, hpath, splitAtChar_append, List.foldlM_append, h]
  simp [hne, hnull, bind, Except.bind]

/-- Where a path leads that is seen from a directory. -/
theorem locate_join (hdir : s.IsDir dir names) (hother : other ≠ "") :
    s.locate (join dir other) = .ok place ↔ '\x00' ∉ other.toList ∧
      (splitAtChar '/' other.toList).foldlM s.enter
        (if other.toList.head? = some '/' then [] else names) = .ok place := by
  rw [join]
  split
  · rename_i habsolute
    rw [locate_eq_ok_iff, start, if_pos habsolute]
    simp [hother]
  rename_i hrelative
  rcases hdir with ⟨rfl, rfl⟩ | ⟨hne, hplace⟩
  · rw [if_pos (.inl rfl), String.empty_append, locate_eq_ok_iff, start, if_neg hrelative]
    simp [hother]
  obtain ⟨-, hnull, hplace⟩ := locate_eq_ok_iff.mp hplace
  split
  · rename_i hslash
    obtain ⟨chars, hdir⟩ := List.getLast?_eq_some_iff.mp (hslash.resolve_left hne)
    have hpath : (dir ++ other).toList = dir.toList ++ other.toList := String.toList_append
    -- The slash at the end makes an empty piece, which is not there any more once more follows.
    rw [hdir, splitAtChar_append] at hplace
    obtain ⟨middle, hfront, hempty⟩ := foldlM_enter_append hplace
    have hblank : ∀ q ∈ splitAtChar '/' [], IsBlank q := by simp [splitAtChar, IsBlank]
    obtain rfl : names = middle := foldlM_enter_blank hblank hempty
    rw [← start_eq_of_append hne hpath] at hfront
    rw [hdir] at hnull
    refine locate_of_pieces (fun hmem => hnull (List.mem_append_left _ hmem)) hfront ?_
    rw [hpath, hdir, List.append_assoc]
    rfl
  · have hpath : (dir ++ "/" ++ other).toList = dir.toList ++ '/' :: other.toList := by
      rw [String.toList_append, String.toList_append, List.append_assoc]
      rfl
    rw [← start_eq_of_append hne hpath] at hplace
    exact locate_of_pieces hnull hplace hpath

theorem readText_eq_ok_iff : s.readText path = .ok (source, place) ↔
    s.locate path = .ok place ∧ s.entry? place = some (.file (some source)) := by
  rw [readText]
  cases hlocate : s.locate path with
  | error fault => simp
  | ok found =>
    rw [Except.ok.injEq]
    constructor
    · intro h
      dsimp only at h
      split at h
      · rename_i content hentry
        obtain ⟨rfl, rfl⟩ := Prod.mk.inj (Except.ok.inj h)
        exact ⟨rfl, hentry⟩
      · simp at h
      · simp at h
    · rintro ⟨rfl, hentry⟩
      simp only [hentry]

/-! ### Paths from the root -/

/-- A name that a file or a directory can have. -/
structure IsEntryName (name : String) : Prop where
  isName : IsName name.toList
  no_slash : '/' ∉ name.toList
  no_null : '\x00' ∉ name.toList
  short : byteLength name.toList ≤ maxNameLength

/-- The path from the root to a place. -/
def absolutePath : Location → String
  | [] => "/"
  | name :: names => String.ofList ((name :: names).flatMap fun name => '/' :: name.toList)

theorem splitAtChar_flatMap_names (h : ∀ name ∈ names, '/' ∉ name.toList) :
    splitAtChar '/' (names.flatMap fun name => '/' :: name.toList) =
      [] :: names.map String.toList := by
  induction names using List.reverseRecOn with
  | nil => rfl
  | append_singleton names name ih =>
    rw [List.forall_mem_append, List.forall_mem_singleton] at h
    rw [List.flatMap_append, List.flatMap_singleton, splitAtChar_append, ih h.1,
      splitAtChar_of_not_mem h.2, List.map_append]
    rfl

theorem isDirectory_of_mem {entry : Entry} {name : String}
    (h : (place ++ name :: names, entry) ∈ s.entries) : s.isDirectory place = true := by
  have hany : (s.entries.any fun e => place.isPrefixOf e.1 && place.length < e.1.length) = true :=
    List.any_eq_true.mpr ⟨_, h, by simp⟩
  simp [isDirectory, hany]

theorem entry?_isSome_of_mem {entry : Entry} (h : (place, entry) ∈ s.entries) :
    (s.entry? place).isSome = true := by
  rw [Store.entry?, Option.isSome_map, List.find?_isSome]
  exact ⟨_, h, by simp⟩

/-- The names to an entry are followed one by one, from any directory above it. -/
theorem foldlM_enter_names {entry : Entry} (h : (place ++ names, entry) ∈ s.entries)
    (hnames : ∀ name ∈ names, IsEntryName name) :
    (names.map String.toList).foldlM s.enter place = .ok (place ++ names) := by
  induction names generalizing place with
  | nil => rw [List.append_nil]; rfl
  | cons name names ih =>
    rw [List.forall_mem_cons] at hnames
    obtain ⟨hname, hslash, hnull, hshort⟩ := hnames.1
    have hplace := isDirectory_of_mem h
    rw [List.append_cons] at h ⊢
    have hnext : (s.entry? (place ++ [name])).isSome = true ∨
        s.isDirectory (place ++ [name]) = true := by
      cases names with
      | nil => exact .inl (entry?_isSome_of_mem (by simpa using h))
      | cons => exact .inr (isDirectory_of_mem h)
    have hentered : s.enter place name.toList = .ok (place ++ [name]) := by
      unfold enter
      rw [hplace, Bool.not_true, if_neg Bool.false_ne_true,
        if_neg (show ¬ (name.toList = [] ∨ name.toList = ['.']) from hname.not_blank),
        if_neg hname.ne_parent, if_neg (Nat.not_lt.mpr hshort), String.ofList_toList]
      exact if_pos (Bool.or_eq_true_iff.mpr hnext)
    rw [List.map_cons, List.foldlM_cons, hentered]
    exact ih h hnames.2

/-- The path from the root leads to each file and directory, wherever the working directory is. -/
theorem locate_absolutePath {entry : Entry} (h : (place, entry) ∈ s.entries)
    (hnames : ∀ name ∈ place, IsEntryName name) : s.locate (absolutePath place) = .ok place := by
  cases place with
  | nil => exact locate_root
  | cons name names =>
    have hnull : '\x00' ∉ (name :: names).flatMap fun name => '/' :: name.toList := by
      rw [List.mem_flatMap]
      rintro ⟨n, hn, hmem⟩
      exact (hnames n hn).no_null ((List.mem_cons.mp hmem).resolve_left (by decide))
    have hstart : s.start (absolutePath (name :: names)) = [] := by
      rw [absolutePath, start, String.toList_ofList]
      rfl
    rw [locate_eq_ok_iff, hstart, absolutePath, String.toList_ofList,
      splitAtChar_flatMap_names fun n hn => (hnames n hn).no_slash, List.foldlM_cons, enter_root]
    exact ⟨by simp, hnull, foldlM_enter_names h hnames⟩

end Store

end GrammarTrees
