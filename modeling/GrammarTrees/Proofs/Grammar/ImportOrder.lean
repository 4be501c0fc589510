import GrammarTrees.Proofs.Grammar.Imports
import Mathlib.Data.Fintype.EquivFin

/-! The order in which imports are found. The search enters each import as soon as it meets it, and
passes over those it has met before. It ends for every graph of imports, and if no grammar below
comes to itself again, what it passes over would have given nothing new. -/

namespace GrammarTrees.GrammarSet

open Relation

variable {s : GrammarSet} {g h : GrammarId} {seen pending out gs more l : List GrammarId}

/-! ### The search -/

/-- With the imports `seen` found, the search through `pending` ends with those of `out`. An import
is entered before the next one is looked at, unless its file has been met. -/
inductive Collects (s : GrammarSet) :
    (seen pending : List GrammarId) → (out : List GrammarId) → Prop
  | nil {seen : List GrammarId} : Collects s seen [] seen
  | skip {seen gs out : List GrammarId} {g : GrammarId}
      (hmet : (s.grammar g).file ∈ seen.map fun h => (s.grammar h).file)
      (hrest : Collects s seen gs out) : Collects s seen (g :: gs) out
  | enter {seen gs mid out : List GrammarId} {g : GrammarId}
      (hnew : (s.grammar g).file ∉ seen.map fun h => (s.grammar h).file)
      (hown : Collects s (seen ++ [g]) (s.grammar g).imports mid)
      (hrest : Collects s mid gs out) : Collects s seen (g :: gs) out

theorem Collects.of_append (h : Collects s seen (gs ++ more) out) :
    ∃ mid, Collects s seen gs mid ∧ Collects s mid more out := by
  generalize hpending : gs ++ more = pending at h
  induction h generalizing gs with
  | nil =>
    obtain ⟨rfl, rfl⟩ := List.append_eq_nil_iff.mp hpending
    exact ⟨_, .nil, .nil⟩
  | skip hmet hrest ih =>
    cases gs with
    | nil =>
      obtain rfl : more = _ := hpending
      exact ⟨_, .nil, .skip hmet hrest⟩
    | cons a as =>
      obtain ⟨rfl, htail⟩ := List.cons.inj hpending
      obtain ⟨mid, hfirst, hlast⟩ := ih htail
      exact ⟨mid, .skip hmet hfirst, hlast⟩
  | enter hnew hown hrest _ ih =>
    cases gs with
    | nil =>
      obtain rfl : more = _ := hpending
      exact ⟨_, .nil, .enter hnew hown hrest⟩
    | cons a as =>
      obtain ⟨rfl, htail⟩ := List.cons.inj hpending
      obtain ⟨mid, hfirst, hlast⟩ := ih htail
      exact ⟨mid, .enter hnew hown hfirst, hlast⟩

/-! ### Its end -/

theorem imports_of_size_le (hg : s.size ≤ g) : (s.grammar g).imports = [] := by
  rw [grammar, Array.getElem?_eq_none hg]
  rfl

/-- The imports of the grammars that have not been entered. -/
def unfollowed (s : GrammarSet) (seen : List GrammarId) : List GrammarId :=
  (s.ids.filter (· ∉ seen)).flatMap fun g => (s.grammar g).imports

theorem unfollowed_nil (s : GrammarSet) :
    s.unfollowed [] = s.grammars.toList.flatMap Grammar.imports := by
  have hids : s.ids.map s.grammar = s.grammars.toList := by
    refine List.ext_getElem (by simp [ids, size]) fun i hi _ => ?_
    have hlt : i < s.grammars.size := by simpa [ids, size] using hi
    simp [ids, grammar, Array.getElem?_eq_getElem hlt]
  rw [unfollowed, List.filter_eq_self.mpr (by simp), ← hids, List.flatMap_map]

/-- Entering a grammar uses up its own imports. -/
theorem length_unfollowed (hg : g ∉ seen) : (s.unfollowed seen).length =
    (s.grammar g).imports.length + (s.unfollowed (seen ++ [g])).length := by
  have hfilter : s.ids.filter (· ∉ seen ++ [g]) = (s.ids.filter (· ∉ seen)).erase g := by
    have hnodup : (s.ids.filter (· ∉ seen)).Nodup := List.nodup_range.filter _
    rw [hnodup.erase_eq_filter, List.filter_filter]
    exact List.filter_congr fun a _ => by by_cases ha : a = g <;> simp [ha]
  rw [unfollowed, unfollowed, hfilter]
  by_cases hlt : g < s.size
  · have hmem : g ∈ s.ids.filter (· ∉ seen) :=
      List.mem_filter.mpr ⟨List.mem_range.mpr hlt, decide_eq_true hg⟩
    rw [((List.perm_cons_erase hmem).flatMap_right _).length_eq, List.flatMap_cons,
      List.length_append]
  · have hmem : g ∉ s.ids.filter (· ∉ seen) := fun hmem =>
      hlt (List.mem_range.mp (List.mem_of_mem_filter hmem))
    rw [imports_of_size_le (Nat.le_of_not_lt hlt), List.erase_of_not_mem hmem, List.length_nil,
      Nat.zero_add]

/-- The bound is high enough if it exceeds what is pending and what can still come up. -/
theorem collects_followImports {bound : Nat}
    (hbound : pending.length + (s.unfollowed seen).length < bound) :
    Collects s seen pending (s.followImports bound seen pending) := by
  induction bound generalizing seen pending with
  | zero => omega
  | succ bound ih =>
    cases pending with
    | nil => exact .nil
    | cons g gs =>
      rw [List.length_cons] at hbound
      rw [followImports]
      split
      · rename_i hmet
        exact .skip (List.contains_iff_mem.mp hmet) (ih (by omega))
      · rename_i hnew
        rw [List.contains_iff_mem] at hnew
        have hg : g ∉ seen := fun hmem => hnew (List.mem_map_of_mem hmem)
        have hused := length_unfollowed (s := s) hg
        obtain ⟨mid, hown, hrest⟩ := (@ih (seen ++ [g]) ((s.grammar g).imports ++ gs)
          (by rw [List.length_append]; omega)).of_append
        exact .enter hnew hown hrest

theorem collects_allImports (s : GrammarSet) (g : GrammarId) :
    Collects s [] (s.grammar g).imports (s.allImports g) := by
  refine collects_followImports ?_
  rw [unfollowed_nil, importBound]
  omega

/-! ### What is found -/

/-- Imports are registered, and different grammars come from different files. -/
structure Filed (s : GrammarSet) : Prop where
  registered : ∀ g h, s.Imports g h → h < s.size
  distinct : ∀ g < s.size, ∀ h < s.size, (s.grammar g).file = (s.grammar h).file → g = h

theorem Filed.mem_files_iff (hs : s.Filed) (hseen : ∀ x ∈ seen, x < s.size) (hg : g < s.size) :
    (s.grammar g).file ∈ seen.map (fun h => (s.grammar h).file) ↔ g ∈ seen := by
  refine ⟨fun hmet => ?_, fun hg => List.mem_map_of_mem hg⟩
  obtain ⟨h, hh, hfile⟩ := List.mem_map.mp hmet
  rwa [← hs.distinct h (hseen h hh) g hg hfile]

/-- What a search through `pending` that starts from `seen` finds: all of it, and the imports of
whatever is new. -/
structure Covers (s : GrammarSet) (seen pending out : List GrammarId) : Prop where
  registered : ∀ x ∈ out, x < s.size
  kept : ∀ x ∈ seen, x ∈ out
  found : ∀ x ∈ pending, x ∈ out
  closed : ∀ x ∈ out, x ∉ seen → ∀ y, s.Imports x y → y ∈ out

theorem Collects.covers (hs : s.Filed) (h : Collects s seen pending out)
    (hseen : ∀ x ∈ seen, x < s.size) (hpending : ∀ x ∈ pending, x < s.size) :
    Covers s seen pending out := by
  induction h with
  | nil => exact ⟨hseen, fun _ hx => hx, nofun, fun x hx hnew => absurd hx hnew⟩
  | @skip seen gs out g hmet hrest ih =>
    rw [List.forall_mem_cons] at hpending
    obtain ⟨hreg, hkept, hfound, hclosed⟩ := ih hseen hpending.2
    have hg : g ∈ seen := (hs.mem_files_iff hseen hpending.1).mp hmet
    exact ⟨hreg, hkept, List.forall_mem_cons.mpr ⟨hkept g hg, hfound⟩, hclosed⟩
  | @enter seen gs mid out g hnew hown hrest ihown ihrest =>
    rw [List.forall_mem_cons] at hpending
    have hseen' : ∀ x ∈ seen ++ [g], x < s.size :=
      List.forall_mem_append.mpr ⟨hseen, by simpa using hpending.1⟩
    have hfirst := ihown hseen' fun x hx => hs.registered g x hx
    have hlast := ihrest hfirst.registered hpending.2
    have hg : g ∈ mid := hfirst.kept g (List.mem_append_right _ (List.mem_singleton_self g))
    refine ⟨hlast.registered, fun x hx => hlast.kept x (hfirst.kept x (List.mem_append_left _ hx)),
      List.forall_mem_cons.mpr ⟨hlast.kept g hg, hlast.found⟩, fun x hx hxs y hxy => ?_⟩
    by_cases hxm : x ∈ mid
    · apply hlast.kept
      by_cases hxg : x = g
      · subst hxg
        exact hfirst.found y hxy
      · exact hfirst.closed x hxm (by simp [hxs, hxg]) y hxy
    · exact hlast.closed x hx hxm y hxy

theorem Filed.mem_allImports (hs : s.Filed) : h ∈ s.allImports g ↔ TransGen s.Imports g h := by
  refine ⟨imports_of_mem_allImports, fun hgh => ?_⟩
  have hcovers := (collects_allImports s g).covers hs nofun fun x hx => hs.registered g x hx
  induction hgh with
  | single hgh => exact hcovers.found _ hgh
  | tail _ hbc ih => exact hcovers.closed _ ih List.not_mem_nil _ hbc

/-! ### First occurrences -/

/-- The unrolled listing of grammars: each one is followed by the listing of its imports. -/
inductive Unrolls (s : GrammarSet) : List GrammarId → List GrammarId → Prop
  | nil : Unrolls s [] []
  | cons {g : GrammarId} {gs l m : List GrammarId} (hown : Unrolls s (s.grammar g).imports l)
      (hrest : Unrolls s gs m) : Unrolls s (g :: gs) (g :: (l ++ m))

/-- No grammar that `g` comes to through imports comes to itself again. -/
def AcyclicBelow (s : GrammarSet) (g : GrammarId) : Prop :=
  ∀ x, ReflTransGen s.Imports g x → ¬ TransGen s.Imports x x

theorem AcyclicBelow.of_imports (ha : s.AcyclicBelow g) (hgh : s.Imports g h) :
    s.AcyclicBelow h :=
  fun x hx => ha x (.head hgh hx)

theorem Unrolls.exists_of_mem (hl : Unrolls s gs l) (hh : h ∈ l) :
    ∃ g ∈ gs, ReflTransGen s.Imports g h := by
  induction hl with
  | nil => simp at hh
  | @cons g gs l m _ _ ihown ihrest =>
    rcases List.mem_cons.mp hh with rfl | hh
    · exact ⟨h, List.mem_cons_self, .refl⟩
    · rcases List.mem_append.mp hh with hh | hh
      · obtain ⟨x, hx, hxh⟩ := ihown hh
        exact ⟨g, List.mem_cons_self, .head hx hxh⟩
      · obtain ⟨x, hx, hxh⟩ := ihrest hh
        exact ⟨x, List.mem_cons_of_mem g hx, hxh⟩

theorem exists_unrolls_of_forall (hgs : ∀ g ∈ gs, ∃ l, Unrolls s (s.grammar g).imports l) :
    ∃ l, Unrolls s gs l := by
  induction gs with
  | nil => exact ⟨[], .nil⟩
  | cons g gs ih =>
    rw [List.forall_mem_cons] at hgs
    obtain ⟨l, hl⟩ := hgs.1
    obtain ⟨m, hm⟩ := ih hgs.2
    exact ⟨_, .cons hl hm⟩

/-- There are finitely many grammars, so a graph without cycles can be unrolled. -/
theorem AcyclicBelow.exists_unrolls (hs : s.Filed) (ha : s.AcyclicBelow g) :
    ∃ l, Unrolls s (s.grammar g).imports l := by
  let below (x y : Fin s.size) : Prop :=
    ReflTransGen s.Imports g y ∧ TransGen s.Imports (y : GrammarId) x
  have : IsTrans (Fin s.size) below := ⟨fun x y z hxy hyz => ⟨hyz.1, hyz.2.trans hxy.2⟩⟩
  have : Std.Irrefl below := ⟨fun x hx => ha x hx.1 hx.2⟩
  have hwf : WellFounded below := Finite.wellFounded_of_trans_of_irrefl below
  have hown : ∀ x : Fin s.size, ReflTransGen s.Imports g x →
      ∃ l, Unrolls s (s.grammar x).imports l := by
    intro x
    induction x using hwf.induction with
    | _ x ih =>
      intro hgx
      refine exists_unrolls_of_forall fun y hxy => ?_
      have hlt : y < s.size := hs.registered x y hxy
      exact ih ⟨y, hlt⟩ ⟨hgx, .single hxy⟩ (hgx.tail hxy)
  refine exists_unrolls_of_forall fun y hgy => ?_
  exact hown ⟨y, hs.registered g y hgy⟩ (.single hgy)

/-- Below the grammars that are pending, the imports of what has been seen have been seen. -/
def ClosedBelow (s : GrammarSet) (seen pending : List GrammarId) : Prop :=
  ∀ p ∈ pending, ∀ x, ReflTransGen s.Imports p x → x ∈ seen → ∀ y, s.Imports x y → y ∈ seen

theorem ClosedBelow.mem (hc : ClosedBelow s seen pending) (hg : g ∈ pending) (hseen : g ∈ seen)
    (hgh : ReflTransGen s.Imports g h) : h ∈ seen := by
  induction hgh with
  | refl => exact hseen
  | tail hgx hxy ih => exact hc g hg _ hgx ih _ hxy

theorem eraseDups_filter_cons (hg : g ∉ seen) : ((g :: l).filter (· ∉ seen)).eraseDups =
    g :: (l.filter (· ∉ seen ++ [g])).eraseDups := by
  rw [List.filter_cons_of_pos (by simpa using hg), List.eraseDups_cons, List.filter_filter]
  congr 2
  exact List.filter_congr fun a _ => by by_cases ha : a = g <;> simp [ha]

theorem eraseDups_filter_append (seen l more : List GrammarId) :
    ((l ++ more).filter (· ∉ seen)).eraseDups = (l.filter (· ∉ seen)).eraseDups ++
      (more.filter (· ∉ seen ++ (l.filter (· ∉ seen)).eraseDups)).eraseDups := by
  rw [List.filter_append, List.eraseDups_append, List.removeAll, List.filter_filter]
  congr 2
  exact List.filter_congr fun a _ => by by_cases ha : a ∈ seen <;> simp [ha]

/-- Without cycles, the search adds the unrolled listing, each grammar where it occurs first. -/
theorem Collects.eq_append (hs : s.Filed) (h : Collects s seen pending out)
    (hl : Unrolls s pending l) (hseen : ∀ x ∈ seen, x < s.size)
    (hpending : ∀ x ∈ pending, x < s.size) (ha : ∀ x ∈ pending, s.AcyclicBelow x)
    (hc : ClosedBelow s seen pending) : out = seen ++ (l.filter (· ∉ seen)).eraseDups := by
  induction h generalizing l with
  | nil =>
    cases hl
    simp
  | @skip seen gs out g hmet hrest ih =>
    rw [List.forall_mem_cons] at hpending ha
    cases hl with
    | @cons _ _ lg m hown hm =>
      have hg : g ∈ seen := (hs.mem_files_iff hseen hpending.1).mp hmet
      -- All that is below `g` has been seen with it.
      have hnone : lg.filter (· ∉ seen) = [] := by
        rw [List.filter_eq_nil_iff]
        intro x hx
        obtain ⟨y, hy, hyx⟩ := hown.exists_of_mem hx
        simpa using hc.mem List.mem_cons_self hg (.head hy hyx)
      rw [List.filter_cons_of_neg (by simpa using hg), List.filter_append, hnone, List.nil_append]
      exact ih hm hseen hpending.2 ha.2 fun p hp => hc p (List.mem_cons_of_mem g hp)
  | @enter seen gs mid out g hnew hcown hcrest ihown ihrest =>
    rw [List.forall_mem_cons] at hpending ha
    cases hl with
    | @cons _ _ lg m hown hm =>
      have hg : g ∉ seen := fun hg => hnew (List.mem_map_of_mem hg)
      have hseen' : ∀ x ∈ seen ++ [g], x < s.size :=
        List.forall_mem_append.mpr ⟨hseen, by simpa using hpending.1⟩
      have himports : ∀ x ∈ (s.grammar g).imports, x < s.size := fun x hx => hs.registered g x hx
      have hcovers := hcown.covers hs hseen' himports
      have hclosed : ClosedBelow s (seen ++ [g]) (s.grammar g).imports := by
        intro p hp x hpx hx y hxy
        have hgx : TransGen s.Imports g x := .head' hp hpx
        have hne : x ≠ g := by
          rintro rfl
          exact ha.1 x .refl hgx
        have hxs : x ∈ seen := by simpa [hne] using hx
        exact List.mem_append_left _ (hc g List.mem_cons_self x hgx.to_reflTransGen hxs y hxy)
      have hclosed' : ClosedBelow s mid gs := by
        intro p hp x hpx hx y hxy
        by_cases hxs : x ∈ seen
        · exact hcovers.kept y (List.mem_append_left _
            (hc p (List.mem_cons_of_mem g hp) x hpx hxs y hxy))
        · by_cases hxg : x = g
          · subst hxg
            exact hcovers.found y hxy
          · exact hcovers.closed x hx (by simp [hxs, hxg]) y hxy
      have hmid := ihown hown hseen' himports (fun x hx => ha.1.of_imports hx) hclosed
      have hout := ihrest hm hcovers.registered hpending.2 ha.2 hclosed'
      rw [hout, hmid, eraseDups_filter_cons hg, eraseDups_filter_append]
      simp only [List.append_assoc, List.cons_append, List.nil_append]

/-! ### Sets that are built up -/

/-- Sets that come about by registering trees and declaring imports. The trees may change
meanwhile. -/
inductive Built : GrammarSet → Prop
  | start (f : Forest) : Built ⟨f, #[]⟩
  | edit {s : GrammarSet} (hs : Built s) (f : Forest) : Built (s.withForest f)
  | add {s : GrammarSet} (hs : Built s) (file : String) (root : NodeId) : Built (s.add file root).1
  | addImport {s t : GrammarSet} {id delegate : GrammarId} (hs : Built s)
      (hdelegate : delegate < s.size) (ht : s.addImport id delegate = .ok t) : Built t

/-- The imports of a grammar, and that it has none if it is not registered. -/
theorem imports_eq (s : GrammarSet) (g : GrammarId) :
    (s.grammar g).imports = (s.grammars[g]?.map Grammar.imports).getD [] := by
  rw [grammar]
  cases s.grammars[g]? <;> rfl

theorem Built.registered (hs : s.Built) : ∀ g h, s.Imports g h → h < s.size := by
  induction hs with
  | start f =>
    intro g h hgh
    simp [Imports, imports_eq] at hgh
  | edit hs f ih => exact ih
  | @add s hs file root ih =>
    intro g h hgh
    have hsize : ((s.add file root).1).size = s.size + 1 := by simp [GrammarSet.add, size]
    have hold : s.Imports g h := by
      rw [Imports, imports_eq] at hgh ⊢
      simp only [GrammarSet.add, Array.getElem?_push] at hgh
      split at hgh
      · simp at hgh
      · exact hgh
    exact hsize ▸ Nat.lt_succ_of_lt (ih g h hold)
  | @addImport s t id delegate hs hdelegate ht ih =>
    rw [GrammarSet.addImport] at ht
    split at ht
    · simp at ht
    · obtain rfl := Except.ok.inj ht
      intro g h hgh
      rw [Imports, imports_eq, Array.getElem?_modify] at hgh
      have hsize : h < s.size := by
        split at hgh
        · rename_i hid
          subst hid
          cases hg : s.grammars[id]? with
          | none => simp [hg] at hgh
          | some own =>
            simp only [hg, Option.map_some, Option.getD_some, List.mem_append,
              List.mem_singleton] at hgh
            rcases hgh with hgh | rfl
            · exact ih id h (by rw [Imports, imports_eq, hg]; exact hgh)
            · exact hdelegate
        · exact ih g h (by rw [Imports, imports_eq]; exact hgh)
      simpa [size] using hsize

theorem Built.filed (hs : s.Built) (hfiles : (s.grammars.toList.map Grammar.file).Nodup) :
    s.Filed := by
  have hget : ∀ g < s.size, (s.grammars.toList.map Grammar.file)[g]? = some (s.grammar g).file := by
    intro g hg
    rw [List.getElem?_map, Array.getElem?_toList, grammar, Array.getElem?_eq_getElem hg]
    rfl
  refine ⟨hs.registered, fun g hg h hh hfile => ?_⟩
  refine (List.getElem?_inj (by simpa [size] using hg) hfiles).mp ?_
  rw [hget g hg, hget h hh, hfile]

/-! ### The order -/

/-- The search for the imports of a grammar ends, and finds each grammar that it comes to through at
least one import once. Where no grammar below comes to itself again, they stand in the order in
which they first occur in the unrolled listing. -/
theorem allImports_depthFirst (hs : s.Built)
    (hfiles : (s.grammars.toList.map Grammar.file).Nodup) (g : GrammarId) :
    Collects s [] (s.grammar g).imports (s.allImports g) ∧ (s.allImports g).Nodup ∧
      (∀ h, h ∈ s.allImports g ↔ TransGen s.Imports g h) ∧
      (s.AcyclicBelow g → (∃ l, Unrolls s (s.grammar g).imports l) ∧
        ∀ l, Unrolls s (s.grammar g).imports l → s.allImports g = l.eraseDups) := by
  have hfiled := hs.filed hfiles
  have hcollects := collects_allImports s g
  refine ⟨hcollects, nodup_allImports s g, fun h => hfiled.mem_allImports, fun ha =>
    ⟨ha.exists_unrolls hfiled, fun l hl => ?_⟩⟩
  rw [hcollects.eq_append hfiled hl nofun (fun x hx => hfiled.registered g x hx)
    (fun x hx => ha.of_imports hx) fun _ _ _ _ hx => absurd hx List.not_mem_nil]
  simp

/-- The set after `id` has declared that it imports `delegate`. -/
def withImport (s : GrammarSet) (id delegate : GrammarId) : GrammarSet :=
  { s with grammars := s.grammars.modify id fun g => { g with imports := g.imports ++ [delegate] } }

theorem Built.withImport (hs : s.Built) (id delegate : GrammarId) (hdelegate : delegate < s.size)
    (hne : id ≠ delegate) : (s.withImport id delegate).Built :=
  .addImport hs hdelegate (if_neg hne)

/-- Grammars without sections, under these names. -/
def namedTrees (names : List String) : Forest :=
  .plantAll .empty (names.map fun name =>
    .node (.make .grammar "PARSER_GRAMMAR") [.leaf (.make .id name)])

/-- The first grammar imports the second and the third, which both import the last. -/
def diamond : GrammarSet :=
  let s := (((⟨namedTrees ["R", "A", "B", "C"], #[]⟩ : GrammarSet).add "R.g4" 0).1.add "A.g4" 2).1
  let t := ((s.add "B.g4" 4).1.add "C.g4" 6).1
  (((t.withImport 0 1).withImport 1 3).withImport 0 2).withImport 2 3

theorem built_diamond : diamond.Built := by
  have hstart : Built ⟨namedTrees ["R", "A", "B", "C"], #[]⟩ := .start _
  have hadded := (((hstart.add "R.g4" 0).add "A.g4" 2).add "B.g4" 4).add "C.g4" 6
  have hfirst := (hadded.withImport 0 1 (by decide) (by decide)).withImport 1 3
    (by decide) (by decide)
  exact (hfirst.withImport 0 2 (by decide) (by decide)).withImport 2 3 (by decide) (by decide)

/-- The last grammar is found below the second one. -/
theorem allImports_depthFirst_diamond :
    diamond.Built ∧ (diamond.grammars.toList.map Grammar.file).Nodup ∧ diamond.AcyclicBelow 0 ∧
      Unrolls diamond (diamond.grammar 0).imports [1, 3, 2, 3] ∧
      diamond.allImports 0 = [1, 3, 2, 3].eraseDups := by
  have hfiles : (diamond.grammars.toList.map Grammar.file).Nodup := by decide +kernel
  have hlater : ∀ g < diamond.size, ∀ h ∈ (diamond.grammar g).imports, g < h := by decide +kernel
  have hacyclic : diamond.AcyclicBelow 0 := by
    refine fun x _ => acyclic_of_lt (fun g h hgh => hlater g ?_ h hgh) x
    by_contra hg
    rw [Imports, imports_of_size_le (Nat.le_of_not_lt hg)] at hgh
    simp at hgh
  have hlast : Unrolls diamond [3] [3] := .cons (l := []) (m := []) .nil .nil
  have hunrolls : Unrolls diamond (diamond.grammar 0).imports [1, 3, 2, 3] :=
    .cons (l := [3]) hlast (.cons (l := [3]) (m := []) hlast .nil)
  exact ⟨built_diamond, hfiles, hacyclic, hunrolls,
    ((allImports_depthFirst built_diamond hfiles 0).2.2.2 hacyclic).2 _ hunrolls⟩

/-- On a cycle, a grammar is among those that it imports. -/
example : (diamond.withImport 3 0).allImports 0 = [1, 3, 0, 2] := by decide +kernel

end GrammarTrees.GrammarSet
