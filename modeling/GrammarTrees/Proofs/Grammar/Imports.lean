import GrammarTrees.Grammar.GrammarSet
import GrammarTrees.Proofs.Forest.WellFormed

/-! The grammars that a grammar imports, directly or not, and sets of grammars whose trees do not
touch each other. -/

namespace GrammarTrees.GrammarSet

open Relation

variable {s : GrammarSet} {g h : GrammarId}

/-- `g` imports `h` directly. -/
def Imports (s : GrammarSet) (g h : GrammarId) : Prop := h ∈ (s.grammar g).imports

/-- No grammar imports itself, directly or not. -/
def Acyclic (s : GrammarSet) : Prop := ∀ g, ¬ TransGen s.Imports g g

/-- The grammars have trees of their own, and their imports are registered. -/
structure Separate (s : GrammarSet) : Prop where
  wellFormed : s.forest.WellFormed
  root_lt : ∀ g < s.size, (s.grammar g).root < s.forest.size
  isRoot : ∀ g < s.size, s.forest.parent? (s.grammar g).root = none
  distinct : ∀ g < s.size, ∀ h < s.size, (s.grammar g).root = (s.grammar h).root → g = h
  registered : ∀ g < s.size, ∀ h, s.Imports g h → h < s.size

/-- If grammars import later ones only, none imports itself. -/
theorem acyclic_of_lt (hlt : ∀ g h : Nat, s.Imports g h → g < h) : s.Acyclic := by
  have hpath : ∀ g h : Nat, TransGen s.Imports g h → g < h := by
    intro g h hgh
    induction hgh with
    | single hab => exact hlt g _ hab
    | tail _ hbc ih => exact Nat.lt_trans ih (hlt _ _ hbc)
  intro g hg
  exact Nat.lt_irrefl g (hpath g g hg)

theorem mem_followImports {R : GrammarId → Prop} (hR : ∀ g h, R g → s.Imports g h → R h)
    (bound : Nat) {seen pending : List GrammarId} (hseen : ∀ g ∈ seen, R g)
    (hpending : ∀ g ∈ pending, R g) : ∀ g ∈ s.followImports bound seen pending, R g := by
  induction bound generalizing seen pending with
  | zero => exact hseen
  | succ bound ih =>
    cases pending with
    | nil => exact hseen
    | cons g gs =>
      rw [List.forall_mem_cons] at hpending
      rw [followImports]
      split
      · exact ih hseen hpending.2
      · refine ih (fun h hh => ?_) fun h hh => ?_
        · rcases List.mem_append.mp hh with hh | hh
          · exact hseen h hh
          · rw [List.mem_singleton.mp hh]
            exact hpending.1
        · rcases List.mem_append.mp hh with hh | hh
          · exact hR g h hpending.1 hh
          · exact hpending.2 h hh

/-- What is found is imported, directly or not. -/
theorem imports_of_mem_allImports (hh : h ∈ s.allImports g) : TransGen s.Imports g h := by
  refine mem_followImports (R := TransGen s.Imports g) (fun a b ha hab => ha.tail hab) _ (by simp)
    (fun a ha => ?_) h hh
  exact .single ha

theorem nodup_followImports (bound : Nat) {seen pending : List GrammarId} (hseen : seen.Nodup) :
    (s.followImports bound seen pending).Nodup := by
  induction bound generalizing seen pending with
  | zero => exact hseen
  | succ bound ih =>
    cases pending with
    | nil => exact hseen
    | cons g gs =>
      rw [followImports]
      split
      · exact ih hseen
      · rename_i hnew
        apply ih
        apply List.nodup_append.mpr
        refine ⟨hseen, by simp, ?_⟩
        rintro a ha b hb rfl
        rw [List.mem_singleton.mp hb] at ha
        apply hnew
        rw [List.contains_iff_mem]
        exact List.mem_map_of_mem ha

theorem nodup_allImports (s : GrammarSet) (g : GrammarId) : (s.allImports g).Nodup :=
  nodup_followImports _ List.nodup_nil

theorem Separate.lt_size_of_mem_allImports (hs : s.Separate) (hg : g < s.size)
    (hh : h ∈ s.allImports g) : h < s.size := by
  have hpath := imports_of_mem_allImports hh
  clear hh
  induction hpath with
  | single hab => exact hs.registered g hg _ hab
  | tail _ hbc ih => exact hs.registered _ ih _ hbc

/-- In an acyclic set, no grammar finds itself among its imports. -/
theorem Acyclic.not_mem_allImports (hs : s.Acyclic) : g ∉ s.allImports g := by
  intro hg
  exact hs g (imports_of_mem_allImports hg)

end GrammarTrees.GrammarSet
