import GrammarTrees.Pipeline
import GrammarTrees.Proofs.Integration.NamedActions
import GrammarTrees.Proofs.Template.Expansion

/-! Which file the errors in the templates of actions name. It is the file of the grammar that owns
the action. This is where the action was written, unless the action has taken in code of other
grammars. -/

namespace GrammarTrees

/-! ### Errors of one grammar -/

namespace Template

variable {γ : Type} {engine : Engine γ} {group : γ} {store : Store} {config : Config}
  {s : GrammarSet} {g : Grammar} {id : GrammarId} {x : NodeId} {d : Diagnostic}

/-- A problem with the template that an action or a predicate holds. -/
def IsTemplateError (d : Diagnostic) : Prop :=
  d.problem = .actionTemplateCompileError ∨ d.problem = .actionTemplateRenderError

instance (d : Diagnostic) : Decidable (IsTemplateError d) :=
  inferInstanceAs (Decidable (_ ∨ _))

theorem problem_internalDiagnostic (m : Message) :
    (internalDiagnostic m).problem = .internalError := by
  rw [internalDiagnostic]
  split <;> rfl

theorem not_isTemplateError_internalDiagnostic (m : Message) :
    ¬ IsTemplateError (internalDiagnostic m) := by
  rw [IsTemplateError, problem_internalDiagnostic]
  decide

/-- An error in the template of an action names the file that the action is in. -/
theorem file_of_actionDiagnostic {site : ActionSite} {m : Message}
    (h : IsTemplateError (actionDiagnostic site m)) :
    (actionDiagnostic site m).file = some site.file := by
  rw [actionDiagnostic] at h ⊢
  split at h
  · rfl
  · rfl
  · exact absurd h (not_isTemplateError_internalDiagnostic m)
  · exact absurd h (not_isTemplateError_internalDiagnostic m)

theorem not_isTemplateError_groupDiagnostic (file : String) (m : Message) :
    ¬ IsTemplateError (groupDiagnostic file m) := by
  rw [groupDiagnostic]
  split
  · exact not_or.mpr ⟨nofun, nofun⟩
  · exact not_or.mpr ⟨nofun, nofun⟩
  · exact not_isTemplateError_internalDiagnostic m
  · exact not_isTemplateError_internalDiagnostic m

theorem not_isTemplateError_notFound (f : Forest) (g : Grammar) (r : GroupReference) :
    ¬ IsTemplateError (notFound f g r) := by
  cases r <;> exact not_or.mpr ⟨nofun, nofun⟩

theorem not_isTemplateError_loadDiagnostic (f : Forest) (g : Grammar) (r : GroupReference)
    (fault : LoadFault) : ¬ IsTemplateError (loadDiagnostic f g r fault) := by
  cases fault with
  | notFound path => exact not_isTemplateError_notFound f g r
  | wrongExtension path suffix => exact not_or.mpr ⟨nofun, nofun⟩
  | read path cause => exact not_or.mpr ⟨nofun, nofun⟩
  | io path cause => exact not_or.mpr ⟨nofun, nofun⟩

/-- Loading the group says nothing about the templates in actions. -/
theorem not_isTemplateError_of_load
    (hd : d ∈ (loadGroupOf engine store config s g).2) : ¬ IsTemplateError d := by
  rw [loadGroupOf] at hd
  split at hd
  · simp at hd
  rename_i r _
  rw [loadReferred] at hd
  split at hd
  · rw [List.mem_singleton.mp hd]
    exact not_isTemplateError_loadDiagnostic _ _ _ _
  split at hd
  · rw [List.mem_singleton.mp hd]
    exact not_isTemplateError_notFound _ _ _
  rename_i path _
  dsimp only at hd
  split at hd
  · obtain ⟨m, -, rfl⟩ := List.mem_map.mp hd
    exact not_isTemplateError_groupDiagnostic path m
  · rcases List.mem_append.mp hd with hd | hd
    · obtain ⟨m, -, rfl⟩ := List.mem_map.mp hd
      exact not_isTemplateError_groupDiagnostic path m
    · rw [List.mem_singleton.mp hd]
      exact not_isTemplateError_loadDiagnostic _ _ _ _

theorem file_of_expandAction (hd : d ∈ (expandAction engine group s g x).2)
    (herror : IsTemplateError d) : d.file = some (codeFile s g x) := by
  by_cases hcode : ∃ body, CodeText (s.forest.kind x) body (s.forest.text x)
  · obtain ⟨body, hcode⟩ := hcode
    rw [expandAction_of_codeText engine group g hcode] at hd
    obtain ⟨m, -, rfl⟩ := List.mem_map.mp hd
    rw [file_of_actionDiagnostic herror, siteOf_eq]
  · rw [expandAction_of_not_codeText engine group g (not_exists.mp hcode)] at hd
    simp at hd

/-- Each error in the template of an action is said while a node of the tree is expanded. -/
theorem exists_of_isTemplateError (hf : s.forest.WellFormed)
    (hroot : (s.grammar id).root < s.forest.size)
    (hd : d ∈ (s.expand engine store config id).2) (herror : IsTemplateError d) :
    ∃ group x, s.forest.Within x (s.grammar id).root ∧
      d ∈ (expandAction engine group s (s.grammar id) x).2 := by
  have hloading : ∀ e ∈ (loadGroupOf engine store config s (s.grammar id)).2,
      ¬ IsTemplateError e := fun e he => not_isTemplateError_of_load he
  cases hload : loadGroupOf engine store config s (s.grammar id) with
  | mk found loading =>
    rw [hload] at hloading
    cases found with
    | none =>
      rw [expand_of_none hload] at hd
      exact absurd herror (hloading d hd)
    | some group =>
      obtain ⟨t, hrun, -⟩ := expandWith_expanded engine group (s.grammar id) hf
      rw [expand_of_some hload, hrun] at hd
      rcases List.mem_append.mp hd with hd | hd
      · exact absurd herror (hloading d hd)
      · obtain ⟨x, hx, hdx⟩ := List.mem_flatMap.mp hd
        exact ⟨group, x, (Forest.mem_preorder_tree hf hroot).mp hx, hdx⟩

end Template

/-! ### Where code comes from -/

namespace Integration

open Forest

variable {f g : Forest} {T : NodeId → Prop} {scope : String} {root x : Nat}
  {done rest : List NodeId}

/-- The text of a node after integration: `f` before, `g` after it. -/
inductive CodeOrigin (f g : Forest) (scope : String) (roots : List NodeId) (x : NodeId) : Prop
  /-- It is what was written there. -/
  | written (htext : g.text x = f.text x)
  /-- It is the code of the first definition of an action, with that of other grammars. -/
  | merged {key : String × String} {a : NodeId}
      (hfirst : (definers f scope key roots).head? = some a)
      (hcode : (f.children a).getLast? = some x)
      (hforeign : foreignCode f a (definers f scope key roots) ≠ [])
      (htext : g.text x = "\x7b" ++
        codeLines (f.text x :: foreignCode f a (definers f scope key roots)) ++ "\x7d")

theorem ActionsTaken.codeOrigin (hf : f.WellFormed) (hT : ∀ t ∈ root :: done, T t)
    (h : ActionsTaken f g T scope root done rest) (hx : x < f.size) :
    CodeOrigin f g scope (root :: done) x := by
  by_cases hcode : ∃ key a, (definers f scope key (root :: done)).head? = some a ∧
      (f.children a).getLast? = some x
  · obtain ⟨key, a, hfirst, hlast⟩ := hcode
    obtain ⟨t, ht, hp, hk, -⟩ := mem_definers hf (List.mem_of_head? hfirst)
    have hjoined := h.code key a hfirst
    rw [actionCode, h.below a a ⟨hk, t, hT t ht, hp⟩ (.refl f a), actionCode, hlast,
      Option.map_some, Option.map_some, Option.getD_some, Option.getD_some] at hjoined
    by_cases hforeign : foreignCode f a (definers f scope key (root :: done)) = []
    · rw [hforeign] at hjoined
      exact .written hjoined
    · exact .merged hfirst hlast hforeign (hjoined.trans (joinAll_eq hforeign))
  · exact .written (h.text x hx fun key a hfirst hlast => hcode ⟨key, a, hfirst, hlast⟩)

end Integration

namespace GrammarSet

open Integration Template Forest

variable {γ : Type} {s : GrammarSet} {grammar : GrammarId}

/-- The error `d` is said about the node `x` of the integrated tree, and names the file of the
grammar that the node was in before: `g` is the forest after integration. -/
structure Attributed (s : GrammarSet) (grammar : GrammarId) (g : Forest) (d : Diagnostic)
    (x : NodeId) : Prop where
  imported : ∃ i ∈ grammar :: s.allImports grammar, s.forest.Within x (s.grammar i).root ∧
    d.file = some (s.grammar i).file
  origin : CodeOrigin s.forest g (s.grammar grammar).type.defaultScope
    ((s.grammar grammar).root :: s.importRoots grammar) x

/-- Processing a grammar names for each error in the template of an action the file of the grammar
that the action was in. The action is as it was written, or has taken in code of other grammars. -/
theorem process_attributed (engine : Engine γ) (store : Store) (config : Config) (hs : s.Separate)
    (ho : s.Owned) (ha : s.Acyclic) (hg : grammar < s.size) :
    ∃ g integrated t report,
      s.integrateImports grammar = .ok (s.withForest g, integrated) ∧
      s.process engine store config [] grammar = .ok (t, report) ∧
      ∀ d ∈ report, IsTemplateError d → ∃ group x, g.Within x (s.grammar grammar).root ∧
        d ∈ (expandAction engine group (s.withForest g) (s.grammar grammar) x).2 ∧
        (x < s.forest.size → Attributed s grammar g d x) := by
  obtain ⟨m, hok, habsorbed, hrun⟩ := exists_actionsRun hs ho ha hg
  refine ⟨m.rules.forest, m.report,
    ((s.withForest m.rules.forest).expand engine store config grammar).1,
    m.report ++ ((s.withForest m.rules.forest).expand engine store config grammar).2, hok, ?_,
    fun d hd herror => ?_⟩
  · rw [process, hok]
    simp [bind, Except.bind, Pass.runAll, pure, Except.pure]
  have hintegrated : d ∉ m.report := by
    intro hmem
    rcases hrun.problems d hmem with hproblem | hproblem <;>
      rw [IsTemplateError, hproblem] at herror
      <;> exact absurd herror (by decide)
  have hroot : (s.grammar grammar).root < m.rules.forest.size :=
    Nat.lt_of_lt_of_le (hs.root_lt grammar hg) habsorbed.size_le
  obtain ⟨group, x, hx, hdx⟩ := exists_of_isTemplateError (s := s.withForest m.rules.forest)
    habsorbed.wellFormed hroot ((List.mem_append.mp hd).resolve_left hintegrated) herror
  refine ⟨group, x, hx, hdx, fun hold => ⟨?_, hrun.taken.codeOrigin hs.wellFormed
    (fun t ht => ht) hold⟩⟩
  -- The node was in one of the trees, as no node comes from anywhere else.
  obtain ⟨t, ht, hxt⟩ : ∃ t, s.Involved grammar t ∧ s.forest.Within x t := by
    by_contra hnone
    refine habsorbed.not_within_of_others hs.wellFormed hold (fun t ht hxt => ?_)
      (t := (s.grammar grammar).root) List.mem_cons_self hx
    exact hnone ⟨t, ht, hxt⟩
  obtain ⟨i, hi, hmem, rfl⟩ := hs.of_involved hg ht
  refine ⟨i, List.mem_cons.mpr hmem, hxt, ?_⟩
  have howner : (s.withForest m.rules.forest).forest.owner x = some i :=
    (habsorbed.owner x hold).trans (ho i hi x hxt)
  rw [file_of_expandAction hdx herror, codeFile, howner]
  exact congrArg some (if_pos hi)

def placedActionTree (name code : String) (position : Position) : Tree Label :=
  .node (.ofKind .namedAction)
    [.leaf (.make .id name), .leaf { Label.make .action code with position }]

/-- A grammar with the named action `name` that imports members whose template cannot be rendered.
-/
def faultyMembers (name : String) : GrammarSet :=
  importing
    (ownedTree 0 (grammarTree "R" [placedActionTree name "\x7ba\x7d" ⟨1, 10⟩,
      .node (.ofKind .rules) [bareRule "A"]]))
    (ownedTree 1 (grammarTree "S" [placedActionTree "members" "\x7b<nope()>\x7d" ⟨7, 10⟩]))

def groupStore : Store := Store.empty.add "a.stg" (.file (some ""))

def groupConfig : Config := ⟨none, none, some "a.stg"⟩

/-- The error in members that are moved to the grammar names the file that they were written in. -/
theorem process_attributed_header :
    ∃ g t report, (faultyMembers "header").process (Engine.ofStore groupStore defaultLimit)
        groupStore groupConfig [] 0 = .ok (t, report) ∧
      report.map Diagnostic.text =
        ["error(212): S.g4:7:10: error rendering action template: 7:12: no such template: /nope"] ∧
      ∀ d ∈ report, IsTemplateError d → ∃ x, (faultyMembers "header").Attributed 0 g d x := by
  have hs : (faultyMembers "header").Separate := importing_separate _ _
  obtain ⟨g, integrated, t, report, hintegrate, hok, h⟩ := process_attributed
    (Engine.ofStore groupStore defaultLimit) groupStore groupConfig hs
    (hs.owned (by decide +kernel)) (importing_acyclic _ _)
    (show 0 < (faultyMembers "header").size by decide)
  have hsize : ((faultyMembers "header").integrateImports 0).map (fun r => r.1.forest.size) =
      .ok (faultyMembers "header").forest.size := by decide +kernel
  have htext : ((faultyMembers "header").process (Engine.ofStore groupStore defaultLimit)
      groupStore groupConfig [] 0).map (fun r => r.2.map Diagnostic.text) =
        .ok ["error(212): S.g4:7:10: error rendering action template: 7:12: " ++
          "no such template: /nope"] := by decide +kernel
  rw [hintegrate] at hsize
  rw [hok] at htext
  refine ⟨g, t, report, hok, Except.ok.inj htext, fun d hd herror => ?_⟩
  obtain ⟨group, x, hx, -, hattributed⟩ := h d hd herror
  refine ⟨x, hattributed ?_⟩
  have hsame : g.size = (faultyMembers "header").forest.size := Except.ok.inj hsize
  exact hsame ▸ hx.lt_size (hsame.symm ▸ hs.root_lt 0 (by decide))

/-- The error in members that are merged into those of the grammar names the file of the grammar,
where there is no error. -/
theorem process_misattributes_members :
    let s := faultyMembers "members"
    let engine := Engine.ofStore groupStore defaultLimit
    s.Separate ∧ s.Owned ∧ s.Acyclic ∧ 0 < s.size ∧
      (s.expand engine groupStore groupConfig 0).2.map Diagnostic.text = [] ∧
      (s.expand engine groupStore groupConfig 1).2.map Diagnostic.text =
        ["error(212): S.g4:7:10: error rendering action template: 7:12: no such template: /nope"] ∧
      (s.process engine groupStore groupConfig [] 0).map
          (fun r => r.2.map Diagnostic.text) =
        .ok ["error(212): R.g4:1:10: error rendering action template: 2:1: " ++
          "no such template: /nope"] := by
  have hs : (faultyMembers "members").Separate := importing_separate _ _
  exact ⟨hs, hs.owned (by decide +kernel), importing_acyclic _ _, by decide, by decide +kernel,
    by decide +kernel, by decide +kernel⟩

end GrammarSet

end GrammarTrees
