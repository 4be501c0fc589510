import GrammarTrees.Proofs.Forest.Rewording
import GrammarTrees.Proofs.Forest.Walks
import GrammarTrees.Proofs.Template.Code

/-! Expanding the actions of a grammar. Each node of the tree is visited once, in preorder, and gets
the text and the report that it would get alone; all links and everything else stays as it is. -/

namespace GrammarTrees

/-! ### One node -/

namespace Template

open Forest

variable {γ : Type} {engine : Engine γ} {group : γ} {site : ActionSite} {kind : Kind}
  {text new : String} {report : Report} {s t : GrammarSet} {g : Grammar} {id x : NodeId}
  {ids : List NodeId}

/-- The text that a node with the given kind and text has after it was expanded, and what is said
about it: code is rendered on its own, between two spaces, and keeps its text if it cannot be
rendered. -/
inductive Expansion (engine : Engine γ) (group : γ) (site : ActionSite) (kind : Kind)
    (text : String) : (new : String) → Report → Prop
  | rendered {body new : String} {messages : List Message} (hcode : CodeText kind body text)
      (hrender : engine.render group site.file (" " ++ body ++ " ") = (some new, messages)) :
      Expansion engine group site kind text new (messages.map (actionDiagnostic site))
  | failed {body : String} {messages : List Message} (hcode : CodeText kind body text)
      (hrender : engine.render group site.file (" " ++ body ++ " ") = (none, messages)) :
      Expansion engine group site kind text text (messages.map (actionDiagnostic site))
  | other (hcode : ∀ body, ¬ CodeText kind body text) :
      Expansion engine group site kind text text []

/-- The file of the grammar that owns a node. A node without an owner counts as one of `g`. -/
def codeFile (s : GrammarSet) (g : Grammar) (id : NodeId) : String :=
  match s.forest.owner id with
  | none => g.file
  | some owner => if owner < s.size then (s.grammar owner).file else g.file

theorem siteOf_eq (s : GrammarSet) (g : Grammar) (id : NodeId) :
    siteOf s g id = ⟨codeFile s g id, s.forest.position id, s.forest.range id⟩ := by
  unfold codeFile
  cases howner : s.forest.owner id with
  | none =>
    simp only [siteOf, howner]
    rfl
  | some owner =>
    simp only [siteOf, howner, Option.bind_some]
    by_cases h : owner < s.size
    · rw [if_pos h, GrammarSet.grammar, Array.getElem?_eq_getElem h]
      rfl
    · rw [if_neg h, Array.getElem?_eq_none (Nat.le_of_not_lt h)]
      rfl

theorem codeFile_congr (hgrammars : t.grammars = s.grammars) (h : s.forest.Reworded t.forest) :
    codeFile t g id = codeFile s g id := by
  unfold codeFile GrammarSet.grammar GrammarSet.size
  rw [h.owner, hgrammars]

/-- An expansion has one result. -/
theorem Expansion.unique {new' : String} {report' : Report}
    (h : Expansion engine group site kind text new report)
    (h' : Expansion engine group site kind text new' report') : new = new' := by
  cases h with
  | rendered hcode hrender =>
    cases h' with
    | rendered hcode' hrender' =>
      rw [hcode.unique hcode', hrender'] at hrender
      exact (Option.some.inj (Prod.mk.inj hrender).1).symm
    | failed hcode' hrender' =>
      rw [hcode.unique hcode', hrender'] at hrender
      exact nomatch (Prod.mk.inj hrender).1
    | other hcode' => exact (hcode' _ hcode).elim
  | failed hcode hrender =>
    cases h' with
    | rendered hcode' hrender' =>
      rw [hcode.unique hcode', hrender'] at hrender
      exact nomatch (Prod.mk.inj hrender).1
    | failed | other => rfl
  | other hcode =>
    cases h' with
    | rendered hcode' => exact (hcode _ hcode').elim
    | failed | other => rfl

theorem expandAction_of_codeText {body : String} (engine : Engine γ) (group : γ) (g : Grammar)
    (hcode : CodeText (s.forest.kind id) body (s.forest.text id)) :
    expandAction engine group s g id =
      ((engine.render group (siteOf s g id).file (" " ++ body ++ " ")).1,
        (engine.render group (siteOf s g id).file (" " ++ body ++ " ")).2.map
          (actionDiagnostic (siteOf s g id))) := by
  have hk := hcode.holdsCode
  have htemplate := (actionTemplate?_eq_some_iff hk).mpr ⟨body, hcode, rfl⟩
  simp only [expandAction, hk, htemplate, if_true]

theorem expandAction_of_not_codeText (engine : Engine γ) (group : γ) (g : Grammar)
    (hcode : ∀ body, ¬ CodeText (s.forest.kind id) body (s.forest.text id)) :
    expandAction engine group s g id = (none, []) := by
  simp only [expandAction]
  split
  · rename_i hk
    rw [(actionTemplate?_eq_none_iff hk).mpr hcode]
  · rfl

theorem expansion_expandAction (engine : Engine γ) (group : γ) (s : GrammarSet) (g : Grammar)
    (id : NodeId) :
    Expansion engine group (siteOf s g id) (s.forest.kind id) (s.forest.text id)
      ((expandAction engine group s g id).1.getD (s.forest.text id))
      (expandAction engine group s g id).2 := by
  by_cases hcode : ∃ body, CodeText (s.forest.kind id) body (s.forest.text id)
  · obtain ⟨body, hcode⟩ := hcode
    rw [expandAction_of_codeText engine group g hcode]
    cases hrender : engine.render group (siteOf s g id).file (" " ++ body ++ " ") with
    | mk rendered messages =>
      cases rendered with
      | none => exact .failed hcode hrender
      | some new => exact .rendered hcode hrender
  · rw [not_exists] at hcode
    rw [expandAction_of_not_codeText engine group g hcode]
    exact .other hcode

theorem lt_size_of_codeText {f : Forest} {body : String}
    (hcode : CodeText (f.kind id) body (f.text id)) : id < f.size := by
  by_contra hlt
  have hk := hcode.holdsCode
  rw [kind_of_size_le (Nat.le_of_not_lt hlt)] at hk
  exact Bool.noConfusion hk

/-- The text that a node is to have is set, as only nodes of the forest hold code. -/
theorem Expansion.text_setText {f : Forest}
    (h : Expansion engine group site (f.kind id) (f.text id) new report) :
    (f.setText id new).text id = new := by
  cases h with
  | rendered hcode _ => exact text_setText_self (lt_size_of_codeText hcode) new
  | failed _ _ => rw [setText_text]
  | other _ => rw [setText_text]

/-! ### The nodes one after the other -/

/-- `t` is `s` with the text of each of the given nodes as the node is expanded in `s`. -/
structure ExpandedAt (engine : Engine γ) (group : γ) (g : Grammar) (s t : GrammarSet)
    (ids : List NodeId) : Prop where
  grammars : t.grammars = s.grammars
  reworded : s.forest.Reworded t.forest
  outside : ∀ x, x ∉ ids → t.forest.text x = s.forest.text x
  inside : ∀ x ∈ ids, t.forest.text x =
    (expandAction engine group s g x).1.getD (s.forest.text x)

theorem ExpandedAt.refl (engine : Engine γ) (group : γ) (g : Grammar) (s : GrammarSet) :
    ExpandedAt engine group g s s [] :=
  ⟨rfl, .refl _, fun _ _ => rfl, fun _ hx => (List.not_mem_nil hx).elim⟩

/-- Expanding a node sets its text, and nothing else. -/
theorem expandNode_expandedAt (engine : Engine γ) (group : γ) (g : Grammar) (s : GrammarSet)
    (report : Report) (id : NodeId) :
    ∃ t, expandNode engine group g (s, report) id =
        (t, report ++ (expandAction engine group s g id).2) ∧
      ExpandedAt engine group g s t [id] := by
  obtain ⟨new, hnew⟩ :
      ∃ new, new = (expandAction engine group s g id).1.getD (s.forest.text id) := ⟨_, rfl⟩
  have hset : (s.forest.setText id new).text id = new := by
    rw [hnew]
    exact (expansion_expandAction engine group s g id).text_setText
  refine ⟨s.withForest (s.forest.setText id new), ?_, rfl, .setText .., fun x hx => ?_,
    fun x hx => ?_⟩
  · rw [hnew]
    simp only [expandNode]
    cases (expandAction engine group s g id).1 with
    | none =>
      rw [Option.getD_none, setText_text]
      rfl
    | some new => rfl
  · exact text_setText_of_ne (by simpa using hx) new
  · obtain rfl := List.mem_singleton.mp hx
    exact hset.trans hnew

/-- How a node is expanded depends on its own label only. -/
theorem expandAction_congr (engine : Engine γ) (group : γ) (g : Grammar)
    (hgrammars : t.grammars = s.grammars) (h : s.forest.Reworded t.forest)
    (htext : t.forest.text x = s.forest.text x) :
    expandAction engine group t g x = expandAction engine group s g x := by
  simp only [expandAction, siteOf, hgrammars, h.kind, h.owner, h.position, h.range, htext]

theorem ExpandedAt.cons {u : GrammarSet} (hid : id ∉ ids)
    (hu : ExpandedAt engine group g s u [id]) (h : ExpandedAt engine group g u t ids) :
    ExpandedAt engine group g s t (id :: ids) := by
  refine ⟨h.grammars.trans hu.grammars, hu.reworded.trans h.reworded, fun x hx => ?_,
    fun x hx => ?_⟩
  · rw [List.mem_cons, not_or] at hx
    rw [h.outside x hx.2, hu.outside x (by simpa using hx.1)]
  · by_cases hxid : x = id
    · rw [hxid, h.outside id hid, hu.inside id (List.mem_singleton_self id)]
    · have hkept := hu.outside x (by simpa using hxid)
      rw [h.inside x ((List.mem_cons.mp hx).resolve_left hxid), hkept,
        expandAction_congr engine group g hu.grammars hu.reworded hkept]

/-- Whether the nodes before a node could be expanded or not does not concern it. -/
theorem foldl_expandNode (engine : Engine γ) (group : γ) (g : Grammar) (s : GrammarSet)
    (report : Report) (hids : ids.Nodup) :
    ∃ t, ids.foldl (expandNode engine group g) (s, report) =
        (t, report ++ ids.flatMap fun x => (expandAction engine group s g x).2) ∧
      ExpandedAt engine group g s t ids := by
  induction ids generalizing s report with
  | nil => exact ⟨s, by simp, .refl engine group g s⟩
  | cons id ids ih =>
    obtain ⟨hid, hids⟩ := List.nodup_cons.mp hids
    obtain ⟨u, hstep, hu⟩ := expandNode_expandedAt engine group g s report id
    obtain ⟨t, hrun, ht⟩ := ih u (report ++ (expandAction engine group s g id).2) hids
    have hown : (ids.flatMap fun x => (expandAction engine group u g x).2) =
        ids.flatMap fun x => (expandAction engine group s g x).2 := by
      refine List.flatMap_congr fun x hx => ?_
      have hne : x ∉ [id] := by
        rw [List.mem_singleton]
        rintro rfl
        exact hid hx
      rw [expandAction_congr engine group g hu.grammars hu.reworded (hu.outside x hne)]
    refine ⟨t, ?_, hu.cons hid ht⟩
    rw [List.foldl_cons, hstep, hrun, hown, List.flatMap_cons, List.append_assoc]

/-! ### The tree of a grammar -/

/-- The expansion of a node as a visit of a rewrite, which collects the report. -/
def expandVisitor (engine : Engine γ) (group : γ) (g : Grammar) (s : GrammarSet) :
    Visitor Report := fun report f id =>
  let done := expandNode engine group g (s.withForest f, report) id
  (done.2, done.1.forest, none)

/-- `t` is `s` with the tree of `g` expanded, and `report` tells what is said about each node. -/
structure Expanded (engine : Engine γ) (group : γ) (g : Grammar) (s t : GrammarSet)
    (report : NodeId → Report) : Prop where
  grammars : t.grammars = s.grammars
  reworded : s.forest.Reworded t.forest
  outside : ∀ x, x ∉ (s.forest.tree g.root).preorder → t.forest.text x = s.forest.text x
  once : (s.forest.tree g.root).preorder.Nodup
  nodes : ∀ x ∈ (s.forest.tree g.root).preorder,
    Expansion engine group ⟨codeFile s g x, s.forest.position x, s.forest.range x⟩
      (s.forest.kind x) (s.forest.text x) (t.forest.text x) (report x)
  walk : g.root < s.forest.size → ∀ bound, 2 * (s.forest.tree g.root).preorder.length ≤ bound →
    rewriteNode .pre (expandVisitor engine group g s) bound [] s.forest g.root =
      .ok ((s.forest.tree g.root).preorder.flatMap report, t.forest, g.root)

theorem stationary_expandVisitor (engine : Engine γ) (group : γ) (g : Grammar) (s : GrammarSet) :
    Stationary (expandVisitor engine group g s) := by
  refine ⟨fun _ _ _ => rfl, fun report f id x => ?_⟩
  obtain ⟨t, hstep, ht⟩ := expandNode_expandedAt engine group g (s.withForest f) report id
  simp only [expandVisitor, hstep]
  exact ht.reworded.children x

theorem visitedAll_expandVisitor (engine : Engine γ) (group : γ) (g : Grammar) (s : GrammarSet)
    (f : Forest) (report : Report) (ids : List NodeId) :
    visitedAll (expandVisitor engine group g s) (report, f) ids =
      ((ids.foldl (expandNode engine group g) (s.withForest f, report)).2,
        (ids.foldl (expandNode engine group g) (s.withForest f, report)).1.forest) := by
  unfold visitedAll
  induction ids generalizing f report with
  | nil => rfl
  | cons id ids ih =>
    obtain ⟨t, hstep, ht⟩ := expandNode_expandedAt engine group g (s.withForest f) report id
    have hset : s.withForest t.forest = t := by
      have hgrammars : s.grammars = t.grammars := ht.grammars.symm
      unfold GrammarSet.withForest
      rw [hgrammars]
    rw [List.foldl_cons, List.foldl_cons, visited]
    simp only [expandVisitor, hstep]
    rw [← hset]
    exact ih t.forest _

/-- Expanding with a group expands the whole tree. -/
theorem expandWith_expanded (engine : Engine γ) (group : γ) (g : Grammar)
    (hf : s.forest.WellFormed) :
    ∃ t, expandWith engine group s g =
        (t, (s.forest.tree g.root).preorder.flatMap fun x => (expandAction engine group s g x).2) ∧
      Expanded engine group g s t fun x => (expandAction engine group s g x).2 := by
  by_cases hroot : g.root < s.forest.size
  · have hnodup := nodup_preorder_tree hf hroot
    obtain ⟨t, hrun, ht⟩ := foldl_expandNode engine group g s [] hnodup
    rw [List.nil_append] at hrun
    refine ⟨t, ?_, ht.grammars, ht.reworded, ht.outside, hnodup, fun x hx => ?_,
      fun _ bound hbound => ?_⟩
    · rw [expandWith, preorder_eq hf hroot, hrun]
    · rw [← siteOf_eq, ht.inside x hx]
      exact expansion_expandAction engine group s g x
    · have hwalk := (stationary_expandVisitor engine group g s).walksInOrder hf .pre hroot
      rw [WalksInOrder, inOrder, preorder_eq hf hroot] at hwalk
      have hvisited := visitedAll_expandVisitor engine group g s s.forest []
        (s.forest.tree g.root).preorder
      have hself : s.withForest s.forest = s := rfl
      rw [hself, hrun] at hvisited
      rw [hwalk bound ([], s.forest) (fun _ => rfl) hbound, hvisited]
  · -- A root that is no node has no code, and nothing below it.
    have hnode := Nat.le_of_not_lt hroot
    have hcode : ∀ body, ¬ CodeText (s.forest.kind g.root) body (s.forest.text g.root) :=
      fun body hbody => hroot (lt_size_of_codeText hbody)
    have hnone := expandAction_of_not_codeText engine group g hcode
    have htree := preorder_tree_of_size_le hnode
    have hrun : expandWith engine group s g = (s, []) := by
      rw [expandWith]
      rcases preorder_of_size_le hnode with hids | hids
      · rw [hids]
        rfl
      · rw [hids, List.foldl_cons, expandNode]
        simp only [hnone]
        rfl
    refine ⟨s, ?_, rfl, .refl _, fun _ _ => rfl, ?_, fun x hx => ?_, fun h => (hroot h).elim⟩
    · rw [hrun, htree, List.flatMap_singleton, hnone]
    · rw [htree]
      exact List.nodup_singleton _
    · rw [htree] at hx
      obtain rfl := List.mem_singleton.mp hx
      rw [hnone]
      exact .other hcode

/-! ### The result -/

/-- The group that a grammar is expanded with, if there is one, and what is said while it is
loaded. -/
def loadGroupOf (engine : Engine γ) (store : Store) (config : Config) (s : GrammarSet)
    (g : Grammar) : Option γ × Report :=
  match reference? config s.forest g with
  | none => (none, [])
  | some r => loadReferred engine store config s.forest g r

theorem expand_of_none {engine : Engine γ} {store : Store} {config : Config} {id : GrammarId}
    (h : loadGroupOf engine store config s (s.grammar id) = (none, report)) :
    s.expand engine store config id = (s, report) := by
  unfold loadGroupOf at h
  unfold GrammarSet.expand
  split at h
  · rename_i href
    simp only [href]
    rw [(Prod.mk.inj h).2]
  · rename_i r href
    simp only [href, h]

theorem expand_of_some {engine : Engine γ} {store : Store} {config : Config} {id : GrammarId}
    (h : loadGroupOf engine store config s (s.grammar id) = (some group, report)) :
    s.expand engine store config id =
      ((expandWith engine group s (s.grammar id)).1,
        report ++ (expandWith engine group s (s.grammar id)).2) := by
  unfold loadGroupOf at h
  unfold GrammarSet.expand
  split at h
  · simp at h
  · rename_i r href
    simp only [href, h]

end Template

open Template in
/-- Expanding a grammar expands every action and predicate of its tree on its own. Nothing is
changed if there is no group. -/
theorem GrammarSet.expand_expanded {γ : Type} {s : GrammarSet} (hf : s.forest.WellFormed)
    (engine : Engine γ) (store : Store) (config : Config) (id : GrammarId) :
    match loadGroupOf engine store config s (s.grammar id) with
    | (none, loading) => s.expand engine store config id = (s, loading)
    | (some group, loading) =>
      ∃ t report, s.expand engine store config id =
          (t, loading ++ (s.forest.tree (s.grammar id).root).preorder.flatMap report) ∧
        Expanded engine group (s.grammar id) s t report := by
  split
  · rename_i loading hload
    exact expand_of_none hload
  · rename_i group loading hload
    obtain ⟨t, hrun, ht⟩ := expandWith_expanded engine group (s.grammar id) hf
    refine ⟨t, _, ?_, ht⟩
    rw [expand_of_some hload, hrun]

namespace Template

/-- An alternative with an action that cannot be rendered in front of a predicate and a second
action. -/
def mixedTree : Tree Label :=
  .node (.make .grammar "COMBINED_GRAMMAR")
    [.leaf (.make .id "M"),
     .node (.ofKind .alt)
       [.leaf (.make .action "\x7b<\x7d"), .leaf (.make .sempred "\x7bp\x7d?"),
        .leaf (.make .action "\x7bq\x7d")]]

def mixed : GrammarSet :=
  ⟨(Forest.empty.plant mixedTree).1, #[⟨"M", "M.g4", .combined, 0, .empty, [], 0⟩]⟩

/-- An engine that rejects the template of a lone `<` and puts the file in front of all others. -/
def namingEngine : Engine Unit where
  suffix := ""
  load := fun _ => (.ok (), [])
  render := fun _ file template =>
    if template = " < " then (none, [⟨.compile, .plain, none, none, "unfinished", none⟩])
    else (some (file ++ template), [])

def namingStore : Store := Store.empty.add "names" (.file (some ""))

def namingConfig : Config := ⟨none, none, some "names"⟩

end Template

namespace GrammarSet

open Template

/-- The action that cannot be rendered keeps its text, and those after it are expanded. -/
theorem expand_expanded_mixed :
    ∃ t report, mixed.expand namingEngine namingStore namingConfig 0 =
        (t, (mixed.forest.tree 0).preorder.flatMap report) ∧
      Expanded namingEngine () (mixed.grammar 0) mixed t report ∧
      t.forest.text 3 = "\x7b<\x7d" ∧ t.forest.text 4 = "M.g4 p " ∧
      t.forest.text 5 = "M.g4 q " := by
  have hplanted := Forest.planted_plant Forest.WellFormed.empty mixedTree
  have hload : loadGroupOf namingEngine namingStore namingConfig mixed (mixed.grammar 0) =
      (some (), []) := by rfl
  have h := expand_expanded (s := mixed) hplanted.wellFormed namingEngine namingStore namingConfig 0
  rw [hload] at h
  obtain ⟨t, report, hrun, ht⟩ := h
  have hforest : t.forest = (mixed.expand namingEngine namingStore namingConfig 0).1.forest := by
    rw [hrun]
  refine ⟨t, report, hrun, ht, ?_⟩
  rw [hforest]
  decide

end GrammarSet

end GrammarTrees
