import GrammarTrees.Proofs.Integration.NamedActions

/-! Which named actions integration merges. It reads an action without a scope with the scope of the
grammar that is integrated, also if another grammar owns the action. Only actions that it reads with
the same scope and name are merged. If it misreads the scope of just one of them, the merged code is
that of two different actions. -/

namespace GrammarTrees

namespace Integration

open Forest

variable {f g k : Forest} {T : NodeId → Prop} {scope : String} {root t a b : Nat}
  {actions : ActionMerge} {key : String × String} {keyOf : NodeId → Option (String × String)}

theorem joinAll_append (first : String) (others more : List String) :
    joinAll first (others ++ more) = joinAll (joinAll first others) more :=
  List.foldl_append ..

/-! ### Scopes -/

/-- Both nodes define the same action, if `keyOf` tells the scope and the name of each. -/
def Together (keyOf : NodeId → Option (String × String)) (a b : NodeId) : Prop :=
  ∃ key, keyOf a = some key ∧ keyOf b = some key

/-- Only an action of two children is read with the scope that is given. -/
theorem actionKey?_of_childCount_ne (h : f.childCount a ≠ 2) (scope scope' : String) :
    actionKey? f scope a = actionKey? f scope' a := by
  rw [childCount] at h
  rw [actionKey?, actionKey?, NamedAction.of?, NamedAction.of?]
  rcases hc : f.children a with _ | ⟨b, _ | ⟨c, _ | ⟨d, _ | ⟨e, l⟩⟩⟩⟩ <;> simp [hc] at h ⊢

theorem exists_actionKey?_of_childCount_eq (h : f.childCount a = 2) :
    ∃ name, ∀ scope, actionKey? f scope a = some (scope, name) := by
  obtain ⟨name, code, hc⟩ := List.length_eq_two.mp h
  exact ⟨f.text name, fun scope => by rw [actionKey?, NamedAction.of?, hc]; rfl⟩

/-! ### Named actions of the trees -/

theorem isAction_iff_mem (hf : f.WellFormed) :
    f.IsAction T a ↔ ∃ t, T t ∧ a ∈ f.childrenOfKind t .namedAction := by
  constructor
  · rintro ⟨hk, t, ht, hp⟩
    exact ⟨t, ht, (mem_childrenOfKind hf).mpr ⟨hp, hk⟩⟩
  · rintro ⟨t, ht, hmem⟩
    obtain ⟨hp, hk⟩ := (mem_childrenOfKind hf).mp hmem
    exact ⟨hk, t, ht, hp⟩

theorem isAction_iff_of_steady (hT : f.Rooted T) (hg : f.Steady T g) :
    g.IsAction T a ↔ f.IsAction T a := by
  refine ⟨fun ha => ?_, hg.isAction⟩
  obtain ⟨t, ht, hmem⟩ := (isAction_iff_mem hg.wellFormed).mp ha
  exact (isAction_iff_mem hT.wellFormed).mpr ⟨t, ht, hg.actions t ht ▸ hmem⟩

/-- After a pass, a definition that was kept is the first one in the tree of the grammar. -/
theorem placed_own_head? (hT : g.Rooted T) (hr : T root) (ht : T t)
    (hc : Combined g scope
      (g.childrenOfKind root .namedAction ++ g.childrenOfKind t .namedAction) actions)
    (hp : Placed actions.forest k root
      (actions.named.values.filter fun id => g.parent? id ≠ some root))
    (hget : actions.named.get? key = some a) :
    (definitions k scope key (k.childrenOfKind root .namedAction)).head? = some a := by
  by_cases hown : definitions g scope key (g.childrenOfKind root .namedAction) = []
  · rw [placed_own_of_first hT hr ht hc hp (by simp [hown]), hget]
    rfl
  · obtain ⟨d, ds, hd⟩ := List.exists_cons_of_ne_nil hown
    rw [hc.named, definitions_append, hd] at hget
    rw [placed_own_of_ne_nil hT hr ht hc hp hown, hd]
    exact hget

/-! ### Merged code -/

/-- `g` has the texts of `f`, but the code of a named action may have that of others behind it. The
others belong to other grammars and define the same action. -/
structure CodeMerged (f g : Forest) (T : NodeId → Prop)
    (keyOf : NodeId → Option (String × String)) : Prop where
  code : ∀ a, f.IsAction T a → ∃ bs : List NodeId, actionCode g a = joinAll (actionCode f a)
      (bs.map (actionCode f)) ∧
    ∀ b ∈ bs, f.IsAction T b ∧ f.owner b ≠ f.owner a ∧ Together keyOf a b
  text : ∀ x < f.size, (∀ a, f.IsAction T a → (f.children a).getLast? ≠ some x) →
    g.text x = f.text x

theorem CodeMerged.imp {keyOf' : NodeId → Option (String × String)} (h : CodeMerged f g T keyOf)
    (himp : ∀ a b, f.IsAction T a → f.IsAction T b → f.owner b ≠ f.owner a →
      Together keyOf a b → Together keyOf' a b) : CodeMerged f g T keyOf' := by
  refine ⟨fun a ha => ?_, h.text⟩
  obtain ⟨bs, hcode, hbs⟩ := h.code a ha
  refine ⟨bs, hcode, fun b hb => ?_⟩
  obtain ⟨hbAction, howner, htogether⟩ := hbs b hb
  exact ⟨hbAction, howner, himp a b ha hbAction howner htogether⟩

/-- The trees `T` in `f`, and in `g` with some of their named actions merged into that of `root`,
where the code of first definitions has changed. -/
structure ActionsGathered (f g : Forest) (T : NodeId → Prop) (scope : String) (root : NodeId) :
    Prop where
  rooted : g.Rooted T
  size_le : f.size ≤ g.size
  isAction : ∀ a, g.IsAction T a ↔ f.IsAction T a
  children : ∀ a, f.IsAction T a → g.children a = f.children a
  key : ∀ a, f.IsAction T a → actionKey? g scope a = actionKey? f scope a
  owner : ∀ a, f.IsAction T a → g.owner a = f.owner a
  changed : ∀ a, f.IsAction T a → actionCode g a ≠ actionCode f a →
    ∃ key, (definitions g scope key (g.childrenOfKind root .namedAction)).head? = some a
  merged : CodeMerged f g T (actionKey? f scope)

namespace ActionsGathered

theorem start (hT : f.Rooted T) (scope : String) (root : NodeId) :
    ActionsGathered f f T scope root :=
  ⟨hT, Nat.le_refl _, fun _ => .rfl, fun _ _ => rfl, fun _ _ => rfl, fun _ _ => rfl,
    fun _ _ hne => absurd rfl hne, fun _ _ => ⟨[], rfl, by simp⟩, fun _ _ _ => rfl⟩

variable (h : ActionsGathered f g T scope root)
include h

theorem steady (hr : T root) (hk : g.Steady T k) : ActionsGathered f k T scope root := by
  have hcode : ∀ a, f.IsAction T a → actionCode k a = actionCode g a := fun a ha =>
    actionCode_of_steady hk h.rooted ((h.isAction a).mpr ha)
  refine ⟨hk.rooted h.rooted, Nat.le_trans h.size_le hk.size_le,
    fun a => (isAction_iff_of_steady h.rooted hk).trans (h.isAction a), fun a ha => ?_,
    fun a ha => ?_, fun a ha => ?_, fun a ha hne => ?_, fun a ha => ?_, fun x hx hnot => ?_⟩
  · rw [hk.below a a ((h.isAction a).mpr ha) (.refl g a), h.children a ha]
  · rw [actionKey?_of_steady hk h.rooted ((h.isAction a).mpr ha), h.key a ha]
  · rw [← h.owner a ha, Forest.owner, hk.label a ((h.isAction a).mpr ha).lt_size, Forest.owner]
  · rw [hcode a ha] at hne
    obtain ⟨key, hfirst⟩ := h.changed a ha hne
    exact ⟨key, by rw [definitions_of_steady hk h.rooted hr, hfirst]⟩
  · rw [hcode a ha]
    exact h.merged.code a ha
  · rw [text_of_label (hk.label x (Nat.lt_of_lt_of_le hx h.size_le)), h.merged.text x hx hnot]

section Merge

variable (hc : Combined g scope
  (g.childrenOfKind root .namedAction ++ g.childrenOfKind t .namedAction) actions)
include hc

theorem isAction_of_get? (hr : T root) (ht : T t) (hget : actions.named.get? key = some a) :
    f.IsAction T a ∧ actionKey? f scope a = some key := by
  obtain ⟨hp, hk, hkey⟩ := combined_kept h.rooted hc hget
  have haction : f.IsAction T a := by
    refine (h.isAction a).mp ⟨hk, ?_⟩
    exact hp.elim (fun hp => ⟨root, hr, hp⟩) fun hp => ⟨t, ht, hp⟩
  exact ⟨haction, (h.key a haction).symm.trans hkey⟩

/-- Code changes only if it is that of a definition that is kept. -/
theorem code_of_not_kept (hnot : ∀ key, actions.named.get? key ≠ some a) :
    actionCode actions.forest a = actionCode g a := by
  refine actionCode_congr (hc.recoded.children a) fun c hlast => hc.text_eq fun key b hget hb => ?_
  obtain rfl := h.rooted.wellFormed.children_disjoint (List.mem_of_getLast? hlast)
    (List.mem_of_getLast? hb)
  exact hnot key hget

/-- A definition that is taken in has the code that it had, as it is not the first one. -/
theorem foreignCode_eq (hr : T root) (ht : T t) (hget : actions.named.get? key = some a) :
    ∃ bs : List NodeId, foreignCode g a (definitions g scope key
        (g.childrenOfKind root .namedAction ++ g.childrenOfKind t .namedAction)) =
          bs.map (actionCode f) ∧
      ∀ b ∈ bs, f.IsAction T b ∧ f.owner b ≠ f.owner a ∧ Together (actionKey? f scope) a b := by
  obtain ⟨haction, hkey⟩ := h.isAction_of_get? hc hr ht hget
  have hgw := h.rooted.wellFormed
  have htaken : ∀ b ∈ (definitions g scope key
      (g.childrenOfKind root .namedAction ++ g.childrenOfKind t .namedAction)).filter
        (fun j => g.owner j ≠ g.owner a),
      f.IsAction T b ∧ g.owner b ≠ g.owner a ∧ actionKey? f scope b = some key := by
    intro b hb
    obtain ⟨hb, howner⟩ := List.mem_filter.mp hb
    obtain ⟨hmem, hbkey⟩ := List.mem_filter.mp hb
    have hbAction : f.IsAction T b := by
      refine (h.isAction b).mp ((isAction_iff_mem hgw).mpr ?_)
      exact (List.mem_append.mp hmem).elim (fun hm => ⟨root, hr, hm⟩) fun hm => ⟨t, ht, hm⟩
    exact ⟨hbAction, of_decide_eq_true howner,
      (h.key b hbAction).symm.trans (of_decide_eq_true hbkey)⟩
  refine ⟨_, List.map_congr_left fun b hb => ?_, fun b hb => ?_⟩
  · obtain ⟨hbAction, howner, hbkey⟩ := htaken b hb
    -- If its code had changed, it would be the first definition itself.
    by_contra hne
    obtain ⟨key', hfirst⟩ := h.changed b hbAction hne
    obtain ⟨-, -, hbkey'⟩ := (mem_definitions hgw).mp (List.mem_of_head? hfirst)
    rw [h.key b hbAction, hbkey, Option.some.injEq] at hbkey'
    subst hbkey'
    rw [hc.named, definitions_append, List.head?_append, hfirst, Option.some_or,
      Option.some.injEq] at hget
    exact howner (congrArg g.owner hget)
  · obtain ⟨hbAction, howner, hbkey⟩ := htaken b hb
    rw [h.owner b hbAction, h.owner a haction] at howner
    exact ⟨hbAction, howner, key, hkey, hbkey⟩

theorem merge (hr : T root) (ht : T t)
    (hp : Placed actions.forest k root
      (actions.named.values.filter fun id => g.parent? id ≠ some root)) :
    ActionsGathered f k T scope root := by
  have hT := h.rooted
  have hcode : ∀ a, f.IsAction T a → actionCode k a = actionCode actions.forest a := fun a ha =>
    placed_actionCode hT hr ht hc hp ((h.isAction a).mpr ha)
  refine ⟨merged_rooted hT hr ht hc hp, placed_size hc.recoded hp ▸ h.size_le, fun a => ?_,
    fun a ha => ?_, fun a ha => ?_, fun a ha => ?_, fun a ha hne => ?_, fun a ha => ?_,
    fun x hx hnot => ?_⟩
  · refine .trans ⟨fun ⟨hk, u, hu, hau⟩ => ?_, placed_isAction hr hc hp⟩ (h.isAction a)
    rw [placed_kind hc.recoded hp] at hk
    rw [placed_parent? hc.recoded hp] at hau
    split at hau
    · rename_i hmoved
      exact ⟨hk, t, ht, (combined_moved hT hc hmoved).1⟩
    · exact ⟨hk, u, hu, hau⟩
  · rw [placed_children_of_within hT hr ht hc hp ((h.isAction a).mpr ha) (.refl g a),
      h.children a ha]
  · rw [placed_actionKey? hT hr ht hc hp ((h.isAction a).mpr ha), h.key a ha]
  · rw [Forest.owner, hp.label, ← Forest.owner, hc.recoded.owner, h.owner a ha]
  · by_cases hkept : ∃ key, actions.named.get? key = some a
    · obtain ⟨key, hget⟩ := hkept
      exact ⟨key, placed_own_head? hT hr ht hc hp hget⟩
    · rw [hcode a ha, h.code_of_not_kept hc (not_exists.mp hkept)] at hne
      obtain ⟨key, hfirst⟩ := h.changed a ha hne
      refine ⟨key, ?_⟩
      rw [placed_own_of_ne_nil hT hr ht hc hp fun hnil => by simp [hnil] at hfirst, hfirst]
  · obtain ⟨bs, hbefore, hbs⟩ := h.merged.code a ha
    rw [hcode a ha]
    by_cases hkept : ∃ key, actions.named.get? key = some a
    · obtain ⟨key, hget⟩ := hkept
      obtain ⟨cs, hforeign, hcs⟩ := h.foreignCode_eq hc hr ht hget
      refine ⟨bs ++ cs, ?_, List.forall_mem_append.mpr ⟨hbs, hcs⟩⟩
      rw [hc.joined key a hget, hbefore, hforeign, List.map_append, joinAll_append]
    · exact ⟨bs, (h.code_of_not_kept hc (not_exists.mp hkept)).trans hbefore, hbs⟩
  · rw [text_of_label (hp.label x), hc.text_eq fun key a hget => ?_, h.merged.text x hx hnot]
    obtain ⟨haction, -⟩ := h.isAction_of_get? hc hr ht hget
    rw [h.children a haction]
    exact hnot a haction

end Merge

end ActionsGathered

end Integration

namespace GrammarSet

open Integration Forest

variable {s : GrammarSet} {grammar : GrammarId} {a b : NodeId}

/-! ### Scopes that are misread -/

/-- The scope of an action without one: that of the grammar that owns it. What no grammar owns is
counted as the grammar's. -/
def ownScope (s : GrammarSet) (grammar : GrammarId) (id : NodeId) : String :=
  (s.grammar ((s.forest.owner id).getD grammar)).type.defaultScope

/-- The scope and the name of a named action, as the grammar that owns it means them. -/
def effectiveKey? (s : GrammarSet) (grammar : GrammarId) (id : NodeId) :
    Option (String × String) :=
  actionKey? s.forest (s.ownScope grammar id) id

/-- The action has no scope, and integrating the grammar gives it another one than its own. -/
def Misread (s : GrammarSet) (grammar : GrammarId) (id : NodeId) : Prop :=
  s.forest.childCount id = 2 ∧ s.ownScope grammar id ≠ (s.grammar grammar).type.defaultScope

instance (s : GrammarSet) (grammar : GrammarId) (id : NodeId) : Decidable (s.Misread grammar id) :=
  inferInstanceAs (Decidable (_ ∧ _))

theorem effectiveKey?_of_not_misread (h : ¬ s.Misread grammar a) : s.effectiveKey? grammar a =
    actionKey? s.forest (s.grammar grammar).type.defaultScope a := by
  by_cases htwo : s.forest.childCount a = 2
  · rw [effectiveKey?, not_not.mp (not_and.mp h htwo)]
  · exact actionKey?_of_childCount_ne htwo _ _

/-- There are two scopes, so actions that are misread have the same one. -/
theorem ownScope_eq_of_misread (ha : s.Misread grammar a) (hb : s.Misread grammar b) :
    s.ownScope grammar a = s.ownScope grammar b := by
  have hother : ∀ t u v : GrammarType, t.defaultScope ≠ v.defaultScope →
      u.defaultScope ≠ v.defaultScope → t.defaultScope = u.defaultScope := by
    rintro (_ | _ | _) (_ | _ | _) (_ | _ | _) ht hu <;> first | rfl | exact absurd rfl ht |
      exact absurd rfl hu
  exact hother _ _ _ ha.2 hb.2

/-- An action that is misread is not what others are that are read right. -/
theorem not_together_of_misread (ha : s.Misread grammar a) (hb : ¬ s.Misread grammar b)
    (h : Together (actionKey? s.forest (s.grammar grammar).type.defaultScope) a b) :
    ¬ Together (s.effectiveKey? grammar) a b := by
  rintro ⟨key', ha', hb'⟩
  obtain ⟨key, hakey, hbkey⟩ := h
  obtain ⟨name, hname⟩ := exists_actionKey?_of_childCount_eq ha.1
  rw [effectiveKey?_of_not_misread hb, hbkey] at hb'
  rw [hname] at hakey
  rw [effectiveKey?, hname, ← hb', ← hakey] at ha'
  exact ha.2 (congrArg Prod.fst (Option.some.inj ha'))

/-- Actions that integration takes for the same are the same unless just one of them is misread. -/
theorem together_effectiveKey?_iff
    (h : Together (actionKey? s.forest (s.grammar grammar).type.defaultScope) a b) :
    Together (s.effectiveKey? grammar) a b ↔ (s.Misread grammar a ↔ s.Misread grammar b) := by
  by_cases ha : s.Misread grammar a <;> by_cases hb : s.Misread grammar b
  · refine iff_of_true ?_ (iff_of_true ha hb)
    obtain ⟨key, hakey, hbkey⟩ := h
    obtain ⟨name, hname⟩ := exists_actionKey?_of_childCount_eq ha.1
    obtain ⟨name', hname'⟩ := exists_actionKey?_of_childCount_eq hb.1
    rw [hname, Option.some.injEq] at hakey
    rw [hname', ← hakey, Option.some.injEq, Prod.mk.injEq] at hbkey
    refine ⟨(s.ownScope grammar a, name), hname _, ?_⟩
    rw [effectiveKey?, hname', ownScope_eq_of_misread ha hb, hbkey.2]
  · exact iff_of_false (not_together_of_misread ha hb h) fun hiff => hb (hiff.mp ha)
  · obtain ⟨key, hakey, hbkey⟩ := h
    refine iff_of_false (fun ⟨key', ha', hb'⟩ => ?_) fun hiff => ha (hiff.mpr hb)
    exact not_together_of_misread hb ha ⟨key, hbkey, hakey⟩ ⟨key', hb', ha'⟩
  · refine iff_of_true ?_ (iff_of_false ha hb)
    obtain ⟨key, hakey, hbkey⟩ := h
    exact ⟨key, (effectiveKey?_of_not_misread ha).trans hakey,
      (effectiveKey?_of_not_misread hb).trans hbkey⟩

/-! ### Integration -/

/-- Of the actions of different grammars that integration takes for the same, it misreads all or
none. -/
def ReadAlike (s : GrammarSet) (grammar : GrammarId) : Prop :=
  ∀ a b, s.forest.IsAction (s.Involved grammar) a → s.forest.IsAction (s.Involved grammar) b →
    s.forest.owner b ≠ s.forest.owner a →
    Together (actionKey? s.forest (s.grammar grammar).type.defaultScope) a b →
    (s.Misread grammar a ↔ s.Misread grammar b)

/-- Only code of actions with the same scope and name has been merged in `g`, as the grammars that
own the actions mean them. -/
def ScopesRespected (s : GrammarSet) (grammar : GrammarId) (g : Forest) : Prop :=
  CodeMerged s.forest g (s.Involved grammar) (s.effectiveKey? grammar)

theorem exists_actionsGathered (hs : s.Separate) (ha : s.Acyclic) (hg : grammar < s.size) :
    ∃ m : Merge, s.integrateImports grammar = .ok (s.withForest m.rules.forest, m.report) ∧
      ActionsGathered s.forest m.rules.forest (s.Involved grammar)
        (s.grammar grammar).type.defaultScope (s.grammar grammar).root := by
  have hT := hs.rooted hg
  have hr : s.Involved grammar (s.grammar grammar).root := List.mem_cons_self
  refine integrateImports_run (P := fun _ _ m => ActionsGathered s.forest m.rules.forest
      (s.Involved grammar) (s.grammar grammar).type.defaultScope (s.grammar grammar).root)
    hs ha hg (fun m _ _ hshifted => ?_) fun done rest imported m m' hturn _ hpass h => ?_
  · exact (ActionsGathered.start hT _ _).steady hr (hshifted.steady hT hr hr (by decide))
  · obtain ⟨g, actions, k, hpassed, -⟩ := hpass.passed
    exact (((h.steady hr hpassed.before).merge hpassed.combined hr hturn.tree
      hpassed.placed).steady hr hpassed.after)

/-- Integration merges code of different grammars only if the actions have the same name and the
same scope, read as those of the grammar. They are the same action unless just one of them is
misread. -/
theorem integrateImports_codeMerged (hs : s.Separate) (ha : s.Acyclic) (hg : grammar < s.size) :
    ∃ g report, s.integrateImports grammar = .ok (s.withForest g, report) ∧
      CodeMerged s.forest g (s.Involved grammar)
        (actionKey? s.forest (s.grammar grammar).type.defaultScope) ∧
      (∀ a b, Together (actionKey? s.forest (s.grammar grammar).type.defaultScope) a b →
        (Together (s.effectiveKey? grammar) a b ↔
          (s.Misread grammar a ↔ s.Misread grammar b))) ∧
      (s.ReadAlike grammar → s.ScopesRespected grammar g) := by
  obtain ⟨m, hok, h⟩ := exists_actionsGathered hs ha hg
  refine ⟨m.rules.forest, m.report, hok, h.merged, fun a b => together_effectiveKey?_iff,
    fun halike => h.merged.imp fun a b haAction hbAction howner htogether => ?_⟩
  exact (together_effectiveKey?_iff htogether).mpr (halike a b haAction hbAction howner htogether)

/-! ### A lexer grammar among the imports -/

/-- The grammars with other types. -/
def retyped (s : GrammarSet) (types : GrammarId → GrammarType) : GrammarSet :=
  { s with grammars := s.grammars.mapIdx fun i g => { g with type := types i } }

theorem grammar_retyped (s : GrammarSet) (types : GrammarId → GrammarType) (id : GrammarId) :
    (s.retyped types).grammar id =
      if id < s.size then { s.grammar id with type := types id } else s.grammar id := by
  rw [GrammarSet.grammar, GrammarSet.grammar, retyped, Array.getElem?_mapIdx]
  split
  · rename_i hlt
    rw [Array.getElem?_eq_getElem hlt]
    rfl
  · rename_i hge
    rw [Array.getElem?_eq_none (Nat.le_of_not_lt hge)]
    rfl

theorem root_retyped (s : GrammarSet) (types : GrammarId → GrammarType) (id : GrammarId) :
    ((s.retyped types).grammar id).root = (s.grammar id).root := by
  rw [grammar_retyped]
  split <;> rfl

theorem imports_retyped (s : GrammarSet) (types : GrammarId → GrammarType) :
    (s.retyped types).Imports = s.Imports := by
  funext g h
  rw [Imports, grammar_retyped, Imports]
  split <;> rfl

theorem size_retyped (s : GrammarSet) (types : GrammarId → GrammarType) :
    (s.retyped types).size = s.size := Array.size_mapIdx

theorem Separate.retyped (hs : s.Separate) (types : GrammarId → GrammarType) :
    (s.retyped types).Separate := by
  refine ⟨hs.wellFormed, fun g hg => ?_, fun g hg => ?_, fun g hg h hh => ?_, fun g hg h hgh => ?_⟩
    <;> rw [size_retyped] at *
  · exact root_retyped s types g ▸ hs.root_lt g hg
  · exact root_retyped s types g ▸ hs.isRoot g hg
  · rw [root_retyped, root_retyped]
    exact hs.distinct g hg h hh
  · exact hs.registered g hg h (imports_retyped s types ▸ hgh)

theorem Acyclic.retyped (ha : s.Acyclic) (types : GrammarId → GrammarType) :
    (s.retyped types).Acyclic := by
  rw [Acyclic, imports_retyped]
  exact ha

/-- A grammar of the type with members in the scope, if there is one. -/
def membersIn (type : GrammarType) (name code : String) (scope : List String) : Tree Label :=
  .node (.make .grammar type.rootText) [.leaf (.make .id name),
    .node (.ofKind .namedAction) (scope.map (fun text => .leaf (.make .id text)) ++
      [.leaf (.make .id "members"), .leaf (.make .action code)])]

/-- A combined grammar and its import, a lexer grammar, with members in the scope. -/
def lexerMembers (scope : List String) : GrammarSet :=
  (importing (ownedTree 0 (membersIn .combined "R" "{p}" scope))
    (ownedTree 1 (membersIn .lexer "S" "{l}" scope))).retyped
      fun id => if id = 0 then .combined else .lexer

theorem lexerMembers_separate (scope : List String) : (lexerMembers scope).Separate :=
  (importing_separate _ _).retyped _

theorem lexerMembers_acyclic (scope : List String) : (lexerMembers scope).Acyclic :=
  (importing_acyclic _ _).retyped _

/-- Members in an explicit scope are merged across the types of grammars. -/
theorem integrateImports_lexerScope :
    ∃ g report, (lexerMembers ["lexer"]).integrateImports 0 =
        .ok ((lexerMembers ["lexer"]).withForest g, report) ∧
      (lexerMembers ["lexer"]).ScopesRespected 0 g ∧ actionCode g 2 = "\x7bp\nl\x7d" := by
  obtain ⟨g, report, hok, -, -, hrespected⟩ := integrateImports_codeMerged
    (lexerMembers_separate ["lexer"]) (lexerMembers_acyclic ["lexer"])
    (show 0 < (lexerMembers ["lexer"]).size by decide)
  have hright : ∀ a < (lexerMembers ["lexer"]).forest.size,
      (lexerMembers ["lexer"]).forest.kind a = .namedAction →
        ¬ (lexerMembers ["lexer"]).Misread 0 a := by decide +kernel
  have hcode : ((lexerMembers ["lexer"]).integrateImports 0).map
      (fun r => actionCode r.1.forest 2) = .ok "\x7bp\nl\x7d" := by decide +kernel
  rw [hok] at hcode
  refine ⟨g, report, hok, hrespected fun a b ha hb _ _ => ?_, Except.ok.inj hcode⟩
  exact iff_of_false (hright a ha.lt_size ha.1) (hright b hb.lt_size hb.1)

/-- Without a scope, the members of the parser take in those of the lexer. -/
theorem integrateImports_mixesMembers :
    let s := lexerMembers []
    s.Separate ∧ s.Acyclic ∧ 0 < s.size ∧ s.effectiveKey? 0 2 = some ("parser", "members") ∧
      s.effectiveKey? 0 7 = some ("lexer", "members") ∧
      ∃ t report, s.integrateImports 0 = .ok (t, report) ∧
        actionCode t.forest 2 = "\x7bp\nl\x7d" ∧ ¬ s.ScopesRespected 0 t.forest := by
  refine ⟨lexerMembers_separate [], lexerMembers_acyclic [], by decide, by decide +kernel,
    by decide +kernel, ?_⟩
  have hcode : ((lexerMembers []).integrateImports 0).map (fun r => actionCode r.1.forest 2) =
      .ok "\x7bp\nl\x7d" := by decide +kernel
  -- No action of another grammar is what the members of the grammar are.
  have halone : ∀ b < (lexerMembers []).forest.size,
      (lexerMembers []).forest.owner b ≠ (lexerMembers []).forest.owner 2 →
        (lexerMembers []).effectiveKey? 0 b ≠ some ("parser", "members") := by decide +kernel
  have haction : (lexerMembers []).forest.IsAction ((lexerMembers []).Involved 0) 2 :=
    ⟨by decide +kernel, 0, List.mem_cons_self, by decide +kernel⟩
  have hkey : (lexerMembers []).effectiveKey? 0 2 = some ("parser", "members") := by
    decide +kernel
  have hold : actionCode (lexerMembers []).forest 2 = "{p}" := by decide +kernel
  generalize (lexerMembers []).integrateImports 0 = result at hcode ⊢
  match result, hcode with
  | .ok (t, report), hcode =>
    refine ⟨t, report, rfl, Except.ok.inj hcode, fun hrespected => ?_⟩
    obtain ⟨bs, htext, hbs⟩ := hrespected.code 2 haction
    have hnone : bs = [] := by
      refine List.eq_nil_iff_forall_not_mem.mpr fun b hb => ?_
      obtain ⟨hbAction, howner, key, hakey, hbkey⟩ := hbs b hb
      rw [hkey] at hakey
      exact halone b hbAction.lt_size howner (hbkey.trans hakey.symm)
    rw [show actionCode t.forest 2 = _ from Except.ok.inj hcode, hold, hnone] at htext
    exact absurd htext (by decide)

end GrammarSet

end GrammarTrees
