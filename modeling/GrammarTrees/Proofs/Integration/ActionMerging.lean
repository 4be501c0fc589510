import GrammarTrees.Integration.NamedActions
import GrammarTrees.Proofs.Forest.Rewording
import GrammarTrees.Proofs.Integration.RuleSections
import GrammarTrees.Proofs.Template.Code
import Mathlib.Data.List.Induction

/-! Merging the named actions of two grammars. The first of those with the same scope and name takes
in the code of the others. No other text changes. -/

namespace GrammarTrees.Integration

open Forest

/-! ### Code -/

theorem stripBraces_braced (text : String) : stripBraces ("\x7b" ++ text ++ "\x7d") = text := by
  have hinside : inside? '\x7b' ['\x7d'] ("\x7b" ++ text ++ "\x7d").toList = some text.toList := by
    rw [inside?_eq_some_iff, String.toList_append, String.toList_append]
    rfl
  rw [stripBraces, hinside, Option.getD_some, String.ofList_toList]

theorem stripBraces_joinActions (first second : String) :
    stripBraces (joinActions first second) = stripBraces first ++ "\n" ++ stripBraces second := by
  have hassoc : joinActions first second =
      "\x7b" ++ (stripBraces first ++ "\n" ++ stripBraces second) ++ "\x7d" := by
    rw [joinActions]
    simp only [String.append_assoc]
  rw [hassoc, stripBraces_braced]

/-- A piece of code that has taken in others, one after the other. -/
def joinAll (first : String) (others : List String) : String := others.foldl joinActions first

/-- The texts without braces, a line for each. -/
def codeLines (texts : List String) : String := "\n".intercalate (texts.map stripBraces)

theorem stripBraces_joinAll (first : String) (others : List String) :
    stripBraces (joinAll first others) = codeLines (first :: others) := by
  induction others using List.reverseRecOn with
  | nil => simp [joinAll, codeLines]
  | append_singleton others last ih =>
    have hstep : joinAll first (others ++ [last]) = joinActions (joinAll first others) last := by
      rw [joinAll, List.foldl_append]
      rfl
    rw [hstep, stripBraces_joinActions, ih, codeLines, codeLines, ← List.cons_append,
      List.map_append, String.intercalate_append_of_ne_nil (by simp) (by simp)]
    simp

/-- Code that was taken in stands in braces of its own with all else. -/
theorem joinAll_eq {first : String} {others : List String} (h : others ≠ []) :
    joinAll first others = "\x7b" ++ codeLines (first :: others) ++ "\x7d" := by
  obtain ⟨front, last, rfl⟩ := List.eq_nil_or_concat others |>.resolve_left h
  have hstep : joinAll first (front ++ [last]) = joinActions (joinAll first front) last := by
    rw [joinAll, List.foldl_append]
    rfl
  rw [List.concat_eq_append, ← stripBraces_joinAll, hstep, stripBraces_joinActions, joinActions]
  simp only [String.append_assoc]

/-! ### Keys -/

/-- The scope and the name of a named action of two or three children. -/
def actionKey? (f : Forest) (scope : String) (id : NodeId) : Option (String × String) :=
  (NamedAction.of? f scope id).map fun parts => (parts.scope, f.text parts.name)

/-- The text of the last child. -/
def actionCode (f : Forest) (id : NodeId) : String :=
  ((f.children id).getLast?.map f.text).getD ""

variable {f g : Forest} {scope : String} {id : Nat} {parts : NamedAction} {m : ActionMerge}
  {ps : List NodeId}

theorem action_mem_children (h : NamedAction.of? f scope id = some parts) :
    parts.action ∈ f.children id := by
  rw [NamedAction.of?] at h
  split at h <;> rename_i hc
  · rw [← Option.some.inj h, hc]
    simp
  · rw [← Option.some.inj h, hc]
    simp
  · simp at h

theorem getLast?_of_parts (h : NamedAction.of? f scope id = some parts) :
    (f.children id).getLast? = some parts.action := by
  rw [NamedAction.of?] at h
  split at h <;> rename_i hc
  · rw [← Option.some.inj h, hc]
    rfl
  · rw [← Option.some.inj h, hc]
    rfl
  · simp at h

theorem actionCode_of_parts (h : NamedAction.of? f scope id = some parts) :
    actionCode f id = f.text parts.action := by
  rw [actionCode, getLast?_of_parts h]
  rfl

theorem actionKey?_of_parts (h : NamedAction.of? f scope id = some parts) :
    actionKey? f scope id = some (parts.scope, f.text parts.name) := by
  rw [actionKey?, h]
  rfl

/-- The code of a named action belongs to no other one. -/
theorem eq_of_action_eq {id' : Nat} {parts' : NamedAction} (hf : f.WellFormed)
    (h : NamedAction.of? f scope id = some parts) (h' : NamedAction.of? f scope id' = some parts')
    (heq : parts.action = parts'.action) : id = id' :=
  hf.children_disjoint (action_mem_children h) (heq ▸ action_mem_children h')

theorem not_mem_dropLast {l : List Nat} {a : Nat} (hl : l.Nodup) (ha : l.getLast? = some a) :
    a ∉ l.dropLast := by
  obtain ⟨front, rfl⟩ := List.getLast?_eq_some_iff.mp ha
  rw [List.dropLast_concat]
  intro hmem
  exact (List.nodup_append.mp hl).2.2 a hmem a (by simp) rfl

/-- `g` is `f` with other code in those of the nodes `ids` that are named actions. -/
structure Recoded (f g : Forest) (scope : String) (ids : List NodeId) : Prop
    extends Reworded f g where
  text : ∀ x, (∀ id ∈ ids, ∀ parts, NamedAction.of? f scope id = some parts → x ≠ parts.action) →
    g.text x = f.text x

namespace Recoded

theorem mono {ids : List NodeId} (hg : Recoded f g scope ps) (hsub : ps ⊆ ids) :
    Recoded f g scope ids :=
  ⟨hg.toReworded, fun x hx => hg.text x fun id hid => hx id (hsub hid)⟩

variable (hf : f.WellFormed) (hg : Recoded f g scope ps)
include hf hg

/-- Scopes and names are not code. -/
theorem text_of_mem_dropLast {c : NodeId} (hc : c ∈ (f.children id).dropLast) :
    g.text c = f.text c := by
  refine hg.text c fun id' _ parts h => ?_
  rintro rfl
  obtain rfl := hf.children_disjoint (action_mem_children h) (List.dropLast_subset _ hc)
  exact not_mem_dropLast (hf.nodup_children id') (getLast?_of_parts h) hc

theorem of?_eq (id : NodeId) : NamedAction.of? g scope id = NamedAction.of? f scope id := by
  rw [NamedAction.of?, NamedAction.of?, hg.children]
  split
  · rename_i s n a hc
    have hs : s ∈ (f.children id).dropLast := by simp [hc]
    rw [hg.text_of_mem_dropLast hf hs]
  · rfl
  · rfl

theorem actionKey?_eq (id : NodeId) : actionKey? g scope id = actionKey? f scope id := by
  rw [actionKey?, actionKey?, hg.of?_eq hf]
  cases h : NamedAction.of? f scope id with
  | none => rfl
  | some parts =>
    have hname : parts.name ∈ (f.children id).dropLast := by
      rw [NamedAction.of?] at h
      split at h <;> rename_i hc
      · simp [← Option.some.inj h, hc]
      · simp [← Option.some.inj h, hc]
      · simp at h
    rw [Option.map_some, Option.map_some, hg.text_of_mem_dropLast hf hname]

end Recoded

/-! ### Reports -/

/-- The node with the name of an action: the last child but one. -/
def actionName (f : Forest) (id : NodeId) : NodeId := ((f.children id).dropLast.getLast?).getD id

/-- The report of a repeated definition. -/
def redefinitionOf (f : Forest) (fileOf : Option GrammarId → String) (id : NodeId) : Diagnostic :=
  ActionMerge.redefinition f fileOf id (actionName f id)

theorem actionName_of_parts {parts : NamedAction} (h : NamedAction.of? f scope id = some parts) :
    actionName f id = parts.name ∧ parts.name ∈ (f.children id).dropLast := by
  rw [NamedAction.of?] at h
  rw [actionName]
  split at h <;> rename_i hc
  · rw [← Option.some.inj h, hc]
    exact ⟨rfl, by simp⟩
  · rw [← Option.some.inj h, hc]
    exact ⟨rfl, by simp⟩
  · simp at h

/-- Code is not part of the report. -/
theorem redefinition_recoded (hf : f.WellFormed) (hg : Recoded f g scope ps)
    {fileOf : Option GrammarId → String} (h : NamedAction.of? f scope id = some parts) :
    ActionMerge.redefinition g fileOf id parts.name = redefinitionOf f fileOf id := by
  obtain ⟨hname, hmem⟩ := actionName_of_parts h
  rw [redefinitionOf, hname, ActionMerge.redefinition, ActionMerge.redefinition, hg.owner,
    hg.position, hg.range, hg.text_of_mem_dropLast hf hmem]

/-! ### Definitions of the same action -/

/-- Those of the nodes that are named actions with the given scope and name. -/
def definitions (f : Forest) (scope : String) (key : String × String) (ids : List NodeId) :
    List NodeId :=
  ids.filter fun id => actionKey? f scope id = some key

theorem definitions_append (f : Forest) (scope : String) (key : String × String)
    (ids ids' : List NodeId) : definitions f scope key (ids ++ ids') =
      definitions f scope key ids ++ definitions f scope key ids' := List.filter_append ..

theorem definitions_concat {key : String × String} (h : actionKey? f scope id = some key)
    (ps : List NodeId) :
    definitions f scope key (ps ++ [id]) = definitions f scope key ps ++ [id] := by
  simp [definitions, h]

theorem actionKey?_ne {key key' : String × String} (hid : actionKey? f scope id = some key)
    (hne : key' ≠ key) : actionKey? f scope id ≠ some key' := by
  rw [hid]
  exact fun heq => hne (Option.some.inj heq).symm

theorem definitions_concat_of_ne {key : String × String} (h : actionKey? f scope id ≠ some key)
    (ps : List NodeId) : definitions f scope key (ps ++ [id]) = definitions f scope key ps := by
  simp [definitions, h]

/-- The code that a definition takes in: that of the definitions by other grammars. -/
def foreignCode (f : Forest) (id : NodeId) (ids : List NodeId) : List String :=
  (ids.filter fun j => f.owner j ≠ f.owner id).map (actionCode f)

theorem foreignCode_append (f : Forest) (id : NodeId) (ids ids' : List NodeId) :
    foreignCode f id (ids ++ ids') = foreignCode f id ids ++ foreignCode f id ids' := by
  rw [foreignCode, List.filter_append, List.map_append]
  rfl

/-- The steps that adding the node `id` can come to: it has no key, or it is the first of its key;
the first one has the same owner, and the node has been reported before or is reported now; or the
first one takes in its code. -/
inductive Added (f : Forest) (scope : String) (fileOf : Option GrammarId → String)
    (m : ActionMerge) (id : NodeId) : ActionMerge → Prop
  | unnamed (hkey : actionKey? f scope id = none) : Added f scope fileOf m id m
  | first {key : String × String} (hkey : actionKey? f scope id = some key)
      (hnone : m.named.get? key = none) :
      Added f scope fileOf m id { m with named := m.named.insert key id }
  | seen {key : String × String} {first : NodeId} (hkey : actionKey? f scope id = some key)
      (hfirst : m.named.get? key = some first) (howner : f.owner first = f.owner id)
      (hcontains : m.repeated.contains id = true) : Added f scope fileOf m id m
  | again {key : String × String} {first : NodeId} (hkey : actionKey? f scope id = some key)
      (hfirst : m.named.get? key = some first) (howner : f.owner first = f.owner id)
      (hcontains : ¬ m.repeated.contains id = true) :
      Added f scope fileOf m id
        { m with
          repeated := m.repeated ++ [id]
          report := m.report ++ [redefinitionOf f fileOf id] }
  | joined {key : String × String} {first : NodeId} {kept : NamedAction}
      (hkey : actionKey? f scope id = some key) (hfirst : m.named.get? key = some first)
      (howner : f.owner first ≠ f.owner id) (hkept : NamedAction.of? f scope first = some kept) :
      Added f scope fileOf m id
        { m with
          forest := m.forest.setText kept.action
            (joinActions (actionCode m.forest first) (actionCode f id)) }

/-- The nodes `ps` have been merged, in order. -/
structure Combined (f : Forest) (scope : String) (ps : List NodeId) (m : ActionMerge) : Prop where
  recoded : Recoded f m.forest scope ps
  code : ∀ id, actionKey? f scope id ≠ none → id ∉ m.named.values →
    actionCode m.forest id = actionCode f id
  keys : m.named.keys.Nodup
  keyed : ∀ e ∈ m.named.entries, actionKey? f scope e.2 = some e.1
  named : ∀ key, m.named.get? key = (definitions f scope key ps).head?
  joined : ∀ key id, m.named.get? key = some id → actionCode m.forest id =
    joinAll (actionCode f id) (foreignCode f id (definitions f scope key ps))

namespace Combined

theorem start (f : Forest) (scope : String) (repeated : List NodeId) :
    Combined f scope [] ⟨f, .empty, repeated, []⟩ :=
  ⟨⟨.refl f, fun _ _ => rfl⟩, fun _ _ _ => rfl, List.nodup_nil, by simp [OrderedMap.empty],
    fun _ => rfl, by simp [OrderedMap.empty, OrderedMap.get?]⟩

variable (hm : Combined f scope ps m)
include hm

/-- A kept definition is found under its key. -/
theorem get?_of_mem_values (hid : id ∈ m.named.values) :
    ∃ key, actionKey? f scope id = some key ∧ m.named.get? key = some id := by
  obtain ⟨e, he, rfl⟩ := List.mem_map.mp hid
  refine ⟨e.1, hm.keyed e he, ?_⟩
  cases hget : m.named.get? e.1 with
  | none => exact absurd (List.mem_map_of_mem he) (OrderedMap.not_mem_keys_of_get? hget)
  | some first =>
    have heq := List.inj_on_of_nodup_map hm.keys (OrderedMap.mem_entries_of_get? hget) he rfl
    exact congrArg (some ∘ Prod.snd) heq

theorem nodup_values : m.named.values.Nodup := by
  refine List.Nodup.map_on (fun d hd e he heq => ?_) (List.Nodup.of_map Prod.fst hm.keys)
  have hkey := hm.keyed d hd
  rw [heq, hm.keyed e he] at hkey
  exact Prod.ext (Option.some.inj hkey).symm heq

theorem mem_of_get? {key : String × String} (h : m.named.get? key = some id) :
    id ∈ ps ∧ actionKey? f scope id = some key := by
  rw [hm.named] at h
  have hmem := List.mem_of_head? h
  rw [definitions, List.mem_filter, decide_eq_true_eq] at hmem
  exact hmem

/-- A node without a key is left out. -/
theorem skip (hid : actionKey? f scope id = none) : Combined f scope (ps ++ [id]) m := by
  have hdefs : ∀ key, definitions f scope key (ps ++ [id]) = definitions f scope key ps :=
    fun key => definitions_concat_of_ne (by simp [hid]) ps
  refine ⟨hm.recoded.mono (List.subset_append_left ps [id]), hm.code, hm.keys, hm.keyed,
    fun key => ?_, fun key first hfirst => ?_⟩
  · rw [hdefs, hm.named]
  · rw [hdefs, hm.joined key first hfirst]

/-- The first definition of a key is kept. -/
theorem keep {key : String × String} (hid : actionKey? f scope id = some key)
    (hnone : m.named.get? key = none) :
    Combined f scope (ps ++ [id]) { m with named := m.named.insert key id } := by
  have hnew : id ∉ m.named.values := by
    intro hmem
    obtain ⟨key', hid', hfirst⟩ := hm.get?_of_mem_values hmem
    obtain rfl : key = key' := Option.some.inj (hid.symm.trans hid')
    simp [hnone] at hfirst
  have hnil : definitions f scope key ps = [] := by
    rw [hm.named, List.head?_eq_none_iff] at hnone
    exact hnone
  refine ⟨hm.recoded.mono (List.subset_append_left ps [id]),
    fun id' hid' hmem => hm.code id' hid' fun hmem' => hmem ?_, ?_, fun e he => ?_,
    fun key' => ?_, fun key' first hfirst => ?_⟩
  · rw [OrderedMap.values_insert hnone]
    exact List.mem_append_left _ hmem'
  · have hkey := OrderedMap.not_mem_keys_of_get? hnone
    rw [OrderedMap.keys_insert, if_neg hkey]
    refine List.nodup_append.mpr ⟨hm.keys, List.nodup_singleton key, fun a ha b hb => ?_⟩
    rw [List.mem_singleton.mp hb]
    rintro rfl
    exact hkey ha
  · rw [OrderedMap.entries_insert hnone, List.mem_append, List.mem_singleton] at he
    rcases he with he | rfl
    · exact hm.keyed e he
    · exact hid
  · rw [OrderedMap.get?_insert]
    by_cases he : key' = key
    · subst he
      rw [if_pos rfl, definitions_concat hid, hnil]
      rfl
    · rw [if_neg he, hm.named, definitions_concat_of_ne (actionKey?_ne hid he)]
  · rw [OrderedMap.get?_insert] at hfirst
    by_cases he : key' = key
    · subst he
      rw [if_pos rfl] at hfirst
      obtain rfl := Option.some.inj hfirst
      rw [definitions_concat hid, hnil, hm.code id (by simp [hid]) hnew, foreignCode,
        List.nil_append, List.filter_cons_of_neg (by simp)]
      rfl
    · rw [if_neg he] at hfirst
      rw [hm.joined key' first hfirst, definitions_concat_of_ne (actionKey?_ne hid he)]

/-- A definition by the same grammar changes nothing but the report. -/
theorem again {key : String × String} {first : NodeId} (hid : actionKey? f scope id = some key)
    (hfirst : m.named.get? key = some first) (howner : f.owner first = f.owner id)
    (repeated : List NodeId) (report : Report) :
    Combined f scope (ps ++ [id]) { m with repeated, report } := by
  refine ⟨hm.recoded.mono (List.subset_append_left ps [id]), hm.code, hm.keys, hm.keyed,
    fun key' => ?_, fun key' first' hfirst' => ?_⟩
  · by_cases he : key' = key
    · subst he
      rw [definitions_concat hid, hm.named]
      rw [hm.named] at hfirst
      rw [List.head?_append, hfirst]
      rfl
    · rw [definitions_concat_of_ne (actionKey?_ne hid he), hm.named]
  · by_cases he : key' = key
    · subst he
      obtain rfl : first = first' := Option.some.inj (hfirst.symm.trans hfirst')
      rw [hm.joined key' first hfirst, definitions_concat hid, foreignCode, foreignCode,
        List.filter_append, List.filter_cons_of_neg (by simp [howner])]
      simp
    · rw [hm.joined key' first' hfirst', definitions_concat_of_ne (actionKey?_ne hid he)]

/-- A definition by another grammar is taken in by the first one. -/
theorem join (hf : f.WellFormed) {key : String × String} {first : NodeId} {kept : NamedAction}
    (hid : actionKey? f scope id = some key) (hfirst : m.named.get? key = some first)
    (howner : f.owner first ≠ f.owner id) (hkept : NamedAction.of? f scope first = some kept)
    {joined : String}
    (hjoined : joined = joinActions (actionCode m.forest first) (actionCode f id)) :
    Combined f scope (ps ++ [id]) { m with forest := m.forest.setText kept.action joined } := by
  obtain ⟨hmem, hkey⟩ := hm.mem_of_get? hfirst
  have hlt : kept.action < m.forest.size := by
    rw [hm.recoded.size]
    exact hf.lt_size_of_child (action_mem_children hkept)
  have hreworded := Reworded.setText m.forest kept.action joined
  -- Only the code of the first definition changes.
  have hsame : ∀ id', actionKey? f scope id' ≠ none → id' ≠ first →
      actionCode (m.forest.setText kept.action joined) id' = actionCode m.forest id' := by
    intro id' hid' hne
    obtain ⟨parts, hparts⟩ : ∃ parts, NamedAction.of? f scope id' = some parts := by
      rw [actionKey?, ne_eq, Option.map_eq_none_iff, ← ne_eq, Option.ne_none_iff_exists'] at hid'
      exact hid'
    have haction : parts.action ≠ kept.action := fun heq =>
      hne (eq_of_action_eq hf hparts hkept heq)
    rw [actionCode, actionCode, hreworded.children, hm.recoded.children, getLast?_of_parts hparts,
      Option.map_some, Option.map_some, text_setText_of_ne haction]
  refine ⟨⟨hm.recoded.toReworded.trans hreworded, fun x hx => ?_⟩, fun id' hid' hvalues => ?_,
    hm.keys, hm.keyed, fun key' => ?_, fun key' first' hfirst' => ?_⟩
  · rw [text_setText_of_ne (hx first (List.mem_append_left _ hmem) kept hkept),
      hm.recoded.text x fun id' hid' => hx id' (List.mem_append_left _ hid')]
  · have hne : id' ≠ first := by
      rintro rfl
      exact hvalues (List.mem_map_of_mem (f := Prod.snd) (OrderedMap.mem_entries_of_get? hfirst))
    rw [hsame id' hid' hne, hm.code id' hid' hvalues]
  · by_cases he : key' = key
    · subst he
      rw [definitions_concat hid, hm.named]
      rw [hm.named] at hfirst
      rw [List.head?_append, hfirst]
      rfl
    · rw [definitions_concat_of_ne (actionKey?_ne hid he), hm.named]
  · by_cases he : key' = key
    · subst he
      obtain rfl : first = first' := Option.some.inj (hfirst.symm.trans hfirst')
      have hcode : actionCode (m.forest.setText kept.action joined) first = joined := by
        rw [actionCode, hreworded.children, hm.recoded.children, getLast?_of_parts hkept,
          Option.map_some, Option.getD_some, text_setText_self hlt]
      rw [hcode, hjoined, hm.joined key' first hfirst, definitions_concat hid, foreignCode,
        foreignCode, List.filter_append, List.filter_cons_of_pos (by simpa using Ne.symm howner),
        List.map_append, joinAll, joinAll, List.foldl_append]
      rfl
    · have hne : first' ≠ first := by
        rintro rfl
        have hkey' := (hm.mem_of_get? hfirst').2
        rw [hkey] at hkey'
        exact he (Option.some.inj hkey').symm
      rw [hsame first' (by simp [(hm.mem_of_get? hfirst').2]) hne, hm.joined key' first' hfirst',
        definitions_concat_of_ne (actionKey?_ne hid he)]

/-- Adding a node comes to one of five steps. -/
theorem added (hf : f.WellFormed) (fileOf : Option GrammarId → String) (id : NodeId) :
    Added f scope fileOf m id (m.add scope fileOf id) := by
  have hparts := hm.recoded.of?_eq hf id
  have hkeys := hm.recoded.actionKey?_eq hf id
  rw [ActionMerge.add]
  split
  · rename_i hnone
    rw [hparts] at hnone
    exact .unnamed (by rw [actionKey?, hnone]; rfl)
  rename_i parts hsome
  rw [actionKey?_of_parts hsome] at hkeys
  dsimp only
  split
  · rename_i hnone
    exact .first hkeys.symm hnone
  rename_i first hfirst
  rw [hm.recoded.owner, hm.recoded.owner]
  split
  · rename_i howner
    split
    · rename_i hcontains
      exact .seen hkeys.symm hfirst howner hcontains
    · rename_i hcontains
      rw [redefinition_recoded hf hm.recoded (hparts.symm.trans hsome)]
      exact .again hkeys.symm hfirst howner hcontains
  rename_i howner
  have hfirstKey := (hm.mem_of_get? hfirst).2
  split
  · rename_i hnone
    rw [hm.recoded.of?_eq hf] at hnone
    simp [actionKey?, hnone] at hfirstKey
  rename_i kept hkept
  have hnew : id ∉ m.named.values := by
    intro hmem
    obtain ⟨key, hid, hget⟩ := hm.get?_of_mem_values hmem
    rw [← hkeys] at hid
    rw [← Option.some.inj hid, hfirst] at hget
    exact howner (congrArg f.owner (Option.some.inj hget))
  rw [← actionCode_of_parts hsome, ← actionCode_of_parts hkept,
    hm.code id (by simp [← hkeys]) hnew]
  exact .joined hkeys.symm hfirst howner ((hm.recoded.of?_eq hf first).symm.trans hkept)

theorem add (hf : f.WellFormed) (fileOf : Option GrammarId → String) (id : NodeId) :
    Combined f scope (ps ++ [id]) (m.add scope fileOf id) := by
  generalize hm' : m.add scope fileOf id = m'
  have hadded := hm' ▸ hm.added hf fileOf id
  cases hadded with
  | unnamed hkey => exact hm.skip hkey
  | first hkey hnone => exact hm.keep hkey hnone
  | seen hkey hfirst howner hcontains => exact hm.again hkey hfirst howner _ _
  | again hkey hfirst howner hcontains => exact hm.again hkey hfirst howner _ _
  | joined hkey hfirst howner hkept => exact hm.join hf hkey hfirst howner hkept rfl

/-- Only the code of definitions that are kept changes. -/
theorem text_eq {x : Nat}
    (hx : ∀ key id, m.named.get? key = some id → (f.children id).getLast? ≠ some x) :
    m.forest.text x = f.text x := by
  by_cases hcode : ∃ id ∈ ps, ∃ parts, NamedAction.of? f scope id = some parts ∧ x = parts.action
  · obtain ⟨id, -, parts, hparts, rfl⟩ := hcode
    have hvalues : id ∉ m.named.values := by
      intro hmem
      obtain ⟨key, -, hget⟩ := hm.get?_of_mem_values hmem
      exact hx key id hget (getLast?_of_parts hparts)
    have hsame := hm.code id (by simp [actionKey?_of_parts hparts]) hvalues
    rwa [actionCode, actionCode, hm.recoded.children, getLast?_of_parts hparts, Option.map_some,
      Option.map_some, Option.getD_some, Option.getD_some] at hsame
  · exact hm.recoded.text x fun id hid parts hparts he => hcode ⟨id, hid, parts, hparts, he⟩

theorem addAll (hf : f.WellFormed) (fileOf : Option GrammarId → String) (ids : List NodeId) :
    Combined f scope (ps ++ ids) (ids.foldl (ActionMerge.add scope fileOf) m) := by
  induction ids generalizing ps m with
  | nil => rwa [List.append_nil]
  | cons id ids ih =>
    have hstep := ih (hm.add hf fileOf id)
    rwa [List.append_assoc] at hstep

end Combined

end GrammarTrees.Integration
