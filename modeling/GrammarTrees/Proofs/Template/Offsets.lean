import GrammarTrees.Proofs.Template.Semantics

/-! Offsets in templates. Only the messages about the outermost template make use of them, so
templates that differ in nothing but their offsets and sources are rendered alike when they are
called. -/

namespace GrammarTrees.Template

mutual

/-- An expression without its offsets. -/
def Expression.bare : Expression → Expression
  | .literal text => .literal text
  | .param name _ => .param name 0
  | .call name args _ => .call name (Expression.bareAll args) 0

def Expression.bareAll : List Expression → List Expression
  | [] => []
  | e :: es => e.bare :: Expression.bareAll es

end

theorem Expression.bareAll_eq_map (es : List Expression) : bareAll es = es.map bare := by
  induction es with
  | nil => rfl
  | cons e es ih => rw [bareAll, ih, List.map_cons]

def Chunk.bare : Chunk → Chunk
  | .text cs => .text cs
  | .expression e => .expression e.bare

/-- A template without its offsets and its source. -/
def bare (t : Template) : Template := ⟨t.name, t.params, t.chunks.map Chunk.bare, ""⟩

variable {c c' : Calling} {f f' : Frame} {g g' : Group} {t u : Template}

/-! ### Expressions -/

mutual

/-- Calls are all that an expression takes from the surroundings. -/
theorem evaluate_congr (hcall : c.call = c'.call) (f : Frame) :
    (e : Expression) → evaluate c f e = evaluate c' f e
  | .literal _ => by rw [evaluate, evaluate]
  | .param _ _ => by rw [evaluate, evaluate]
  | .call _ es _ => by rw [evaluate, evaluate, evaluateAll_congr hcall f es, hcall]

theorem evaluateAll_congr (hcall : c.call = c'.call) (f : Frame) :
    (es : List Expression) → evaluateAll c f es = evaluateAll c' f es
  | [] => by rw [evaluateAll, evaluateAll]
  | e :: es => by
    rw [evaluateAll, evaluateAll, evaluate_congr hcall f e, evaluateAll_congr hcall f es]

end

theorem renderChunks_congr (hcall : c.call = c'.call) (f : Frame) (chunks : List Chunk) :
    renderChunks c f chunks = renderChunks c' f chunks := by
  induction chunks with
  | nil => rfl
  | cons chunk chunks ih =>
    cases chunk with
    | text cs => rw [renderChunks, renderChunks, ih]
    | expression e => rw [renderChunks, renderChunks, ih, evaluate_congr hcall f e]

/-- The two frames are those of called templates that cannot be told apart by their expressions. -/
structure Frame.Alike (f f' : Frame) : Prop where
  called : f.called = true ∧ f'.called = true
  name : f.template.name = f'.template.name
  params : f.template.params = f'.template.params
  args : f.args = f'.args

theorem Frame.Alike.argument?_eq (hf : f.Alike f') (name : String) :
    f.argument? name = f'.argument? name := by
  rw [Frame.argument?, Frame.argument?, hf.params, hf.args]

theorem Frame.Alike.message_eq (hf : f.Alike f') (offset offset' : Nat) (fault : RenderFault) :
    f.message offset fault = f'.message offset' fault := by
  rw [Frame.message, Frame.message, if_pos hf.called.1, if_pos hf.called.2, hf.name]

mutual

theorem evaluate_bare (hf : f.Alike f') (c : Calling) :
    (e : Expression) → evaluate c f e = evaluate c f' e.bare
  | .literal _ => by rw [Expression.bare, evaluate, evaluate]
  | .param name offset => by
    rw [Expression.bare, evaluate, evaluate, hf.argument?_eq, hf.message_eq offset 0]
  | .call name es offset => by
    rw [Expression.bare, evaluate, evaluate, evaluateAll_bare hf c es]
    simp only [hf.message_eq offset 0]

theorem evaluateAll_bare (hf : f.Alike f') (c : Calling) :
    (es : List Expression) → evaluateAll c f es = evaluateAll c f' (Expression.bareAll es)
  | [] => by rw [Expression.bareAll, evaluateAll, evaluateAll]
  | e :: es => by
    rw [Expression.bareAll, evaluateAll, evaluateAll, evaluate_bare hf c e,
      evaluateAll_bare hf c es]

end

theorem renderChunks_bare (hf : f.Alike f') (c : Calling) (chunks : List Chunk) :
    renderChunks c f chunks = renderChunks c f' (chunks.map Chunk.bare) := by
  induction chunks with
  | nil => rfl
  | cons chunk chunks ih =>
    cases chunk with
    | text cs => rw [List.map_cons, Chunk.bare, renderChunks, renderChunks, ih]
    | expression e =>
      rw [List.map_cons, Chunk.bare, renderChunks, renderChunks, ih, evaluate_bare hf c e]

/-! ### Templates -/

theorem renderChunks_eq_of_bare (htu : t.bare = u.bare) (c : Calling) (args : List (List Char)) :
    renderChunks c ⟨t, args, true⟩ t.chunks = renderChunks c ⟨u, args, true⟩ u.chunks := by
  obtain ⟨hname, hparams, hchunks, -⟩ := Template.mk.inj htu
  have hu : Frame.Alike ⟨u, args, true⟩ ⟨u, args, true⟩ := ⟨⟨rfl, rfl⟩, rfl, rfl, rfl⟩
  have ht : Frame.Alike ⟨t, args, true⟩ ⟨u, args, true⟩ := ⟨⟨rfl, rfl⟩, hname, hparams, rfl⟩
  rw [renderChunks_bare ht, hchunks, ← renderChunks_bare hu]

/-- The two groups have templates of the same names, which differ in offsets and sources only. -/
def Group.Alike (g g' : Group) : Prop :=
  ∀ name, (g.lookup name).map bare = (g'.lookup name).map bare

theorem Group.Alike.call_eq (hgroups : g.Alike g') (limit : Nat)
    {render? render?' : Option (Template → List (List Char) → Rendered (List Char))}
    (hrender : ∀ t u args, t.bare = u.bare → render?.map (· t args) = render?'.map (· u args)) :
    (Calling.mk g limit render?).call = (Calling.mk g' limit render?').call := by
  funext name args
  have hlookup := hgroups name
  unfold Calling.call
  cases hg : g.lookup name with
  | none =>
    rw [hg, Option.map_none, eq_comm, Option.map_eq_none_iff] at hlookup
    simp only [hlookup]
  | some t =>
    rw [hg, Option.map_some, eq_comm, Option.map_eq_some_iff] at hlookup
    obtain ⟨u, hu, hut⟩ := hlookup
    have hparams : u.params = t.params := (Template.mk.inj hut).2.1
    have htexts := hrender t u args hut.symm
    simp only [hu, hparams]
    cases render? <;> cases render?' <;> simp_all

theorem Group.Alike.call_ofLevels (hgroups : g.Alike g') (limit levels : Nat) :
    (Calling.ofLevels g limit levels).call = (Calling.ofLevels g' limit levels).call := by
  induction levels with
  | zero => exact hgroups.call_eq limit fun _ _ _ _ => rfl
  | succ levels ih =>
    refine hgroups.call_eq limit fun t u args htu => congrArg some ?_
    change renderCalled g limit levels t args = renderCalled g' limit levels u args
    rw [renderCalled_eq, renderCalled_eq, renderChunks_congr ih, renderChunks_eq_of_bare htu]

theorem Group.Alike.renderCalled_eq (hgroups : g.Alike g') (htu : t.bare = u.bare)
    (limit levels : Nat) (args : List (List Char)) :
    renderCalled g limit levels t args = renderCalled g' limit levels u args := by
  rw [Template.renderCalled_eq, Template.renderCalled_eq,
    renderChunks_congr (hgroups.call_ofLevels limit levels), renderChunks_eq_of_bare htu]

theorem Group.Alike.renderInline_eq (hgroups : g.Alike g') (limit : Nat) (source : String) :
    renderInline g limit source = renderInline g' limit source := by
  unfold renderInline render
  simp only [outermost_eq, renderChunks_congr (hgroups.call_ofLevels limit limit)]

/-- Templates that stand at the same place of two groups. -/
theorem Group.alike_of_bare (htu : t.bare = u.bare) (group name : String)
    (before after : List (String × Template)) (imports : List Group) :
    (Group.mk group ⟨before ++ (name, t) :: after⟩ imports).Alike
      (Group.mk group ⟨before ++ (name, u) :: after⟩ imports) := by
  intro own
  rw [Group.lookup, Group.lookup, Option.map_or, Option.map_or]
  congr 1
  unfold OrderedMap.get?
  rw [List.find?_append, List.find?_append, List.find?_cons, List.find?_cons]
  cases before.find? (·.1 = own) with
  | some e => rfl
  | none => by_cases hown : name = own <;> simp [hown, htu]

end GrammarTrees.Template
