import GrammarTrees.Template.Render
import Mathlib.Data.List.Basic

/-! Arguments are passed on as they are. What a called template is rendered as consists of texts of
its own and of whole arguments; which of them, in which order, and what messages are left depends on
the templates alone. So nothing in an argument is ever read as part of a template. -/

namespace GrammarTrees.Template

/-- A piece of rendered text: a text of the template, or one of the arguments. -/
inductive Fragment where
  | text (cs : List Char)
  | argument (i : Nat)

/-- The text of a piece among the given arguments. -/
def Fragment.fill (args : List (List Char)) : Fragment → List Char
  | text cs => cs
  | argument i => (args[i]?).getD []

/-- The pieces of a piece in which each argument is given by pieces. -/
def Fragment.subst (args : List (List Fragment)) : Fragment → List Fragment
  | text cs => [text cs]
  | argument i => (args[i]?).getD []

def fillIn (args : List (List Char)) (parts : List Fragment) : List Char :=
  parts.flatMap (Fragment.fill args)

def substIn (args : List (List Fragment)) (parts : List Fragment) : List Fragment :=
  parts.flatMap (Fragment.subst args)

theorem fillIn_append (args : List (List Char)) (ps qs : List Fragment) :
    fillIn args (ps ++ qs) = fillIn args ps ++ fillIn args qs := List.flatMap_append

theorem fillIn_substIn (args : List (List Char)) (inner : List (List Fragment))
    (parts : List Fragment) :
    fillIn args (substIn inner parts) = fillIn (inner.map (fillIn args)) parts := by
  unfold fillIn substIn
  rw [List.flatMap_assoc]
  refine List.flatMap_congr fun p _ => ?_
  cases p with
  | text cs => simp [Fragment.subst, Fragment.fill]
  | argument i =>
    rw [Fragment.subst, Fragment.fill, List.getElem?_map]
    cases inner[i]? <;> rfl

variable {c : Calling}

/-- Of a call with a given number of arguments, only the places that they take in its text depend on
them. -/
def Calling.Uniform (c : Calling) : Prop :=
  ∀ name arity, ∃ result : Except RenderFault (Rendered (List Fragment)),
    ∀ args : List (List Char), args.length = arity →
      c.call name args = result.map fun r => ⟨fillIn args r.value, r.messages⟩

mutual

theorem evaluate_uniform (hc : c.Uniform) (t : Template) (called : Bool) : (e : Expression) →
    ∃ (parts : Option (List Fragment)) (messages : List Message), ∀ args,
      evaluate c ⟨t, args, called⟩ e = ⟨parts.map (fillIn args), messages⟩
  | .literal cs => ⟨some [.text cs], [], fun args => by simp [evaluate, fillIn, Fragment.fill]⟩
  | .param name offset => by
    cases hi : t.params.idxOf? name with
    | none =>
      refine ⟨none, [(Frame.mk t [] called).message offset (.undefined name)], fun args => ?_⟩
      simp [evaluate, Frame.argument?, hi, Frame.message]
    | some i =>
      refine ⟨some [.argument i], [], fun args => ?_⟩
      simp [evaluate, Frame.argument?, hi, fillIn, Fragment.fill]
  | .call name es offset => by
    obtain ⟨inner, messages, hall⟩ := evaluateAll_uniform hc t called es
    cases inner with
    | none => exact ⟨none, messages, fun args => by simp [evaluate, hall]⟩
    | some inner =>
      obtain ⟨result, hresult⟩ := hc name inner.length
      have hcall : ∀ args, c.call name (inner.map (fillIn args)) =
          result.map fun r => ⟨fillIn args (substIn inner r.value), r.messages⟩ := by
        intro args
        rw [hresult _ (List.length_map _)]
        simp only [fillIn_substIn]
      cases result with
      | error fault =>
        refine ⟨none, messages ++ [(Frame.mk t [] called).message offset fault], fun args => ?_⟩
        simp [evaluate, hall, hcall, Except.map, Frame.message]
      | ok r =>
        refine ⟨some (substIn inner r.value), messages ++ r.messages, fun args => ?_⟩
        simp [evaluate, hall, hcall, Except.map]

theorem evaluateAll_uniform (hc : c.Uniform) (t : Template) (called : Bool) :
    (es : List Expression) →
    ∃ (parts : Option (List (List Fragment))) (messages : List Message), ∀ args,
      evaluateAll c ⟨t, args, called⟩ es = ⟨parts.map (·.map (fillIn args)), messages⟩
  | [] => ⟨some [], [], fun args => by simp [evaluateAll]⟩
  | e :: es => by
    obtain ⟨first, messages, hfirst⟩ := evaluate_uniform hc t called e
    cases first with
    | none => exact ⟨none, messages, fun args => by simp [evaluateAll, hfirst]⟩
    | some first =>
      obtain ⟨rest, more, hrest⟩ := evaluateAll_uniform hc t called es
      refine ⟨rest.map (first :: ·), messages ++ more, fun args => ?_⟩
      simp only [evaluateAll, hfirst, hrest, Option.map_some, Option.map_map]
      rfl

end

theorem renderChunks_uniform (hc : c.Uniform) (t : Template) (called : Bool)
    (chunks : List Chunk) : ∃ parts messages, ∀ args,
      renderChunks c ⟨t, args, called⟩ chunks = ⟨fillIn args parts, messages⟩ := by
  induction chunks with
  | nil => exact ⟨[], [], fun args => rfl⟩
  | cons chunk chunks ih =>
    obtain ⟨rest, more, hrest⟩ := ih
    cases chunk with
    | text cs =>
      refine ⟨.text cs :: rest, more, fun args => ?_⟩
      rw [renderChunks, hrest]
      rfl
    | expression e =>
      obtain ⟨first, messages, hfirst⟩ := evaluate_uniform hc t called e
      refine ⟨first.getD [] ++ rest, messages ++ more, fun args => ?_⟩
      rw [renderChunks, hfirst, hrest, fillIn_append]
      cases first <;> rfl

theorem Calling.uniform_of_render (group : Group) (limit : Nat)
    {render? : Option (Template → List (List Char) → Rendered (List Char))}
    (h : ∀ render, render? = some render → ∀ t, ∃ parts messages, ∀ args,
      render t args = ⟨fillIn args parts, messages⟩) :
    (Calling.mk group limit render?).Uniform := by
  intro name arity
  unfold Calling.call
  cases hcallee : group.lookup name with
  | none => exact ⟨.error (.noTemplate name), fun args _ => by simp [Except.map]⟩
  | some callee =>
    by_cases harity : arity = callee.params.length
    · cases hrender : render? with
      | none =>
        refine ⟨.error (.tooDeep name limit), fun args hargs => ?_⟩
        simp [hargs, harity, Except.map]
      | some render =>
        obtain ⟨parts, messages, hparts⟩ := h render hrender callee
        refine ⟨.ok ⟨parts, messages⟩, fun args hargs => ?_⟩
        simp [hargs, harity, hparts, Except.map]
    · refine ⟨.error (.wrongArity name arity callee.params.length), fun args hargs => ?_⟩
      simp [hargs, harity, Except.map]

/-- What a called template is rendered as is made of its own texts and of whole arguments. -/
theorem renderCalled_uniform (group : Group) (limit levels : Nat) (t : Template) :
    ∃ parts messages, ∀ args,
      renderCalled group limit levels t args = ⟨fillIn args parts, messages⟩ := by
  induction levels generalizing t with
  | zero =>
    refine renderChunks_uniform (Calling.uniform_of_render group limit ?_) t true t.chunks
    simp
  | succ levels ih =>
    refine renderChunks_uniform (Calling.uniform_of_render group limit ?_) t true t.chunks
    rintro render ⟨⟩
    exact ih

end GrammarTrees.Template
