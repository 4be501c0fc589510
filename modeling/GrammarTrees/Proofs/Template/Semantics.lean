import GrammarTrees.Proofs.Template.Substitution

/-! The meaning of templates, as rules that a derivation is built from: arguments have their texts
before the template they are passed to has one, and it sees nothing but them. Rendering finds the
text of a template if and only if a derivation gives it whose calls do not nest deeper than the
limit. -/

namespace GrammarTrees.Template

/-- `text` is the argument at the first place where `name` stands among the parameters. -/
def FirstArgument (params : List String) (args : List (List Char)) (name : String)
    (text : List Char) : Prop :=
  ∃ i : Nat, params[i]? = some name ∧ (∀ j < i, params[j]? ≠ some name) ∧ args[i]? = some text

mutual

/-- `Evaluates group params args e text depth`: where the parameters `params` stand for `args`, the
expression `e` has the text `text`, by a derivation in which calls nest `depth` levels deep. -/
inductive Evaluates (group : Group) :
    (params : List String) → (args : List (List Char)) → Expression → List Char → (depth : Nat) →
      Prop
  | literal {params args} (text : List Char) :
    Evaluates group params args (.literal text) text 0
  | param {params args name text} (offset : Nat) (h : FirstArgument params args name text) :
    Evaluates group params args (.param name offset) text 0
  | call {params args name exprs texts callee text n m} (offset : Nat)
    (hargs : EvaluatesAll group params args exprs texts n)
    (hcallee : group.lookup name = some callee)
    (harity : texts.length = callee.params.length)
    (hbody : Yields group callee.params texts callee.chunks text m) :
    Evaluates group params args (.call name exprs offset) text (max n (m + 1))

/-- The texts of expressions, each by a derivation of its own. -/
inductive EvaluatesAll (group : Group) :
    (params : List String) → (args : List (List Char)) → List Expression → List (List Char) →
      (depth : Nat) → Prop
  | nil {params args} : EvaluatesAll group params args [] [] 0
  | cons {params args e es text texts n m} (hfirst : Evaluates group params args e text n)
    (hrest : EvaluatesAll group params args es texts m) :
    EvaluatesAll group params args (e :: es) (text :: texts) (max n m)

/-- The text of chunks is that of one chunk after the other. -/
inductive Yields (group : Group) :
    (params : List String) → (args : List (List Char)) → List Chunk → List Char → (depth : Nat) →
      Prop
  | nil {params args} : Yields group params args [] [] 0
  | text {params args chunks rest n} (cs : List Char)
    (hrest : Yields group params args chunks rest n) :
    Yields group params args (.text cs :: chunks) (cs ++ rest) n
  | expression {params args e chunks text rest n m}
    (hfirst : Evaluates group params args e text n)
    (hrest : Yields group params args chunks rest m) :
    Yields group params args (.expression e :: chunks) (text ++ rest) (max n m)

end

variable {c : Calling} {f : Frame} {group : Group} {name : String} {offset : Nat} {e : Expression}
  {es : List Expression} {chunks : List Chunk} {text : List Char} {texts : List (List Char)}

/-! ### Rendering without messages -/

mutual

/-- What is left without a text leaves a message. -/
theorem evaluate_messages_ne_nil : (e : Expression) → (evaluate c f e).value = none →
    (evaluate c f e).messages ≠ []
  | .literal _ => by simp [evaluate]
  | .param name offset => by
    rw [evaluate]
    split <;> simp
  | .call name es offset => by
    rw [evaluate]
    split
    · rename_i hnone
      exact fun _ => evaluateAll_messages_ne_nil es hnone
    · split <;> simp

theorem evaluateAll_messages_ne_nil : (es : List Expression) → (evaluateAll c f es).value = none →
    (evaluateAll c f es).messages ≠ []
  | [] => by simp [evaluateAll]
  | e :: es => by
    rw [evaluateAll]
    split
    · rename_i hnone
      exact fun _ => evaluate_messages_ne_nil e hnone
    · intro hnone hnil
      rw [Option.map_eq_none_iff] at hnone
      exact evaluateAll_messages_ne_nil es hnone (List.append_eq_nil_iff.mp hnil).2

end

theorem argument?_eq_some_iff (hargs : f.args.length = f.template.params.length) :
    f.argument? name = some text ↔ FirstArgument f.template.params f.args name text := by
  unfold Frame.argument? FirstArgument
  rw [Option.map_eq_some_iff]
  refine exists_congr fun i => ?_
  rw [List.idxOf?_eq_some_iff]
  constructor
  · rintro ⟨⟨hi, hname, hbefore⟩, htext⟩
    rw [List.getElem?_eq_getElem (hargs ▸ hi), Option.getD_some] at htext
    refine ⟨List.getElem?_eq_some_iff.mpr ⟨hi, hname⟩, fun j hj hname => hbefore j hj ?_,
      List.getElem?_eq_some_iff.mpr ⟨hargs ▸ hi, htext⟩⟩
    rw [List.getElem?_eq_getElem (by omega)] at hname
    exact Option.some.inj hname
  · rintro ⟨hname, hbefore, htext⟩
    obtain ⟨hi, hname⟩ := List.getElem?_eq_some_iff.mp hname
    refine ⟨⟨hi, hname, fun j hj hname => hbefore j hj ?_⟩, by rw [htext, Option.getD_some]⟩
    exact List.getElem?_eq_some_iff.mpr ⟨by omega, hname⟩

theorem evaluate_param_eq_iff : evaluate c f (.param name offset) = ⟨some text, []⟩ ↔
    f.argument? name = some text := by
  rw [evaluate]
  split <;> simp_all

theorem evaluate_call_eq_iff : evaluate c f (.call name es offset) = ⟨some text, []⟩ ↔
    ∃ texts, evaluateAll c f es = ⟨some texts, []⟩ ∧ c.call name texts = .ok ⟨text, []⟩ := by
  rw [evaluate]
  rcases evaluateAll c f es with ⟨_ | texts, messages⟩
  · simp
  · rcases hcall : c.call name texts with fault | ⟨rendered, more⟩
    · simp [hcall]
    · simp [hcall, and_left_comm]

theorem evaluateAll_cons_eq_iff : evaluateAll c f (e :: es) = ⟨some texts, []⟩ ↔
    ∃ first rest, evaluate c f e = ⟨some first, []⟩ ∧ evaluateAll c f es = ⟨some rest, []⟩ ∧
      first :: rest = texts := by
  rw [evaluateAll]
  rcases evaluate c f e with ⟨_ | first, messages⟩
  · simp
  · rcases evaluateAll c f es with ⟨_ | rest, more⟩
    · simp
    · simp
      tauto

theorem renderChunks_text_eq_iff {cs : List Char} :
    renderChunks c f (.text cs :: chunks) = ⟨text, []⟩ ↔
      ∃ rest, renderChunks c f chunks = ⟨rest, []⟩ ∧ cs ++ rest = text := by
  rw [renderChunks]
  rcases renderChunks c f chunks with ⟨rest, messages⟩
  simp [and_comm]

theorem renderChunks_expression_eq_iff :
    renderChunks c f (.expression e :: chunks) = ⟨text, []⟩ ↔
      ∃ first rest, evaluate c f e = ⟨some first, []⟩ ∧ renderChunks c f chunks = ⟨rest, []⟩ ∧
        first ++ rest = text := by
  have hmessages := evaluate_messages_ne_nil (c := c) (f := f) e
  rw [renderChunks]
  revert hmessages
  rcases evaluate c f e with ⟨_ | first, messages⟩
  · simp_all
  · rcases renderChunks c f chunks with ⟨rest, more⟩
    simp
    tauto

/-! ### Levels of calls -/

/-- How calls are rendered while `levels` more levels of them may follow. -/
def Calling.ofLevels (group : Group) (limit : Nat) : (levels : Nat) → Calling
  | 0 => ⟨group, limit, none⟩
  | levels + 1 => ⟨group, limit, some (renderCalled group limit levels)⟩

theorem renderCalled_eq (group : Group) (limit levels : Nat) (t : Template)
    (args : List (List Char)) : renderCalled group limit levels t args =
      renderChunks (.ofLevels group limit levels) ⟨t, args, true⟩ t.chunks := by
  cases levels <;> rfl

theorem outermost_eq (group : Group) (limit : Nat) :
    Calling.outermost group limit = .ofLevels group limit limit := by
  cases limit <;> rfl

/-- A call is rendered if the rules give it a text, and a derivation for its body nests less than
`levels` deep. -/
def Calling.Follows (c : Calling) (group : Group) (levels : Nat) : Prop :=
  ∀ name texts text, c.call name texts = .ok ⟨text, []⟩ ↔
    ∃ callee n, group.lookup name = some callee ∧ texts.length = callee.params.length ∧
      Yields group callee.params texts callee.chunks text n ∧ n < levels

variable {levels : Nat}

mutual

theorem evaluate_iff (hc : c.Follows group levels)
    (hargs : f.args.length = f.template.params.length) : (e : Expression) → (text : List Char) →
    (evaluate c f e = ⟨some text, []⟩ ↔
      ∃ n ≤ levels, Evaluates group f.template.params f.args e text n)
  | .literal own, text => by
    rw [evaluate]
    constructor
    · intro h
      obtain rfl : own = text := by simpa using h
      exact ⟨0, Nat.zero_le levels, .literal own⟩
    · rintro ⟨n, -, ⟨⟩⟩
      rfl
  | .param name offset, text => by
    rw [evaluate_param_eq_iff, argument?_eq_some_iff hargs]
    constructor
    · intro h
      exact ⟨0, Nat.zero_le levels, .param offset h⟩
    · rintro ⟨n, -, ⟨⟩⟩
      assumption
  | .call name es offset, text => by
    rw [evaluate_call_eq_iff]
    constructor
    · rintro ⟨texts, hes, hcall⟩
      obtain ⟨n, hn, hes⟩ := (evaluateAll_iff hc hargs es texts).mp hes
      obtain ⟨callee, m, hcallee, harity, hbody, hm⟩ := (hc name texts text).mp hcall
      exact ⟨max n (m + 1), Nat.max_le.mpr ⟨hn, hm⟩, .call offset hes hcallee harity hbody⟩
    · rintro ⟨n, hn, h⟩
      cases h with
      | call _ hes hcallee harity hbody =>
        obtain ⟨hn, hm⟩ := Nat.max_le.mp hn
        exact ⟨_, (evaluateAll_iff hc hargs es _).mpr ⟨_, hn, hes⟩,
          (hc name _ text).mpr ⟨_, _, hcallee, harity, hbody, hm⟩⟩

theorem evaluateAll_iff (hc : c.Follows group levels)
    (hargs : f.args.length = f.template.params.length) :
    (es : List Expression) → (texts : List (List Char)) →
    (evaluateAll c f es = ⟨some texts, []⟩ ↔
      ∃ n ≤ levels, EvaluatesAll group f.template.params f.args es texts n)
  | [], texts => by
    rw [evaluateAll]
    constructor
    · intro h
      obtain rfl : [] = texts := by simpa using h
      exact ⟨0, Nat.zero_le levels, .nil⟩
    · rintro ⟨n, -, ⟨⟩⟩
      rfl
  | e :: es, texts => by
    rw [evaluateAll_cons_eq_iff]
    constructor
    · rintro ⟨first, rest, hfirst, hrest, rfl⟩
      obtain ⟨n, hn, hfirst⟩ := (evaluate_iff hc hargs e first).mp hfirst
      obtain ⟨m, hm, hrest⟩ := (evaluateAll_iff hc hargs es rest).mp hrest
      exact ⟨max n m, Nat.max_le.mpr ⟨hn, hm⟩, .cons hfirst hrest⟩
    · rintro ⟨n, hn, h⟩
      cases h with
      | cons hfirst hrest =>
        obtain ⟨hn, hm⟩ := Nat.max_le.mp hn
        exact ⟨_, _, (evaluate_iff hc hargs e _).mpr ⟨_, hn, hfirst⟩,
          (evaluateAll_iff hc hargs es _).mpr ⟨_, hm, hrest⟩, rfl⟩

end

theorem renderChunks_iff (hc : c.Follows group levels)
    (hargs : f.args.length = f.template.params.length) (chunks : List Chunk) (text : List Char) :
    renderChunks c f chunks = ⟨text, []⟩ ↔
      ∃ n ≤ levels, Yields group f.template.params f.args chunks text n := by
  induction chunks generalizing text with
  | nil =>
    rw [renderChunks]
    constructor
    · intro h
      obtain rfl : [] = text := by simpa using h
      exact ⟨0, Nat.zero_le levels, .nil⟩
    · rintro ⟨n, -, ⟨⟩⟩
      rfl
  | cons chunk chunks ih =>
    cases chunk with
    | text cs =>
      rw [renderChunks_text_eq_iff]
      constructor
      · rintro ⟨rest, hrest, rfl⟩
        obtain ⟨n, hn, hrest⟩ := (ih rest).mp hrest
        exact ⟨n, hn, .text cs hrest⟩
      · rintro ⟨n, hn, h⟩
        cases h with
        | text _ hrest => exact ⟨_, (ih _).mpr ⟨n, hn, hrest⟩, rfl⟩
    | expression e =>
      rw [renderChunks_expression_eq_iff]
      constructor
      · rintro ⟨first, rest, hfirst, hrest, rfl⟩
        obtain ⟨n, hn, hfirst⟩ := (evaluate_iff hc hargs e first).mp hfirst
        obtain ⟨m, hm, hrest⟩ := (ih rest).mp hrest
        exact ⟨max n m, Nat.max_le.mpr ⟨hn, hm⟩, .expression hfirst hrest⟩
      · rintro ⟨n, hn, h⟩
        cases h with
        | expression hfirst hrest =>
          obtain ⟨hn, hm⟩ := Nat.max_le.mp hn
          exact ⟨_, _, (evaluate_iff hc hargs e _).mpr ⟨_, hn, hfirst⟩,
            (ih _).mpr ⟨_, hm, hrest⟩, rfl⟩

theorem follows_ofLevels (group : Group) (limit levels : Nat) :
    (Calling.ofLevels group limit levels).Follows group levels := by
  induction levels with
  | zero =>
    intro name texts text
    have hnone : ∀ r, (Calling.ofLevels group limit 0).call name texts ≠ .ok r := by
      intro r
      unfold Calling.call Calling.ofLevels
      split
      · simp
      · split <;> simp
    simp [hnone]
  | succ levels ih =>
    intro name texts text
    unfold Calling.call
    cases hcallee : group.lookup name with
    | none => simp [Calling.ofLevels, hcallee]
    | some callee =>
      by_cases harity : texts.length = callee.params.length
      · have hbody := renderChunks_iff ih (f := ⟨callee, texts, true⟩) harity callee.chunks text
        rw [← renderCalled_eq] at hbody
        simp only [Nat.lt_succ_iff]
        simp [Calling.ofLevels, hcallee, harity, hbody, and_comm]
      · simp [Calling.ofLevels, hcallee, harity]

/-! ### Templates without parameters -/

/-- Rendering gives a template that has no parameters the text that the rules give it, if calls
nest no deeper than the limit; a higher limit changes nothing then. Arguments go into the text of a
called template as they are. -/
theorem render_iff_yields (group : Group) (limit : Nat) (name source : String)
    (chunks : List Chunk) :
    (∀ text, (render group limit ⟨name, [], chunks, source⟩).1 = some text ↔
      ∃ depth ≤ limit, Yields group [] [] chunks text.toList depth) ∧
    (∀ text higher, limit ≤ higher → (render group limit ⟨name, [], chunks, source⟩).1 = some text →
      (render group higher ⟨name, [], chunks, source⟩).1 = some text) ∧
    ∀ levels callee, ∃ parts messages, ∀ args,
      renderCalled group limit levels callee args = ⟨fillIn args parts, messages⟩ := by
  have hiff : ∀ limit text, (render group limit ⟨name, [], chunks, source⟩).1 = some text ↔
      ∃ depth ≤ limit, Yields group [] [] chunks text.toList depth := by
    intro limit text
    have hchunks := renderChunks_iff (follows_ofLevels group limit limit)
      (f := ⟨⟨name, [], chunks, source⟩, [], false⟩) rfl chunks text.toList
    rw [← hchunks, ← outermost_eq, render]
    rcases renderChunks (.outermost group limit) ⟨⟨name, [], chunks, source⟩, [], false⟩ chunks
      with ⟨value, messages⟩
    have htext : String.ofList value = text ↔ value = text.toList := by
      rw [← String.toList_inj, String.toList_ofList]
    cases messages <;> simp [htext]
  refine ⟨hiff limit, fun text higher hle h => ?_, renderCalled_uniform group limit⟩
  obtain ⟨depth, hdepth, hyields⟩ := (hiff limit text).mp h
  exact (hiff higher text).mpr ⟨depth, Nat.le_trans hdepth hle, hyields⟩

/-- Two templates: one that writes its argument twice, and one that calls it and adds brackets. -/
def brackets : Group :=
  .mk "brackets"
    ⟨[("twice", ⟨"twice", ["x"], [.expression (.param "x" 1), .expression (.param "x" 4)],
        "<x><x>"⟩),
      ("around", ⟨"around", ["x"],
        [.text ['['], .expression (.call "twice" [.param "x" 8] 2), .text [']']],
        "[<twice(x)>]"⟩)]⟩ []

/-- ` <around(twice("<x>"))>` -/
def bracketed : List Chunk :=
  [.text [' '], .expression (.call "around" [.call "twice" [.literal ['<', 'x', '>']] 9] 2)]

theorem render_iff_yields_bracketed :
    2 ≤ 7 ∧ (render brackets 2 ⟨"action", [], bracketed, ""⟩).1 = some " [<x><x><x><x>]" ∧
      (∃ depth ≤ 2, Yields brackets [] [] bracketed " [<x><x><x><x>]".toList depth) ∧
      (render brackets 7 ⟨"action", [], bracketed, ""⟩).1 = some " [<x><x><x><x>]" := by
  obtain ⟨hiff, hhigher, -⟩ := render_iff_yields brackets 2 "action" "" bracketed
  have hrender : (render brackets 2 ⟨"action", [], bracketed, ""⟩).1 =
      some " [<x><x><x><x>]" := by decide
  exact ⟨by decide, hrender, (hiff _).mp hrender, hhigher _ 7 (by decide) hrender⟩

/-- With one level less, the outer call would be too deep. -/
example : (render brackets 1 ⟨"action", [], bracketed, ""⟩).1 = none := by decide

end GrammarTrees.Template
