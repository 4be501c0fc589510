import GrammarTrees.Proofs.Template.BodyGrammar
import GrammarTrees.Proofs.Template.Semantics

/-! What goes wrong while a template is rendered, as rules like those for its text. An expression
without a text is left out of the text around it, but it leaves an incident. Rendering leaves one
message for each incident, and gives a text if there is none. -/

namespace GrammarTrees.Template

/-- What a fault is about. -/
def RenderFault.name : RenderFault → String
  | undefined param => param
  | noTemplate name | wrongArity name _ _ | tooDeep name _ => name

/-- A fault in the expression at byte `offset` of a template that is reached through `level`
calls. -/
structure Incident where
  template : Template
  level : Nat
  offset : Nat
  fault : RenderFault

namespace Incident

/-- Only in the outermost template an incident has a place. -/
def position? (i : Incident) : Option Position :=
  if i.level = 0 then some (.ofOffset i.template.source i.offset) else none

def source? (i : Incident) : Option String :=
  if i.level = 0 then none else some ("/" ++ i.template.name)

def message (i : Incident) : Message :=
  ⟨.runtime, .plain, i.source?, i.position?, i.fault.text, none⟩

end Incident

mutual

/-- `Attempts group limit t args level e value incidents`: in the template `t`, which is reached
through `level` calls and whose parameters stand for `args`, the expression `e` has the text `value`
or none, and leaves these incidents. Calls nest at most `limit` levels deep. -/
inductive Attempts (group : Group) (limit : Nat) :
    (t : Template) → (args : List (List Char)) → (level : Nat) → Expression →
      Option (List Char) → List Incident → Prop
  | literal {t args level} (text : List Char) :
    Attempts group limit t args level (.literal text) (some text) []
  | param {t args level name text} (offset : Nat) (h : FirstArgument t.params args name text) :
    Attempts group limit t args level (.param name offset) (some text) []
  | undefined {t args level name} (offset : Nat) (h : name ∉ t.params) :
    Attempts group limit t args level (.param name offset) none
      [⟨t, level, offset, .undefined name⟩]
  | argument {t args level name es incidents} (offset : Nat)
    (hargs : AttemptsAll group limit t args level es none incidents) :
    Attempts group limit t args level (.call name es offset) none incidents
  | noTemplate {t args level name es texts incidents} (offset : Nat)
    (hargs : AttemptsAll group limit t args level es (some texts) incidents)
    (hcallee : group.lookup name = none) :
    Attempts group limit t args level (.call name es offset) none
      (incidents ++ [⟨t, level, offset, .noTemplate name⟩])
  | wrongArity {t args level name es texts incidents callee} (offset : Nat)
    (hargs : AttemptsAll group limit t args level es (some texts) incidents)
    (hcallee : group.lookup name = some callee) (harity : texts.length ≠ callee.params.length) :
    Attempts group limit t args level (.call name es offset) none
      (incidents ++
        [⟨t, level, offset, .wrongArity name texts.length callee.params.length⟩])
  | tooDeep {t args level name es texts incidents callee} (offset : Nat)
    (hargs : AttemptsAll group limit t args level es (some texts) incidents)
    (hcallee : group.lookup name = some callee) (harity : texts.length = callee.params.length)
    (hlevel : limit ≤ level) :
    Attempts group limit t args level (.call name es offset) none
      (incidents ++ [⟨t, level, offset, .tooDeep name limit⟩])
  | call {t args level name es texts incidents callee text more} (offset : Nat)
    (hargs : AttemptsAll group limit t args level es (some texts) incidents)
    (hcallee : group.lookup name = some callee) (harity : texts.length = callee.params.length)
    (hlevel : level < limit)
    (hbody : Fills group limit callee texts (level + 1) callee.chunks text more) :
    Attempts group limit t args level (.call name es offset) (some text) (incidents ++ more)

/-- Expressions are attempted up to the first that has no text. -/
inductive AttemptsAll (group : Group) (limit : Nat) :
    (t : Template) → (args : List (List Char)) → (level : Nat) → List Expression →
      Option (List (List Char)) → List Incident → Prop
  | nil {t args level} : AttemptsAll group limit t args level [] (some []) []
  | stop {t args level e es incidents}
    (hfirst : Attempts group limit t args level e none incidents) :
    AttemptsAll group limit t args level (e :: es) none incidents
  | cons {t args level e es text texts incidents more}
    (hfirst : Attempts group limit t args level e (some text) incidents)
    (hrest : AttemptsAll group limit t args level es texts more) :
    AttemptsAll group limit t args level (e :: es) (texts.map (text :: ·)) (incidents ++ more)

/-- Chunks are filled in one after the other, those without a text with nothing. -/
inductive Fills (group : Group) (limit : Nat) :
    (t : Template) → (args : List (List Char)) → (level : Nat) → List Chunk → List Char →
      List Incident → Prop
  | nil {t args level} : Fills group limit t args level [] [] []
  | text {t args level chunks rest incidents} (cs : List Char)
    (hrest : Fills group limit t args level chunks rest incidents) :
    Fills group limit t args level (.text cs :: chunks) (cs ++ rest) incidents
  | expression {t args level e chunks value rest incidents more}
    (hfirst : Attempts group limit t args level e value incidents)
    (hrest : Fills group limit t args level chunks rest more) :
    Fills group limit t args level (.expression e :: chunks) (value.getD [] ++ rest)
      (incidents ++ more)

end

variable {c : Calling} {f : Frame} {group : Group} {limit level : Nat} {t : Template}
  {args : List (List Char)} {incidents : List Incident} {i : Incident}
  {names : List (String × Nat)}

/-! ### Where incidents happen -/

/-- The names in chunks, each with the byte at which it stands. -/
def namesIn (chunks : List Chunk) : List (String × Nat) :=
  chunks.flatMap fun
    | .text _ => []
    | .expression e => e.names

theorem namesIn_expression (e : Expression) (chunks : List Chunk) :
    namesIn (.expression e :: chunks) = e.names ++ namesIn chunks := rfl

theorem exists_of_mem_namesIn {chunks : List Chunk} {p : String × Nat} (h : p ∈ namesIn chunks) :
    ∃ e, .expression e ∈ chunks ∧ p ∈ e.names := by
  obtain ⟨chunk, hchunk, hp⟩ := List.mem_flatMap.mp h
  cases chunk with
  | text cs => simp at hp
  | expression e => exact ⟨e, hchunk, hp⟩

/-- The incident is about one of the given names in `t`, which is reached through `level` calls, or
about a name in a template of the group that is called from there. -/
def Incident.Arises (group : Group) (t : Template) (level : Nat) (names : List (String × Nat))
    (i : Incident) : Prop :=
  (i.level = level ∧ i.template = t ∧ (i.fault.name, i.offset) ∈ names) ∨
    (level < i.level ∧ (∃ name, group.lookup name = some i.template) ∧
      (i.fault.name, i.offset) ∈ namesIn i.template.chunks)

theorem Incident.Arises.mono {more : List (String × Nat)} (h : i.Arises group t level names)
    (hsub : names ⊆ more) : i.Arises group t level more :=
  h.imp_left fun h => ⟨h.1, h.2.1, hsub h.2.2⟩

theorem Incident.Arises.of_body {name : String} {callee : Template}
    (hcallee : group.lookup name = some callee)
    (h : i.Arises group callee (level + 1) (namesIn callee.chunks)) :
    i.Arises group t level names := by
  rcases h with ⟨hlevel, rfl, hname⟩ | ⟨hlevel, hcalled⟩
  · exact .inr ⟨by omega, ⟨name, hcallee⟩, hname⟩
  · exact .inr ⟨by omega, hcalled⟩

/-- The last incident is about the expression itself. -/
theorem forall_arises_append {offset : Nat} {fault : RenderFault}
    (h : ∀ i ∈ incidents, i.Arises group t level names) :
    ∀ i ∈ incidents ++ [⟨t, level, offset, fault⟩],
      i.Arises group t level ((fault.name, offset) :: names) :=
  List.forall_mem_append.mpr ⟨fun i hi => (h i hi).mono (List.subset_cons_self _ _),
    List.forall_mem_singleton.mpr (.inl ⟨rfl, rfl, List.mem_cons_self⟩)⟩

mutual

theorem Attempts.arises {t : Template} {args : List (List Char)} {level : Nat} {e : Expression}
    {value : Option (List Char)} {incidents : List Incident}
    (h : Attempts group limit t args level e value incidents) :
    ∀ i ∈ incidents, i.Arises group t level e.names := by
  match h with
  | .literal _ => exact nofun
  | .param _ _ => exact nofun
  | .undefined _ _ =>
    exact List.forall_mem_singleton.mpr (.inl ⟨rfl, rfl, List.mem_singleton_self _⟩)
  | .argument _ hargs =>
    exact fun i hi => (hargs.arises i hi).mono (List.subset_cons_self _ _)
  | .noTemplate _ hargs _ => exact forall_arises_append hargs.arises
  | .wrongArity _ hargs _ _ => exact forall_arises_append hargs.arises
  | .tooDeep _ hargs _ _ _ => exact forall_arises_append hargs.arises
  | .call _ hargs hcallee _ _ hbody =>
    exact List.forall_mem_append.mpr
      ⟨fun i hi => (hargs.arises i hi).mono (List.subset_cons_self _ _),
        fun i hi => .of_body hcallee (hbody.arises i hi)⟩

theorem AttemptsAll.arises {t : Template} {args : List (List Char)} {level : Nat}
    {es : List Expression} {texts : Option (List (List Char))} {incidents : List Incident}
    (h : AttemptsAll group limit t args level es texts incidents) :
    ∀ i ∈ incidents, i.Arises group t level (Expression.namesAll es) := by
  match h with
  | .nil => exact nofun
  | .stop hfirst =>
    exact fun i hi => (hfirst.arises i hi).mono (List.subset_append_left _ _)
  | .cons hfirst hrest =>
    exact List.forall_mem_append.mpr
      ⟨fun i hi => (hfirst.arises i hi).mono (List.subset_append_left _ _),
        fun i hi => (hrest.arises i hi).mono (List.subset_append_right _ _)⟩

theorem Fills.arises {t : Template} {args : List (List Char)} {level : Nat}
    {chunks : List Chunk} {text : List Char} {incidents : List Incident}
    (h : Fills group limit t args level chunks text incidents) :
    ∀ i ∈ incidents, i.Arises group t level (namesIn chunks) := by
  match h with
  | .nil => exact nofun
  | .text _ hrest => exact fun i hi => hrest.arises i hi
  | .expression hfirst hrest =>
    rw [namesIn_expression]
    exact List.forall_mem_append.mpr
      ⟨fun i hi => (hfirst.arises i hi).mono (List.subset_append_left _ _),
        fun i hi => (hrest.arises i hi).mono (List.subset_append_right _ _)⟩

end

/-! ### Rendering -/

/-- The outcome and its messages are as `P` has it for some incidents. -/
def Rendered.Accounted {α : Type} (r : Rendered α) (P : α → List Incident → Prop) : Prop :=
  ∃ incidents, P r.value incidents ∧ r.messages = incidents.map Incident.message

/-- Calls from a template that is reached through `level` calls go as the rules have it. -/
def Calling.Attempts (c : Calling) (group : Group) (limit level : Nat) : Prop :=
  c.group = group ∧ c.limit = limit ∧
    match c.render? with
    | none => limit ≤ level
    | some render => level < limit ∧ ∀ callee texts, texts.length = callee.params.length →
      (render callee texts).Accounted (Fills group limit callee texts (level + 1) callee.chunks)

theorem Frame.argument?_eq_none_iff {name : String} :
    f.argument? name = none ↔ name ∉ f.template.params := by
  rw [argument?, Option.map_eq_none_iff, List.idxOf?_eq_none_iff]

theorem message_eq (hcalled : f.called = decide (0 < level)) (offset : Nat) (fault : RenderFault) :
    f.message offset fault = Incident.message ⟨f.template, level, offset, fault⟩ := by
  rw [Frame.message, hcalled, Incident.message, Incident.source?, Incident.position?]
  by_cases hlevel : level = 0
  · simp [hlevel]
  · simp [hlevel, Nat.pos_of_ne_zero hlevel]

theorem accounted_fault {offset : Nat} {fault : RenderFault}
    {P : Option (List Char) → List Incident → Prop} (hcalled : f.called = decide (0 < level))
    (h : P none (incidents ++ [⟨f.template, level, offset, fault⟩])) :
    Rendered.Accounted ⟨none, incidents.map Incident.message ++ [f.message offset fault]⟩ P := by
  refine ⟨_, h, ?_⟩
  rw [List.map_append, List.map_singleton, message_eq hcalled]

mutual

theorem accounted_evaluate (hc : c.Attempts group limit level)
    (hargs : f.args.length = f.template.params.length)
    (hcalled : f.called = decide (0 < level)) : (e : Expression) →
    (evaluate c f e).Accounted (Attempts group limit f.template f.args level e)
  | .literal text => ⟨[], .literal text, rfl⟩
  | .param name offset => by
    rw [evaluate]
    cases hname : f.argument? name with
    | some text => exact ⟨[], .param offset ((argument?_eq_some_iff hargs).mp hname), rfl⟩
    | none =>
      refine ⟨_, .undefined offset (Frame.argument?_eq_none_iff.mp hname), ?_⟩
      rw [message_eq hcalled]
      rfl
  | .call name es offset => by
    obtain ⟨incidents, hes, hmessages⟩ := accounted_evaluateAll hc hargs hcalled es
    obtain ⟨hgroup, hlimit, hrender⟩ := hc
    rw [evaluate]
    generalize evaluateAll c f es = values at hes hmessages
    obtain ⟨texts, messages⟩ := values
    obtain rfl : messages = _ := hmessages
    cases texts with
    | none => exact ⟨incidents, .argument offset hes, rfl⟩
    | some texts =>
      simp only [Calling.call, hgroup, hlimit]
      cases hcallee : group.lookup name with
      | none => exact accounted_fault hcalled (.noTemplate offset hes hcallee)
      | some callee =>
        by_cases harity : texts.length = callee.params.length
        · simp only [harity, ne_eq, not_true_eq_false, if_false]
          cases hc : c.render? with
          | none =>
            rw [hc] at hrender
            exact accounted_fault hcalled (.tooDeep offset hes hcallee harity hrender)
          | some render =>
            rw [hc] at hrender
            obtain ⟨more, hbody, hmore⟩ := hrender.2 callee texts harity
            refine ⟨incidents ++ more, .call offset hes hcallee harity hrender.1 hbody, ?_⟩
            rw [List.map_append, ← hmore]
        · simp only [ne_eq, harity, not_false_eq_true, if_true]
          exact accounted_fault hcalled (.wrongArity offset hes hcallee harity)

theorem accounted_evaluateAll (hc : c.Attempts group limit level)
    (hargs : f.args.length = f.template.params.length)
    (hcalled : f.called = decide (0 < level)) : (es : List Expression) →
    (evaluateAll c f es).Accounted (AttemptsAll group limit f.template f.args level es)
  | [] => ⟨[], .nil, rfl⟩
  | e :: es => by
    obtain ⟨incidents, he, hmessages⟩ := accounted_evaluate hc hargs hcalled e
    obtain ⟨more, hes, hmore⟩ := accounted_evaluateAll hc hargs hcalled es
    rw [evaluateAll]
    generalize evaluate c f e = first at he hmessages
    obtain ⟨value, messages⟩ := first
    cases value with
    | none => exact ⟨incidents, .stop he, hmessages⟩
    | some text =>
      refine ⟨incidents ++ more, .cons he hes, ?_⟩
      rw [List.map_append, ← hmore, ← hmessages]

end

theorem accounted_renderChunks (hc : c.Attempts group limit level)
    (hargs : f.args.length = f.template.params.length) (hcalled : f.called = decide (0 < level))
    (chunks : List Chunk) : (renderChunks c f chunks).Accounted
      (Fills group limit f.template f.args level chunks) := by
  induction chunks with
  | nil => exact ⟨[], .nil, rfl⟩
  | cons chunk chunks ih =>
    obtain ⟨more, hrest, hmore⟩ := ih
    cases chunk with
    | text cs => exact ⟨more, .text cs hrest, hmore⟩
    | expression e =>
      obtain ⟨incidents, he, hmessages⟩ := accounted_evaluate hc hargs hcalled e
      refine ⟨incidents ++ more, .expression he hrest, ?_⟩
      rw [List.map_append, ← hmore, ← hmessages, renderChunks]

theorem attempts_ofLevels (group : Group) {limit levels : Nat} (h : levels ≤ limit) :
    (Calling.ofLevels group limit levels).Attempts group limit (limit - levels) := by
  induction levels with
  | zero => exact ⟨rfl, rfl, Nat.le_refl _⟩
  | succ levels ih =>
    refine ⟨rfl, rfl, by omega, fun callee texts harity => ?_⟩
    rw [renderCalled_eq]
    have hbody := accounted_renderChunks (ih (by omega)) (f := ⟨callee, texts, true⟩) harity
      (by rw [eq_comm, decide_eq_true_eq]; omega) callee.chunks
    rwa [show limit - (levels + 1) + 1 = limit - levels by omega]

/-- A template without parameters has the text that the rules give it, unless there is an
incident. -/
theorem render_fills (group : Group) (limit : Nat) (hparams : t.params = []) :
    ∃ text incidents, Fills group limit t [] 0 t.chunks text incidents ∧
      render group limit t = (if incidents = [] then some (String.ofList text) else none,
        incidents.map Incident.message) := by
  have hcalls := attempts_ofLevels group (Nat.le_refl limit)
  rw [Nat.sub_self, ← outermost_eq] at hcalls
  have hargs : ([] : List (List Char)).length = t.params.length := by rw [hparams]; rfl
  obtain ⟨incidents, hfills, hmessages⟩ :=
    accounted_renderChunks hcalls (f := ⟨t, [], false⟩) hargs rfl t.chunks
  refine ⟨_, incidents, hfills, ?_⟩
  rw [render, hmessages]
  cases incidents <;> rfl

/-! ### Inline templates -/

/-- An inline template has a text exactly if there is no message. Otherwise there is one message,
which says why it cannot be compiled, or there is one for each incident of rendering it. An incident
in the inline template itself is placed at the name in the text that it is about, and one in a
template that is called has no place. -/
theorem renderInline_reports (group : Group) (limit : Nat) (source : String) :
    ((renderInline group limit source).1.isSome ↔ (renderInline group limit source).2 = []) ∧
    ((renderInline group limit source).1 = none →
      (∃ m, (renderInline group limit source).2 = [m] ∧ m.channel = .compile) ∨
        ((renderInline group limit source).2 ≠ [] ∧
          ∀ m ∈ (renderInline group limit source).2, m.channel = .runtime)) ∧
    match Template.compile inlineName [] source with
    | .error e => renderInline group limit source = (none, [e.message none source])
    | .ok t => ∃ text incidents, Fills group limit t [] 0 t.chunks text incidents ∧
        renderInline group limit source =
          (if incidents = [] then some (String.ofList text) else none,
            incidents.map Incident.message) ∧
        ∀ i ∈ incidents, (i.fault.name, i.offset) ∈ namesIn i.template.chunks ∧
          if i.level = 0 then
            i.template = t ∧ Expression.NameAt 0 source.toList (i.fault.name, i.offset) ∧
              i.message.position = some (.ofOffset source i.offset)
          else (∃ name, group.lookup name = some i.template) ∧ i.message.position = none := by
  cases hcompile : Template.compile inlineName [] source with
  | error e =>
    have hrender : renderInline group limit source = (none, [e.message none source]) := by
      rw [renderInline, hcompile]
    rw [hrender]
    exact ⟨by simp, fun _ => .inl ⟨_, rfl, rfl⟩, rfl⟩
  | ok t =>
    obtain ⟨chunks, hchunks, ht⟩ := bind_eq_ok hcompile
    obtain rfl := Except.ok.inj ht
    obtain ⟨text, incidents, hfills, hrender⟩ :=
      render_fills (t := ⟨inlineName, [], chunks, source⟩) group limit rfl
    have hinline : renderInline group limit source =
        (if incidents = [] then some (String.ofList text) else none,
          incidents.map Incident.message) := by
      rw [renderInline, hcompile]
      exact hrender
    rw [hinline]
    refine ⟨by cases incidents <;> simp, fun hnone => .inr ⟨?_, ?_⟩,
      text, incidents, hfills, rfl, fun i hi => ?_⟩
    · intro hnil
      rw [List.map_eq_nil_iff.mp hnil] at hnone
      simp at hnone
    · intro m hm
      obtain ⟨i, -, rfl⟩ := List.mem_map.mp hm
      rfl
    · obtain ⟨ps, hps, hjoined⟩ := compileBody_eq_ok_iff.mp hchunks
      rcases hfills.arises i hi with ⟨hlevel, htemplate, hname⟩ | ⟨hlevel, hcalled, hname⟩
      · obtain ⟨e, he, hnames⟩ := exists_of_mem_namesIn hname
        refine ⟨htemplate ▸ hname, ?_⟩
        rw [if_pos hlevel]
        refine ⟨htemplate, nameAt_of_itemsAt hps e (hjoined.mem_pieces he) _ hnames, ?_⟩
        rw [Incident.message, Incident.position?, if_pos hlevel, htemplate]
      · refine ⟨hname, ?_⟩
        rw [if_neg (by omega)]
        refine ⟨hcalled, ?_⟩
        rw [Incident.message, Incident.position?, if_neg (by omega)]

/-- A template that uses a name that is no parameter of it. -/
def faulty : Group :=
  .mk "faulty" ⟨[("bad", ⟨"bad", [], [.text ['x'], .expression (.param "y" 2)], "x<y>"⟩)]⟩ []

example : renderInline faulty 1 "<bad()><bad(z)>" =
    (none,
      [⟨.runtime, .plain, some "/bad", none, "attribute y isn't defined", none⟩,
        ⟨.runtime, .plain, none, some ⟨1, 12⟩, "attribute z isn't defined", none⟩]) := by
  decide +kernel

end GrammarTrees.Template
