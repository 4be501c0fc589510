import GrammarTrees.Template.Group

/-! Rendering templates. Arguments are rendered before the template they are passed to, which sees
nothing but its own parameters. An expression that cannot be rendered leaves a message; rendering
goes on with what follows it, except for the arguments of the call it stands in. -/

namespace GrammarTrees.Template

inductive RenderFault where
  | undefined (param : String)
  | noTemplate (name : String)
  | wrongArity (name : String) (passed declared : Nat)
  /-- The call would be nested more than `limit` levels deep. -/
  | tooDeep (name : String) (limit : Nat)
deriving DecidableEq, Repr

def RenderFault.text : RenderFault → String
  | undefined param => "attribute " ++ param ++ " isn't defined"
  | noTemplate name => "no such template: /" ++ name
  | wrongArity name passed declared =>
    "passed " ++ toString passed ++ " arg(s) to template /" ++ name ++ " with " ++
      toString declared ++ " declared arg(s)"
  | tooDeep name limit =>
    "template /" ++ name ++ " exceeds the maximum nesting depth of " ++ toString limit

/-- What is rendered, and the messages left on the way. -/
structure Rendered (α : Type) where
  value : α
  messages : List Message

/-- A template that is being rendered, its arguments, and whether it was called by another. -/
structure Frame where
  template : Template
  args : List (List Char)
  called : Bool

namespace Frame

/-- The message about a fault in the expression at byte `offset`. Only the outermost template has
places of its own; a called one is named. -/
def message (f : Frame) (offset : Nat) (fault : RenderFault) : Message :=
  if f.called then ⟨.runtime, .plain, some ("/" ++ f.template.name), none, fault.text, none⟩
  else ⟨.runtime, .plain, none, some (.ofOffset f.template.source offset), fault.text, none⟩

def argument? (f : Frame) (name : String) : Option (List Char) :=
  (f.template.params.idxOf? name).map fun i => (f.args[i]?).getD []

end Frame

/-- What rendering takes from its surroundings: the group in which names are looked up, the number
of levels that calls may nest, and how a called template is rendered, unless the levels are used
up. -/
structure Calling where
  group : Group
  limit : Nat
  render? : Option (Template → List (List Char) → Rendered (List Char))

namespace Calling

def call (c : Calling) (name : String) (args : List (List Char)) :
    Except RenderFault (Rendered (List Char)) :=
  match c.group.lookup name with
  | none => .error (.noTemplate name)
  | some callee =>
    if args.length ≠ callee.params.length then
      .error (.wrongArity name args.length callee.params.length)
    else
      match c.render? with
      | none => .error (.tooDeep name c.limit)
      | some render => .ok (render callee args)

end Calling

mutual

/-- The text of an expression, if it has one. -/
def evaluate (c : Calling) (f : Frame) : Expression → Rendered (Option (List Char))
  | .literal text => ⟨some text, []⟩
  | .param name offset =>
    match f.argument? name with
    | some text => ⟨some text, []⟩
    | none => ⟨none, [f.message offset (.undefined name)]⟩
  | .call name args offset =>
    let values := evaluateAll c f args
    match values.value with
    | none => ⟨none, values.messages⟩
    | some texts =>
      match c.call name texts with
      | .ok r => ⟨some r.value, values.messages ++ r.messages⟩
      | .error fault => ⟨none, values.messages ++ [f.message offset fault]⟩

/-- The texts of expressions, up to the first that has none. -/
def evaluateAll (c : Calling) (f : Frame) : List Expression → Rendered (Option (List (List Char)))
  | [] => ⟨some [], []⟩
  | e :: es =>
    let first := evaluate c f e
    match first.value with
    | none => ⟨none, first.messages⟩
    | some text =>
      let rest := evaluateAll c f es
      ⟨rest.value.map (text :: ·), first.messages ++ rest.messages⟩

end

/-- The text of chunks. An expression without a text adds nothing. -/
def renderChunks (c : Calling) (f : Frame) : List Chunk → Rendered (List Char)
  | [] => ⟨[], []⟩
  | .text cs :: chunks =>
    let rest := renderChunks c f chunks
    ⟨cs ++ rest.value, rest.messages⟩
  | .expression e :: chunks =>
    let first := evaluate c f e
    let rest := renderChunks c f chunks
    ⟨first.value.getD [] ++ rest.value, first.messages ++ rest.messages⟩

/-- Renders a called template; `levels` more levels of calls may follow. -/
def renderCalled (group : Group) (limit : Nat) :
    (levels : Nat) → Template → List (List Char) → Rendered (List Char)
  | 0, t, args => renderChunks ⟨group, limit, none⟩ ⟨t, args, true⟩ t.chunks
  | levels + 1, t, args =>
    renderChunks ⟨group, limit, some (renderCalled group limit levels)⟩ ⟨t, args, true⟩ t.chunks

/-- How the calls of the outermost template are rendered if calls may nest `limit` levels deep. -/
def Calling.outermost (group : Group) : (limit : Nat) → Calling
  | 0 => ⟨group, 0, none⟩
  | levels + 1 => ⟨group, levels + 1, some (renderCalled group (levels + 1) levels)⟩

/-- Renders a template that has no arguments. It has a text only if there is nothing to be said. -/
def render (group : Group) (limit : Nat) (t : Template) : Option String × List Message :=
  let r := renderChunks (.outermost group limit) ⟨t, [], false⟩ t.chunks
  (if r.messages.isEmpty then some (String.ofList r.value) else none, r.messages)

def inlineName : String := "action"

/-- Compiles and renders a template that is given as text. -/
def renderInline (group : Group) (limit : Nat) (source : String) : Option String × List Message :=
  match Template.compile inlineName [] source with
  | .error e => (none, [e.message none source])
  | .ok t => render group limit t

end GrammarTrees.Template
