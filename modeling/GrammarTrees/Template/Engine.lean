import GrammarTrees.Template.Render

/-! Template engines. An engine loads groups from files and renders inline templates against them;
what it has to say it gives back as messages. -/

namespace GrammarTrees.Template

/-- An engine whose groups have type `γ`. -/
structure Engine (γ : Type) where
  /-- What the names of its group files end in. -/
  suffix : String
  load : (path : String) → Except LoadFault γ × List Message
  /-- Renders an inline template that was written in the file `file`. -/
  render : (group : γ) → (file template : String) → Option String × List Message

/-- The number of levels that calls may nest unless another number is given. -/
def defaultLimit : Nat := 128

/-- The engine for group files in a store. -/
def Engine.ofStore (store : Store) (limit : Nat) : Engine Group where
  suffix := groupSuffix
  load := loadGroup store
  render := fun group _ template => renderInline group limit template

end GrammarTrees.Template
