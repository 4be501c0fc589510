import GrammarTrees.Diagnostic.Basic
import GrammarTrees.Diagnostic.Json
import GrammarTrees.Diagnostic.Problem
import GrammarTrees.Diagnostic.Snippet
import GrammarTrees.FileSystem.Path
import GrammarTrees.FileSystem.Store
import GrammarTrees.Forest.Basic
import GrammarTrees.Forest.Copy
import GrammarTrees.Forest.Edit
import GrammarTrees.Forest.Kind
import GrammarTrees.Forest.Operation
import GrammarTrees.Forest.Rewrite
import GrammarTrees.Forest.Traversal
import GrammarTrees.Grammar.Basic
import GrammarTrees.Grammar.GrammarSet
import GrammarTrees.Grammar.Literals
import GrammarTrees.Grammar.TokenOrigin
import GrammarTrees.Integration.Integrate
import GrammarTrees.Integration.NamedActions
import GrammarTrees.Integration.Rules
import GrammarTrees.Integration.Tokens
import GrammarTrees.LexerExtraction
import GrammarTrees.OrderedMap
import GrammarTrees.Pipeline
import GrammarTrees.Proofs.FileSystem.Paths
import GrammarTrees.Proofs.Forest.Copying
import GrammarTrees.Proofs.Forest.Edits
import GrammarTrees.Proofs.Forest.Fields
import GrammarTrees.Proofs.Forest.Gathering
import GrammarTrees.Proofs.Forest.NewTrees
import GrammarTrees.Proofs.Forest.Operations
import GrammarTrees.Proofs.Forest.Planting
import GrammarTrees.Proofs.Forest.Recursion
import GrammarTrees.Proofs.Forest.Replacing
import GrammarTrees.Proofs.Forest.Rewording
import GrammarTrees.Proofs.Forest.Rewriting
import GrammarTrees.Proofs.Forest.Subtrees
import GrammarTrees.Proofs.Forest.Traversals
import GrammarTrees.Proofs.Forest.Walks
import GrammarTrees.Proofs.Forest.WellFormed
import GrammarTrees.Proofs.Grammar.ImportOrder
import GrammarTrees.Proofs.Grammar.Imports
import GrammarTrees.Proofs.Grammar.LiteralNames
import GrammarTrees.Proofs.Grammar.Literals
import GrammarTrees.Proofs.Grammar.Loading
import GrammarTrees.Proofs.Grammar.Options
import GrammarTrees.Proofs.Grammar.TokenOrigins
import GrammarTrees.Proofs.Grammar.Transforms
import GrammarTrees.Proofs.Integration.Absorbing
import GrammarTrees.Proofs.Integration.ActionMerging
import GrammarTrees.Proofs.Integration.ActionPlaces
import GrammarTrees.Proofs.Integration.ActionRuns
import GrammarTrees.Proofs.Integration.ActionsTaken
import GrammarTrees.Proofs.Integration.Attribution
import GrammarTrees.Proofs.Integration.Carrying
import GrammarTrees.Proofs.Integration.Conservation
import GrammarTrees.Proofs.Integration.Imports
import GrammarTrees.Proofs.Integration.Integrated
import GrammarTrees.Proofs.Integration.Merging
import GrammarTrees.Proofs.Integration.NamedActions
import GrammarTrees.Proofs.Integration.Names
import GrammarTrees.Proofs.Integration.NewModes
import GrammarTrees.Proofs.Integration.OtherSections
import GrammarTrees.Proofs.Integration.Passes
import GrammarTrees.Proofs.Integration.Precedence
import GrammarTrees.Proofs.Integration.Redefinitions
import GrammarTrees.Proofs.Integration.Repeats
import GrammarTrees.Proofs.Integration.RuleSections
import GrammarTrees.Proofs.Integration.Runs
import GrammarTrees.Proofs.Integration.Scopes
import GrammarTrees.Proofs.Integration.Shifting
import GrammarTrees.Proofs.Integration.Start
import GrammarTrees.Proofs.Integration.Steadiness
import GrammarTrees.Proofs.Integration.Taking
import GrammarTrees.Proofs.LexerExtraction.CopiedNodes
import GrammarTrees.Proofs.LexerExtraction.Copies
import GrammarTrees.Proofs.LexerExtraction.Division
import GrammarTrees.Proofs.LexerExtraction.LexerOptions
import GrammarTrees.Proofs.LexerExtraction.LexerTree
import GrammarTrees.Proofs.LexerExtraction.LiteralRules
import GrammarTrees.Proofs.LexerExtraction.NoLexer
import GrammarTrees.Proofs.LexerExtraction.Promotion
import GrammarTrees.Proofs.LexerExtraction.References
import GrammarTrees.Proofs.LexerExtraction.Splitting
import GrammarTrees.Proofs.Template.BigStrings
import GrammarTrees.Proofs.Template.Bodies
import GrammarTrees.Proofs.Template.BodyErrors
import GrammarTrees.Proofs.Template.BodyGrammar
import GrammarTrees.Proofs.Template.BodyPlaces
import GrammarTrees.Proofs.Template.Code
import GrammarTrees.Proofs.Template.Definitions
import GrammarTrees.Proofs.Template.Expansion
import GrammarTrees.Proofs.Template.Expressions
import GrammarTrees.Proofs.Template.Incidents
import GrammarTrees.Proofs.Template.Loading
import GrammarTrees.Proofs.Template.Notations
import GrammarTrees.Proofs.Template.Offsets
import GrammarTrees.Proofs.Template.Once
import GrammarTrees.Proofs.Template.Positions
import GrammarTrees.Proofs.Template.Recovery
import GrammarTrees.Proofs.Template.Reloading
import GrammarTrees.Proofs.Template.Semantics
import GrammarTrees.Proofs.Template.Substitution
import GrammarTrees.Proofs.Text.Lexemes
import GrammarTrees.Proofs.Text.Quoted
import GrammarTrees.Proofs.TreeText.Descent
import GrammarTrees.Proofs.TreeText.Pieces
import GrammarTrees.Proofs.TreeText.Reading
import GrammarTrees.Proofs.TreeText.RoundTrip
import GrammarTrees.Proofs.TreeText.Texts
import GrammarTrees.Proofs.TreeText.Viability
import GrammarTrees.Template.Body
import GrammarTrees.Template.Engine
import GrammarTrees.Template.Expansion
import GrammarTrees.Template.Expression
import GrammarTrees.Template.Group
import GrammarTrees.Template.GroupText
import GrammarTrees.Template.Listener
import GrammarTrees.Template.Message
import GrammarTrees.Template.Render
import GrammarTrees.Template.SyntaxError
import GrammarTrees.Text.Blank
import GrammarTrees.Text.Lexeme
import GrammarTrees.Text.Numeral
import GrammarTrees.Text.Position
import GrammarTrees.Text.Quoted
import GrammarTrees.Text.Split
import GrammarTrees.Text.Uppercase
import GrammarTrees.Tree
import GrammarTrees.TreeText.Printer
import GrammarTrees.TreeText.Reader
import GrammarTrees.TreeText.Token
