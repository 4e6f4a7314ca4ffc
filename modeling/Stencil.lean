import Stencil.Text.Basic
import Stencil.Text.Blank
import Stencil.Text.Case
import Stencil.Number.Power
import Stencil.Number.Fixed
import Stencil.Number.Read
import Stencil.Template.Lexer
import Stencil.Template.Parser
import Stencil.Template.Names
import Stencil.Value.Store
import Stencil.Value.Equality
import Stencil.Render.Fault
import Stencil.Render.Operate
import Stencil.Render.Filter
import Stencil.Render.Environment
import Stencil.Literal
import Stencil.Report
import Stencil.Position
import Stencil.Log
import Stencil.Failure
import Stencil.Violation
import Stencil.Action
import Stencil.Templater.Registry
import Stencil.Proofs.Templater.UndefinedNames
import Stencil.Proofs.Templater.WrittenFields
import Stencil.Proofs.Templater.FieldValues
import Stencil.Proofs.Value.Saturation
import Stencil.Proofs.Value.Fuel
import Stencil.Proofs.Template.Parts
import Stencil.Proofs.Correspondence.Policy
import Stencil.Proofs.Correspondence.Basic
import Stencil.Proofs.Correspondence.Simulation
import Stencil.Proofs.Correspondence.Values
import Stencil.Proofs.Correspondence.Observe
import Stencil.Proofs.Correspondence.Change
import Stencil.Proofs.Correspondence.Access
import Stencil.Proofs.Correspondence.Operate
import Stencil.Proofs.Correspondence.Call
import Stencil.Proofs.Correspondence.Filter
import Stencil.Proofs.Correspondence.Scopes
import Stencil.Proofs.Correspondence.Evaluate
import Stencil.Proofs.Correspondence.Run
import Stencil.Proofs.Render.Escaping
import Stencil.Proofs.Correspondence.Growth
import Stencil.Proofs.Correspondence.Copy
import Stencil.Proofs.Correspondence.Acting
import Stencil.Proofs.Correspondence.Sections
import Stencil.Proofs.Templater.Isolation
import Stencil.Proofs.Template.Declared
import Stencil.Proofs.Correspondence.Shape
import Stencil.Proofs.Render.ReportedNames
import Stencil.Proofs.Template.LineNumbers
import Stencil.Proofs.Template.ReadBack
import Stencil.Proofs.Render.Getters
import Stencil.Proofs.Template.ParsingWork
import Stencil.Proofs.Templater.Outcomes
import Stencil.Proofs.Templater.Layers
import Stencil.Proofs.Templater.MacroOrder
import Stencil.Proofs.Number.Integers
import Stencil.Proofs.Value.PropertyOrder
import Stencil.Proofs.Literal.Spelling
import Stencil.Proofs.Literal.Reading
import Stencil.Proofs.Pointwise
import Stencil.Proofs.Giving
import Stencil.Proofs.Value.Quotable
import Stencil.Proofs.Value.Structure
import Stencil.Proofs.Template.LexingTags
import Stencil.Proofs.Template.TokenFraming
import Stencil.Proofs.Render.Reprinting
import Stencil.Proofs.Render.Containers
import Stencil.Proofs.Render.Bindings
import Stencil.Proofs.Render.KnownNames
import Stencil.Proofs.Render.Abstraction
import Stencil.Proofs.Template.BranchDeclarations
import Stencil.Proofs.Render.Methods
import Stencil.Proofs.Render.KeyedReads
import Stencil.Proofs.Render.LoopTurns
import Stencil.Proofs.Template.Marks
import Stencil.Proofs.Template.TagBodies
import Stencil.Proofs.Template.DashedTags
import Stencil.Proofs.Template.LineBreaks
import Stencil.Proofs.Template.BreakStyles
import Stencil.Proofs.Render.LiteralText
import Stencil.Proofs.Order
import Stencil.Proofs.Render.Comparisons
import Stencil.Proofs.Render.Sizes
import Stencil.Proofs.Sorting.Searching
import Stencil.Proofs.Sorting.Merging
import Stencil.Proofs.Sorting.Runs
import Stencil.Proofs.Value.Ranking
import Stencil.Proofs.Render.SortedItems
import Stencil.Proofs.Marking.Unmarked
import Stencil.Proofs.Marking.Stores
import Stencil.Proofs.Marking.Following
import Stencil.Proofs.Marking.Reaching
import Stencil.Proofs.Marking.Operating
import Stencil.Proofs.Marking.Calling
import Stencil.Proofs.Marking.Filtering
import Stencil.Proofs.Marking.Binding
import Stencil.Proofs.Marking.Loosened
import Stencil.Proofs.Marking.Transparency
import Stencil.Proofs.Marking.Watching
import Stencil.Proofs.Render.SafeMarks
import Stencil.Proofs.Render.Slices
import Stencil.Proofs.Value.Recounting
import Stencil.Proofs.Value.Equivalence
import Stencil.Proofs.Render.EqualItems
import Stencil.Proofs.Render.Formats
import Stencil.Proofs.Render.Replacement
import Stencil.Proofs.Number.Rounding
import Stencil.Proofs.Render.FlooredRemainders
import Stencil.Proofs.Literal.IntegerSpellings
import Stencil.Proofs.Templater.ItemFields
import Stencil.Proofs.Template.Failing
import Stencil.Proofs.Template.DottedChains
import Stencil.Proofs.Render.DottedIntegers
