import Hocon.Config
import Hocon.Document.Grammar
import Hocon.Document.Item
import Hocon.Entries
import Hocon.Error
import Hocon.FileTree
import Hocon.Json
import Hocon.Loading
import Hocon.Number
import Hocon.Number.Decimal
import Hocon.Number.Double
import Hocon.Origin
import Hocon.Path
import Hocon.Path.Expression
import Hocon.PathMap
import Hocon.Properties
import Hocon.Report
import Hocon.Resolution
import Hocon.Resolution.Memory
import Hocon.Resolution.Peek
import Hocon.Span
import Hocon.Syntax
import Hocon.Text.Blank
import Hocon.Text.CodeRange
import Hocon.Text.Hidden
import Hocon.Text.Letter
import Hocon.Text.Line
import Hocon.Text.Numeral
import Hocon.Text.Quoted
import Hocon.Token
import Hocon.Token.Lexer
import Hocon.Token.Scan
import Hocon.Units
import Hocon.Validation
import Hocon.Value
import Hocon.Value.Edit
import Hocon.Value.Equality
import Hocon.Value.Join
import Hocon.Value.Merge
import Hocon.Value.Relocate
import Hocon.Value.Render
import Hocon.Value.Weight
import Hocon.Proofs.Ensures
import Hocon.Proofs.Parts
import Hocon.Proofs.WellFormed
import Hocon.Proofs.Settled
import Hocon.Proofs.Merging
import Hocon.Proofs.Marks
import Hocon.Proofs.Contract
import Hocon.Proofs.Resolving
import Hocon.Proofs.Safety
import Hocon.Proofs.Tokens
import Hocon.Proofs.Reading
import Hocon.Proofs.Including
import Hocon.Proofs.Scanning
import Hocon.Proofs.Lexing
import Hocon.Proofs.Spelling
import Hocon.Proofs.Rendering
import Hocon.Proofs.RoundTrip
import Hocon.Proofs.Content
import Hocon.Proofs.Standing
import Hocon.Proofs.Meaning
import Hocon.Proofs.Layers
import Hocon.Proofs.Targets
import Hocon.Proofs.Calm
import Hocon.Proofs.Tame
import Hocon.Proofs.Agreement
import Hocon.Proofs.Confluence
import Hocon.Proofs.Outcomes
import Hocon.Proofs.Grouping
import Hocon.Proofs.Depth
import Hocon.Proofs.History
import Hocon.Proofs.Towers
import Hocon.Proofs.Revising
import Hocon.Proofs.Views
import Hocon.Proofs.Stacks
import Hocon.Proofs.Chains
import Hocon.Proofs.Lookback
import Hocon.Proofs.Fieldwise
import Hocon.Proofs.Moving
import Hocon.Proofs.Pairings
import Hocon.Proofs.Lockstep
import Hocon.Proofs.Passage
import Hocon.Proofs.Alongside
import Hocon.Proofs.Relocation
import Hocon.Proofs.Superset
import Hocon.Proofs.Shapes
import Hocon.Proofs.Enclosing
import Hocon.Proofs.Passing
import Hocon.Proofs.JsonWriting
import Hocon.Proofs.Lossless
import Hocon.Proofs.Literals
import Hocon.Proofs.Locality
import Hocon.Proofs.Following
import Hocon.Proofs.Copies
import Hocon.Proofs.Continuing
import Hocon.Proofs.Appending
import Hocon.Proofs.Layering
import Hocon.Proofs.Acceptance
import Hocon.Proofs.Swapping
import Hocon.Proofs.PathText
import Hocon.Proofs.PlainPaths
import Hocon.Proofs.References
import Hocon.Proofs.Rewriting
import Hocon.Proofs.Relabelling
import Hocon.Proofs.Remarking
import Hocon.Proofs.Environment
import Hocon.Proofs.Hiding
import Hocon.Proofs.Vanishing
import Hocon.Proofs.Doubles
import Hocon.Proofs.Equality
import Hocon.Proofs.Lenient
import Hocon.Proofs.KeyOrder
import Hocon.Proofs.Joining
import Hocon.Proofs.Phrases
import Hocon.Proofs.Sense
import Hocon.Proofs.Comprehension
import Hocon.Proofs.Recognition
import Hocon.Proofs.Collecting
import Hocon.Proofs.Layout
import Hocon.Proofs.Nesting
import Hocon.Proofs.Verbatim
import Hocon.Proofs.SameShape
import Hocon.Proofs.Inquiring
import Hocon.Proofs.Pointing
import Hocon.Proofs.Naming
import Hocon.Proofs.Failing
import Hocon.Proofs.Requiring
import Hocon.Proofs.Deepening
import Hocon.Proofs.Captions
import Hocon.Proofs.Bearing
import Hocon.Proofs.Occurring
import Hocon.Proofs.Commenting
import Hocon.Proofs.Commuting
import Hocon.Proofs.Editing
import Hocon.Proofs.PathTrees
import Hocon.Proofs.Leaves
import Hocon.Proofs.Presence
import Hocon.Proofs.Findings
import Hocon.Proofs.Quantities
import Hocon.Proofs.Storing
