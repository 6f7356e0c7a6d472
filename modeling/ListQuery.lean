import ListQuery.Arena
import ListQuery.Codec.Base64
import ListQuery.Codec.Deflate.Bits
import ListQuery.Codec.Deflate.Inflate
import ListQuery.Codec.Deflate.PrefixCode
import ListQuery.Codec.Deflate.Stored
import ListQuery.Codec.Hex
import ListQuery.Codec.Sha256
import ListQuery.Filter.Error
import ListQuery.Filter.Expr
import ListQuery.Filter.Expr.Conform
import ListQuery.Filter.Expr.Render
import ListQuery.Filter.Lexer
import ListQuery.Filter.Parse.Grammar
import ListQuery.Filter.Parse.Options
import ListQuery.Filter.Parse.State
import ListQuery.Filter.Position
import ListQuery.Filter.Quoted
import ListQuery.Filter.Resolve.Cause
import ListQuery.Filter.Resolve.Counted
import ListQuery.Filter.Resolve.Literal
import ListQuery.Filter.Resolve.Options
import ListQuery.Filter.Resolve.Resolver
import ListQuery.Filter.Resolve.Select
import ListQuery.Filter.Resolve.Value
import ListQuery.Filter.Store
import ListQuery.Filter.Token
import ListQuery.Filter.Token.Lexeme
import ListQuery.Filter.Token.Suffix
import ListQuery.Filter.Token.Tokenize
import ListQuery.Filter.Tree
import ListQuery.Filter.Tree.Leaves
import ListQuery.Filter.Tree.Written
import ListQuery.Json.Decode
import ListQuery.Json.Numeral
import ListQuery.Json.Raw
import ListQuery.Json.Value
import ListQuery.Number.Binary64
import ListQuery.Number.Shortest
import ListQuery.Number.Word
import ListQuery.OrderBy
import ListQuery.Page.Envelope
import ListQuery.Page.Token
import ListQuery.Proofs.Codec.Envelope
import ListQuery.Proofs.Json.Records
import ListQuery.Proofs.OrderBy.Filterable
import ListQuery.Proofs.OrderBy.Grammar
import ListQuery.Proofs.Page.Walk
import ListQuery.Proofs.Parse.Comparisons
import ListQuery.Proofs.Parse.Depth
import ListQuery.Proofs.Parse.Enclosed
import ListQuery.Proofs.Parse.Gets
import ListQuery.Proofs.Parse.Invert
import ListQuery.Proofs.Parse.Leaves
import ListQuery.Proofs.Parse.Loading
import ListQuery.Proofs.Parse.Nesting
import ListQuery.Proofs.Parse.Noted
import ListQuery.Proofs.Parse.Progress
import ListQuery.Proofs.Parse.Reading
import ListQuery.Proofs.Parse.Repeat
import ListQuery.Proofs.Parse.Reports
import ListQuery.Proofs.Parse.RoundTrip
import ListQuery.Proofs.Parse.Run
import ListQuery.Proofs.Parse.Spans
import ListQuery.Proofs.Parse.Spell
import ListQuery.Proofs.Parse.Takes
import ListQuery.Proofs.Parse.Tokens
import ListQuery.Proofs.Parse.Whole
import ListQuery.Proofs.Parse.Widen
import ListQuery.Proofs.Parse.Yield
import ListQuery.Proofs.Resolve.Balance
import ListQuery.Proofs.Resolve.Cost
import ListQuery.Proofs.Resolve.Defaults
import ListQuery.Proofs.Resolve.Depth
import ListQuery.Proofs.Resolve.Filters
import ListQuery.Proofs.Resolve.Indirect
import ListQuery.Proofs.Resolve.Integers
import ListQuery.Proofs.Resolve.Keyed
import ListQuery.Proofs.Resolve.Levels
import ListQuery.Proofs.Resolve.Literals
import ListQuery.Proofs.Resolve.Logic
import ListQuery.Proofs.Resolve.Meets
import ListQuery.Proofs.Resolve.Mirror
import ListQuery.Proofs.Resolve.Moved
import ListQuery.Proofs.Resolve.Optional
import ListQuery.Proofs.Resolve.Parentheses
import ListQuery.Proofs.Resolve.Paths
import ListQuery.Proofs.Resolve.Reads
import ListQuery.Proofs.Resolve.Strings
import ListQuery.Proofs.Resolve.Tasks
import ListQuery.Proofs.Resolve.Typing
import ListQuery.Proofs.Resolve.Unplaced
import ListQuery.Proofs.Resolve.Values
import ListQuery.Proofs.Resolve.Walks
import ListQuery.Proofs.Resolve.Whole
import ListQuery.Proofs.ResourceName.Fragments
import ListQuery.Proofs.ResourceName.Parents
import ListQuery.Proofs.Schema.Checked
import ListQuery.Proofs.Schema.Valid
import ListQuery.Proofs.Store.Graph
import ListQuery.Proofs.Store.Life
import ListQuery.Proofs.Store.Load
import ListQuery.Proofs.Store.Narrow
import ListQuery.Proofs.Store.Proper
import ListQuery.Proofs.Text.Classes
import ListQuery.Proofs.Text.Digits
import ListQuery.Proofs.Text.Pieces
import ListQuery.Proofs.Time.Agree
import ListQuery.Proofs.Time.Calendar
import ListQuery.Proofs.Time.Exact
import ListQuery.Proofs.Time.Moments
import ListQuery.Proofs.Time.Rendered
import ListQuery.Proofs.Time.Spellings
import ListQuery.Proofs.Time.Written
import ListQuery.Proofs.Token.Chain
import ListQuery.Proofs.Token.Classify
import ListQuery.Proofs.Token.Cover
import ListQuery.Proofs.Token.Enclose
import ListQuery.Proofs.Token.Local
import ListQuery.Proofs.Token.Number
import ListQuery.Proofs.Token.Seam
import ListQuery.Proofs.Token.Session
import ListQuery.Proofs.Tree.Height
import ListQuery.Proofs.Tree.Known
import ListQuery.Proofs.Tree.Moved
import ListQuery.Proofs.Tree.Operands
import ListQuery.Proofs.Tree.Parts
import ListQuery.Proofs.Tree.Roles
import ListQuery.Proofs.Tree.Shape
import ListQuery.ResourceName
import ListQuery.Schema.Build
import ListQuery.Schema.Field
import ListQuery.Schema.Kind
import ListQuery.Schema.Load
import ListQuery.Text.CharClass
import ListQuery.Text.Digits
import ListQuery.Text.Ranges
import ListQuery.Text.Shown
import ListQuery.Text.Split
import ListQuery.Time.Calendar
import ListQuery.Time.Duration
import ListQuery.Time.TimeUnit
import ListQuery.Time.Timestamp
