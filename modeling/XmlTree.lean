import XmlTree.Text.Chars
import XmlTree.Text.Slice
import XmlTree.Text.Scanner
import XmlTree.Text.Reference
import XmlTree.Text.Conversion
import XmlTree.Options
import XmlTree.Encoding.Basic
import XmlTree.Encoding.Segments
import XmlTree.Encoding.Units
import XmlTree.Encoding.Codec
import XmlTree.Number.Rounding
import XmlTree.Number.Binary64
import XmlTree.Number.Decimal
import XmlTree.Number.Text
import XmlTree.Number.Scalar
import XmlTree.Store.Slots
import XmlTree.Store.Text
import XmlTree.Document.Node
import XmlTree.Document.Place
import XmlTree.Document.Basic
import XmlTree.Document.Preorder
import XmlTree.Document.Tree
import XmlTree.Document.Lookup
import XmlTree.Document.Link
import XmlTree.Document.Edit
import XmlTree.Document.Copy
import XmlTree.Document.Content
import XmlTree.Load.Status
import XmlTree.Load.Event
import XmlTree.Load.Cursor
import XmlTree.Load.Doctype
import XmlTree.Load.Reader
import XmlTree.Load.Builder
import XmlTree.Load.Load
import XmlTree.Save.Piece
import XmlTree.Save.Markup
import XmlTree.Save.Save
import XmlTree.Query.Token
import XmlTree.Query.Expr
import XmlTree.Query.Value
import XmlTree.Query.Axis
import XmlTree.Query.NodeSet
import XmlTree.Query.Number
import XmlTree.Query.Grammar
import XmlTree.Query.Variables
import XmlTree.Query.Context
import XmlTree.Query.Function
import XmlTree.Query.Operator
import XmlTree.Query.Eval
import XmlTree.Query.Fold
import XmlTree.Query.Query
import XmlTree.Query.Cache
import XmlTree.Change
import XmlTree.Proofs.LinkedList
import XmlTree.Proofs.Slots
import XmlTree.Proofs.Forest
import XmlTree.Proofs.Outline
import XmlTree.Proofs.Records
import XmlTree.Proofs.Layout
import XmlTree.Proofs.Linking
import XmlTree.Proofs.Dropping
import XmlTree.Proofs.Growth
import XmlTree.Proofs.Copying
import XmlTree.Proofs.Editing
import XmlTree.Proofs.Reading
import XmlTree.Proofs.Asking
import XmlTree.Proofs.Loading
import XmlTree.Proofs.TreeShape
import XmlTree.Proofs.Ranks
import XmlTree.Proofs.Order
import XmlTree.Proofs.OrderLoading
import XmlTree.Proofs.DocumentOrder
import XmlTree.Proofs.Segmentation
import XmlTree.Proofs.Utf8
import XmlTree.Proofs.Output
import XmlTree.Proofs.Texts
import XmlTree.Proofs.Escaping
import XmlTree.Proofs.References
import XmlTree.Proofs.AttributeValues
import XmlTree.Proofs.Cursors
import XmlTree.Proofs.Canonical
import XmlTree.Proofs.Events
import XmlTree.Proofs.Showing
import XmlTree.Proofs.Keeping
import XmlTree.Proofs.Rebuilding
import XmlTree.Proofs.Built
import XmlTree.Proofs.Filling
import XmlTree.Proofs.Stepping
import XmlTree.Proofs.Walks
import XmlTree.Proofs.Climbing
import XmlTree.Proofs.Sequence
import XmlTree.Proofs.Axes
import XmlTree.Proofs.Sorting
import XmlTree.Proofs.Folding
import XmlTree.Proofs.Typing
import XmlTree.Proofs.Scoping
import XmlTree.Proofs.Evaluation
import XmlTree.Proofs.Answers
import XmlTree.Proofs.Captured
import XmlTree.Proofs.Surroundings
import XmlTree.Proofs.Correspondence
import XmlTree.Proofs.Equivariance
import XmlTree.Proofs.Constructs
import XmlTree.Proofs.Doctypes
import XmlTree.Proofs.Recognition
import XmlTree.Proofs.Derivation
import XmlTree.Proofs.Acceptance
import XmlTree.Proofs.Codecs
import XmlTree.Proofs.Sanitising
import XmlTree.Proofs.Writing
import XmlTree.Proofs.Containment
import XmlTree.Proofs.Narrowing
import XmlTree.Proofs.Declaring
import XmlTree.Proofs.Announcing
import XmlTree.Proofs.Formatting
import XmlTree.Proofs.RoundTrip
import XmlTree.Proofs.Reloading
import XmlTree.Proofs.Stability
import XmlTree.Proofs.Variables
import XmlTree.Proofs.TypeSafety
import XmlTree.Proofs.Phrases
import XmlTree.Proofs.Lexing
import XmlTree.Proofs.Spelling
import XmlTree.Proofs.Readers
import XmlTree.Proofs.Parsing
import XmlTree.Proofs.Printing
import XmlTree.Proofs.SlotLaws
import XmlTree.Proofs.Legibility
import XmlTree.Proofs.Generations
import XmlTree.Proofs.TreeView
import XmlTree.Proofs.Viewing
import XmlTree.Proofs.Refinement
import XmlTree.Proofs.Appending
import XmlTree.Proofs.Shifting
import XmlTree.Proofs.Resuming
import XmlTree.Proofs.Joining
import XmlTree.Proofs.Composing
import XmlTree.Proofs.Refusals
import XmlTree.Proofs.Wording
import XmlTree.Proofs.Duplicating
import XmlTree.Proofs.Cloning
import XmlTree.Proofs.Decoding
import XmlTree.Proofs.Agreement
import XmlTree.Proofs.Detection
import XmlTree.Proofs.Buffering
import XmlTree.Proofs.Holdings
import XmlTree.Proofs.Accounting
import XmlTree.Proofs.Omitting
import XmlTree.Proofs.Planting
import XmlTree.Proofs.Twins
import XmlTree.Proofs.Thinning
import XmlTree.Proofs.Comparing
import XmlTree.Proofs.Collating
import XmlTree.Proofs.Grafting
import XmlTree.Proofs.Saplings
import XmlTree.Proofs.Stems
import XmlTree.Proofs.Tending
import XmlTree.Proofs.Switches
import XmlTree.Proofs.Fusing
import XmlTree.Proofs.Parting
import XmlTree.Proofs.Contents
import XmlTree.Proofs.Embedding
import XmlTree.Proofs.Weeding
import XmlTree.Proofs.Integers
import XmlTree.Proofs.Heights
import XmlTree.Proofs.Bytes
import XmlTree.Proofs.ByteTokens
import XmlTree.Proofs.Watching
import XmlTree.Proofs.ByteTexts
import XmlTree.Proofs.OpenElements
import XmlTree.Proofs.ByteMarkup
import XmlTree.Proofs.ByteCursors
import XmlTree.Proofs.ByteDoctypes
import XmlTree.Proofs.ByteReading
import XmlTree.Proofs.ByteLoading
import XmlTree.Proofs.Naming
import XmlTree.Proofs.Paths
import XmlTree.Proofs.Traversal
import XmlTree.Proofs.Caching
import XmlTree.Proofs.Decimals
import XmlTree.Proofs.Positional
import XmlTree.Proofs.Pages
import XmlTree.Proofs.Ranges
