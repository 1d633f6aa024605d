import TreePath.Config
import TreePath.Decimal.Double
import TreePath.Decimal.Layout
import TreePath.Decimal.Shortest
import TreePath.Direct
import TreePath.Error
import TreePath.Fields
import TreePath.Json.Basic
import TreePath.Json.Number
import TreePath.Json.Printer
import TreePath.Json.Reader
import TreePath.Patch
import TreePath.Path.Basic
import TreePath.Path.ChildKey
import TreePath.Path.Data
import TreePath.Path.Equality
import TreePath.Path.Fault
import TreePath.Path.Key
import TreePath.Path.Literal
import TreePath.Path.Nesting
import TreePath.Path.Parser
import TreePath.Path.Printer
import TreePath.Path.Slice
import TreePath.Path.Span
import TreePath.Path.Tag
import TreePath.Path.Token
import TreePath.Port.Basic
import TreePath.Port.Board
import TreePath.Port.Collection
import TreePath.Port.Edge
import TreePath.Port.TypeHint
import TreePath.Proofs.DeepMerge
import TreePath.Proofs.Fields
import TreePath.Proofs.Json.RoundTrip
import TreePath.Proofs.Json.Within
import TreePath.Proofs.Patch
import TreePath.Proofs.Path.Balance
import TreePath.Proofs.Path.Canonical
import TreePath.Proofs.Path.Continued
import TreePath.Proofs.Path.Delimiters
import TreePath.Proofs.Path.Edges
import TreePath.Proofs.Path.Equality
import TreePath.Proofs.Path.Folding
import TreePath.Proofs.Path.Hops
import TreePath.Proofs.Path.Image
import TreePath.Proofs.Path.Joined
import TreePath.Proofs.Path.Literals
import TreePath.Proofs.Path.Matching
import TreePath.Proofs.Path.Pieces
import TreePath.Proofs.Path.Positions
import TreePath.Proofs.Path.Printable
import TreePath.Proofs.Path.Quoting
import TreePath.Proofs.Path.Ranges
import TreePath.Proofs.Path.RoundTrip
import TreePath.Proofs.Path.Rules
import TreePath.Proofs.Path.Safety
import TreePath.Proofs.Path.Scan
import TreePath.Proofs.Path.Selectors
import TreePath.Proofs.Path.Shown
import TreePath.Proofs.Path.Slices
import TreePath.Proofs.Request
import TreePath.Proofs.Resolver.Cache
import TreePath.Proofs.Resolver.Calls
import TreePath.Proofs.Text.Digits
import TreePath.Proofs.Tree.Building
import TreePath.Proofs.Tree.Cells
import TreePath.Proofs.Tree.Children
import TreePath.Proofs.Tree.Descent
import TreePath.Proofs.Tree.Focus
import TreePath.Proofs.Tree.Grafting
import TreePath.Proofs.Tree.Growth
import TreePath.Proofs.Tree.Holds
import TreePath.Proofs.Tree.Insertion
import TreePath.Proofs.Tree.Leaves
import TreePath.Proofs.Tree.Links
import TreePath.Proofs.Tree.Location
import TreePath.Proofs.Tree.Mutation
import TreePath.Proofs.Tree.Ownership
import TreePath.Proofs.Tree.Pruned
import TreePath.Proofs.Tree.Snapshot
import TreePath.Proofs.Tree.Standing
import TreePath.Proofs.Tree.Steps
import TreePath.Proofs.Walk.Absolute
import TreePath.Proofs.Walk.Addressed
import TreePath.Proofs.Walk.Agreement
import TreePath.Proofs.Walk.Ascent
import TreePath.Proofs.Walk.Concrete
import TreePath.Proofs.Walk.Finishing
import TreePath.Proofs.Walk.Joining
import TreePath.Proofs.Walk.Limit
import TreePath.Proofs.Walk.Matching
import TreePath.Proofs.Walk.Mirror
import TreePath.Proofs.Walk.Moves
import TreePath.Proofs.Walk.Siblings
import TreePath.Proofs.Walk.Simulation
import TreePath.Proofs.Walk.Single
import TreePath.Proofs.Walk.Tuples
import TreePath.Proofs.Walk.Upward
import TreePath.Proofs.Walk.Views
import TreePath.Proofs.Write.Addressing
import TreePath.Proofs.Write.BackReferences
import TreePath.Proofs.Write.Commuting
import TreePath.Proofs.Write.Deletion
import TreePath.Proofs.Write.Ensures
import TreePath.Proofs.Write.Expansion
import TreePath.Proofs.Write.Failure
import TreePath.Proofs.Write.Frame
import TreePath.Proofs.Write.Handles
import TreePath.Proofs.Write.HeapWrites
import TreePath.Proofs.Write.Identities
import TreePath.Proofs.Write.Landing
import TreePath.Proofs.Write.Leaves
import TreePath.Proofs.Write.Merging
import TreePath.Proofs.Write.Names
import TreePath.Proofs.Write.Occurrence
import TreePath.Proofs.Write.Place
import TreePath.Proofs.Write.Pointwise
import TreePath.Proofs.Write.Positions
import TreePath.Proofs.Write.Preservation
import TreePath.Proofs.Write.ReadAfterWrite
import TreePath.Proofs.Write.Refinement
import TreePath.Proofs.Write.Removal
import TreePath.Proofs.Write.Repetition
import TreePath.Proofs.Write.Selection
import TreePath.Proofs.Write.Shrinking
import TreePath.Proofs.Write.Slot
import TreePath.Proofs.Write.Spreading
import TreePath.Proofs.Write.Tuples
import TreePath.Proofs.Write.Uncounted
import TreePath.Proofs.Write.UnionRemoval
import TreePath.Proofs.Write.Unsupported
import TreePath.Proofs.Write.Untripped
import TreePath.Request
import TreePath.Resolver.Basic
import TreePath.Resolver.Cache
import TreePath.Resolver.Data
import TreePath.Text.Alphanumeric
import TreePath.Text.Character
import TreePath.Tree.Access
import TreePath.Tree.Cursor
import TreePath.Tree.Graph
import TreePath.Tree.Heap
import TreePath.Tree.HeapUpdate
import TreePath.Tree.Numeric
import TreePath.Tree.Outcome
import TreePath.Tree.Update
import TreePath.Walk.Basic
import TreePath.Walk.Operation
import TreePath.Walk.Resolved
import TreePath.Walk.Steps
import TreePath.Write.Basic
import TreePath.Write.Enter
import TreePath.Write.Settle
import TreePath.Write.Target
