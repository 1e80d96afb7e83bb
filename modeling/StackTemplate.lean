import StackTemplate.Binding
import StackTemplate.Check.Cycles
import StackTemplate.Check.Formats
import StackTemplate.Check.Handlers
import StackTemplate.Compile
import StackTemplate.Decl
import StackTemplate.Dependency
import StackTemplate.Diagnostic.Annotated
import StackTemplate.Diagnostic.Basic
import StackTemplate.Diagnostic.Kind
import StackTemplate.Diagnostic.Window
import StackTemplate.Directory
import StackTemplate.Expr
import StackTemplate.Fault
import StackTemplate.Fold.Alias
import StackTemplate.Fold.Evaluation
import StackTemplate.Fold.Pass
import StackTemplate.Fold.Reduct
import StackTemplate.Fold.Reinline
import StackTemplate.Format.Extraction
import StackTemplate.Format.Placeholder
import StackTemplate.Format.Segment
import StackTemplate.Graph.Basic
import StackTemplate.Graph.Components
import StackTemplate.Graph.CyclePath
import StackTemplate.Graph.Finder
import StackTemplate.Interner
import StackTemplate.Name
import StackTemplate.Node
import StackTemplate.NodeId
import StackTemplate.Number.Basic
import StackTemplate.Number.Layout
import StackTemplate.Number.Reading
import StackTemplate.Number.Rounding
import StackTemplate.Number.Shortest
import StackTemplate.Resolution.Edges
import StackTemplate.Resolution.Finalizer
import StackTemplate.Resolution.Mention
import StackTemplate.SourceMap
import StackTemplate.Span
import StackTemplate.Table
import StackTemplate.Text.Attaching
import StackTemplate.Text.Blank
import StackTemplate.Text.Bytes
import StackTemplate.Text.Edges
import StackTemplate.Text.Quoted
import StackTemplate.Text.Split
import StackTemplate.Text.Unprintable
import StackTemplate.Text.Visible
import StackTemplate.Text.Width
import StackTemplate.Tree.Basic
import StackTemplate.Tree.Builder
import StackTemplate.Tree.Copy
import StackTemplate.Tree.Render
import StackTemplate.Tree.Substitute
import StackTemplate.Tree.Walk
import StackTemplate.Value
import StackTemplate.Proofs.Tree.Access
import StackTemplate.Proofs.Tree.Grounded
import StackTemplate.Proofs.Tree.Slots
import StackTemplate.Proofs.Tree.Listing
import StackTemplate.Proofs.Tree.WellFormed
import StackTemplate.Proofs.Tree.Copying
import StackTemplate.Proofs.Tree.Unfolding
import StackTemplate.Proofs.Tree.Substitution
import StackTemplate.Proofs.Tree.Staging
import StackTemplate.Proofs.Tree.Rewiring
import StackTemplate.Proofs.Fold.Realising
import StackTemplate.Proofs.Fold.Declared
import StackTemplate.Proofs.Fold.Term
import StackTemplate.Proofs.Fold.Contraction
import StackTemplate.Proofs.Fold.Passing
import StackTemplate.Proofs.Fold.Reinlining
import StackTemplate.Proofs.Fold.Meaning
import StackTemplate.Proofs.Fold.Preservation
import StackTemplate.Proofs.Graph.Ways
import StackTemplate.Proofs.Graph.Search
import StackTemplate.Proofs.Graph.Finder
import StackTemplate.Proofs.Graph.Cycles
import StackTemplate.Proofs.Fold.Circular
import StackTemplate.Proofs.Fold.Weight
import StackTemplate.Proofs.Fold.Termination
import StackTemplate.Proofs.Tree.Relabelling
import StackTemplate.Proofs.Tree.Grafting
import StackTemplate.Proofs.Binding
import StackTemplate.Proofs.Format.Normalizing
import StackTemplate.Proofs.Format.Occurrences
import StackTemplate.Proofs.Format.Completeness
import StackTemplate.Proofs.Resolution.Recording
import StackTemplate.Proofs.Resolution.Wiring
import StackTemplate.Proofs.Format.Reading
import StackTemplate.Proofs.Passes
import StackTemplate.Proofs.Format.Splicing
import StackTemplate.Proofs.Fold.Interpolation
import StackTemplate.Proofs.Graph.Components
import StackTemplate.Proofs.Text.Basic
import StackTemplate.Proofs.Resolution.Guards
import StackTemplate.Proofs.Fold.Spelling
import StackTemplate.Proofs.Tree.Stillness
import StackTemplate.Proofs.Fold.Irreducible
import StackTemplate.Proofs.Fold.Idempotence
import StackTemplate.Proofs.Format.Lexing
import StackTemplate.Proofs.Format.Extracting
import StackTemplate.Proofs.Format.Sense
import StackTemplate.Proofs.Format.Referring
import StackTemplate.Proofs.Naming
import StackTemplate.Proofs.Graph.Trails
import StackTemplate.Proofs.Graph.Shortest
import StackTemplate.Proofs.Graph.Predecessors
import StackTemplate.Proofs.Graph.CyclePath
import StackTemplate.Proofs.Tree.Checking
import StackTemplate.Proofs.Check.Cycles
import StackTemplate.Proofs.Compiling
import StackTemplate.Proofs.Reporting
import StackTemplate.Proofs.Check.Acyclic
import StackTemplate.Proofs.Resolution.Mirroring
import StackTemplate.Proofs.Resolution.NamesBelow
import StackTemplate.Proofs.Resolution.Finalizing
import StackTemplate.Proofs.Resolution.Covering
import StackTemplate.Proofs.Check.Handlers
import StackTemplate.Proofs.Tree.Counting
import StackTemplate.Proofs.Order.Matching
import StackTemplate.Proofs.Order.Reordering
import StackTemplate.Proofs.Order.Staging
import StackTemplate.Proofs.Order.Folding
import StackTemplate.Proofs.Order.Binding
import StackTemplate.Proofs.Fold.Normal
import StackTemplate.Proofs.Tree.Batch
import StackTemplate.Proofs.Text.Order
import StackTemplate.Proofs.Resolution.Appending
import StackTemplate.Proofs.Resolution.Dependencies
import StackTemplate.Proofs.Resolution.Retaining
import StackTemplate.Proofs.Format.Escaping
import StackTemplate.Proofs.Registering
import StackTemplate.Proofs.Resolution.Mentioning
import StackTemplate.Proofs.Resolution.Merging
import StackTemplate.Proofs.Fold.Greatest
import StackTemplate.Proofs.Fold.Queries
import StackTemplate.Proofs.Fold.Tracing
import StackTemplate.Proofs.Fold.Choices
import StackTemplate.Proofs.Fold.Warnings
import StackTemplate.Proofs.Tree.Detaching
import StackTemplate.Proofs.Tree.Visiting
