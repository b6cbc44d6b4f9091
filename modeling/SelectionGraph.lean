import SelectionGraph.Proofs.Direct.Reading
import SelectionGraph.Proofs.Entity.Arises
import SelectionGraph.Proofs.Entity.Walkable
import SelectionGraph.Session.Basic
import SelectionGraph.Proofs.Document.Visited
import SelectionGraph.Proofs.Session.Failed
import SelectionGraph.Proofs.Session.Outcome
import SelectionGraph.Proofs.Session.Cycles
import SelectionGraph.Proofs.Direct.Shape
import SelectionGraph.Proofs.Direct.Landing
import SelectionGraph.Proofs.Session.Causes
import SelectionGraph.Proofs.Session.Rename
import SelectionGraph.Proofs.Session.Follows
import SelectionGraph.Proofs.Session.Afresh
import SelectionGraph.Proofs.Session.History
import SelectionGraph.Proofs.Session.Identifier
import SelectionGraph.Proofs.Ordered.Addressed
import SelectionGraph.Proofs.Session.References
import SelectionGraph.Proofs.Session.InProgress
import SelectionGraph.Proofs.Session.Sharing
import SelectionGraph.Proofs.Direct.Merging
import SelectionGraph.Proofs.Direct.Sites
import SelectionGraph.Proofs.Direct.Agreement
import SelectionGraph.Proofs.Language.OneLine
import SelectionGraph.Proofs.Entity.Reached
import SelectionGraph.Proofs.Entity.Shadowing
import SelectionGraph.Proofs.Session.Order
import SelectionGraph.Proofs.Inclusion.Folding
import SelectionGraph.Proofs.Entity.Merged
import SelectionGraph.Proofs.Direct.Spreads
import SelectionGraph.Proofs.Entity.Unchanged
import SelectionGraph.Proofs.Direct.Positions
import SelectionGraph.Proofs.FieldCollector
import SelectionGraph.Proofs.Session.Collected
import SelectionGraph.Proofs.Ordered.Join
import SelectionGraph.Proofs.Direct.Join
import SelectionGraph.Proofs.Entity.Transport
import SelectionGraph.Proofs.Direct.Bare
import SelectionGraph.Proofs.Session.Gathered
import SelectionGraph.Proofs.Session.Bare
import SelectionGraph.Proofs.Entity.Onward
import SelectionGraph.Proofs.Session.Agree
import SelectionGraph.Proofs.Document.Split
import SelectionGraph.Proofs.Session.Again
import SelectionGraph.Proofs.Session.Split
import SelectionGraph.Proofs.Session.Splitting
import SelectionGraph.Proofs.Text.Layout
import SelectionGraph.Proofs.Direct.Deferred
import SelectionGraph.Proofs.Direct.RootTypes
import SelectionGraph.Proofs.Session.EqualSpreads
import SelectionGraph.Proofs.Schema.Referenced
import SelectionGraph.Proofs.Session.Classified
import SelectionGraph.Proofs.Inclusion.DirectiveText
import SelectionGraph.Proofs.Direct.Laws
import SelectionGraph.Proofs.Keys.Found
