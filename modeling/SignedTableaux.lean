import SignedTableaux.NameSet
import SignedTableaux.NumberedName
import SignedTableaux.Text.Blank
import SignedTableaux.Text.Position
import SignedTableaux.Text.Uppercase
import SignedTableaux.Term.Basic
import SignedTableaux.Term.Binding
import SignedTableaux.Term.Disagreement
import SignedTableaux.Term.Printer
import SignedTableaux.Substitution.Basic
import SignedTableaux.Substitution.Parse
import SignedTableaux.Formula.Token
import SignedTableaux.Formula.Parser
import SignedTableaux.Formula.Grammar
import SignedTableaux.Formula.Parse
import SignedTableaux.Diagnostic.SyntaxError
import SignedTableaux.Diagnostic.Window
import SignedTableaux.Diagnostic.LanguageError
import SignedTableaux.Diagnostic.Excerpt
import SignedTableaux.Tableau.Signed
import SignedTableaux.Tableau.NodeId
import SignedTableaux.Tableau.NameSupply
import SignedTableaux.Tableau.ProofError
import SignedTableaux.Tableau.Expansion
import SignedTableaux.Tableau.Basic
import SignedTableaux.Tableau.Node
import SignedTableaux.Tableau.Outline
import SignedTableaux.Tableau.Graph
import SignedTableaux.Session.Basic
import SignedTableaux.Session.Journal
import SignedTableaux.Arena.Yield
import SignedTableaux.Arena.Basic
import SignedTableaux.Arena.Session
import SignedTableaux.Console.Basic
import SignedTableaux.Console.Transcript
import SignedTableaux.Main
import SignedTableaux.Proofs.FreshNames
import SignedTableaux.Proofs.Term.Names
import SignedTableaux.Proofs.Substitution.Lookup
import SignedTableaux.Proofs.Term.Connectives
import SignedTableaux.Proofs.Substitution.Nameless
import SignedTableaux.Proofs.Substitution.CaptureAvoidance
import SignedTableaux.Proofs.Substitution.CaptureFree
import SignedTableaux.Proofs.Formula.Reading
import SignedTableaux.Proofs.Formula.Derivation
import SignedTableaux.Proofs.Formula.Completeness
import SignedTableaux.Proofs.Formula.Scanning
import SignedTableaux.Proofs.Formula.Legible
import SignedTableaux.Proofs.Formula.RoundTrip
import SignedTableaux.Proofs.Formula.Language
import SignedTableaux.Proofs.Formula.Instances
import SignedTableaux.Proofs.Term.Binding
import SignedTableaux.Proofs.Tableau.Spot
import SignedTableaux.Proofs.Tableau.Numbering
import SignedTableaux.Proofs.Tableau.Entries
import SignedTableaux.Proofs.Tableau.Links
import SignedTableaux.Proofs.Tableau.Layout
import SignedTableaux.Proofs.Tableau.Offspring
import SignedTableaux.Proofs.Tableau.Persistence
import SignedTableaux.Proofs.Session.Run
import SignedTableaux.Proofs.Session.Representation
import SignedTableaux.Proofs.Session.Atomicity
import SignedTableaux.Proofs.Session.Justification
import SignedTableaux.Proofs.Session.Draw
import SignedTableaux.Proofs.Session.Termination
import SignedTableaux.Proofs.Session.Saturation
import SignedTableaux.Proofs.Session.Legibility
import SignedTableaux.Proofs.Session.Names
import SignedTableaux.Proofs.Session.Hygiene
import SignedTableaux.Proofs.Semantics.Structure
import SignedTableaux.Proofs.Semantics.Substitution
import SignedTableaux.Proofs.Semantics.Skolem
import SignedTableaux.Proofs.Session.Satisfiability
import SignedTableaux.Proofs.Session.Soundness
import SignedTableaux.Proofs.Session.History
import SignedTableaux.Proofs.Tableau.CommonAncestor
import SignedTableaux.Proofs.Tableau.Order
import SignedTableaux.Proofs.Tableau.Frame
import SignedTableaux.Proofs.Session.ClosedGoals
import SignedTableaux.Proofs.Session.Refusals
import SignedTableaux.Proofs.Session.Application
import SignedTableaux.Proofs.Session.Closures
import SignedTableaux.Proofs.Session.Symmetry
import SignedTableaux.Proofs.Console.Script
import SignedTableaux.Proofs.Tableau.Relabeling
import SignedTableaux.Proofs.ExchangedNames
import SignedTableaux.Proofs.Session.Independence
import SignedTableaux.Proofs.Substitution.FreeVariables
import SignedTableaux.Proofs.Term.FirstDifference
import SignedTableaux.Proofs.Text.Pieces
import SignedTableaux.Proofs.Term.Parse
import SignedTableaux.Proofs.Substitution.Entries
import SignedTableaux.Proofs.Substitution.RoundTrip
import SignedTableaux.Proofs.Substitution.Composition
import SignedTableaux.Proofs.IssuedNames
import SignedTableaux.Proofs.Tableau.Walks
import SignedTableaux.Proofs.Arena.Walks
import SignedTableaux.Proofs.Arena.Growth
import SignedTableaux.Proofs.Arena.Simulation
import SignedTableaux.Proofs.Arena.Links
import SignedTableaux.Proofs.Arena.Breaches
import SignedTableaux.Proofs.Tableau.Outline
import SignedTableaux.Proofs.Tableau.Graph
import SignedTableaux.Proofs.Substitution.RenamedBinders
import SignedTableaux.Proofs.Diagnostic.Spans
