import NormalOrder.Main
import NormalOrder.Parsing.Recipe
import NormalOrder.Term.Enumerate
import NormalOrder.Proofs.Reduction.BoundNames
import NormalOrder.Proofs.Reduction.Final
import NormalOrder.Proofs.Nameless.Confluence
import NormalOrder.Proofs.Program.Execution
import NormalOrder.Proofs.Program.Nested
import NormalOrder.Proofs.Grammar.Reading
import NormalOrder.Proofs.Grammar.Derivation
import NormalOrder.Proofs.Parsing.Whole
import NormalOrder.Proofs.Grammar.Acceptance
import NormalOrder.Proofs.Grammar.RoundTrip
import NormalOrder.Proofs.Grammar.Brackets
import NormalOrder.Proofs.Program.Lines
import NormalOrder.Proofs.Reduction.Limits
import NormalOrder.Proofs.Program.RoundTrip
import NormalOrder.Proofs.Term.Inline
import NormalOrder.Proofs.Term.Outline
import NormalOrder.Proofs.Program.Printed
import NormalOrder.Proofs.Reduction.Relevance
import NormalOrder.Proofs.Program.Independence
import NormalOrder.Proofs.Reduction.FreeNames
import NormalOrder.Proofs.Reduction.Laziness
import NormalOrder.Proofs.Reduction.Termination
import NormalOrder.Proofs.Grammar.Layout
import NormalOrder.Proofs.Program.Errors
import NormalOrder.Proofs.Term.Enumerate
import NormalOrder.Proofs.Reduction.Reached
import NormalOrder.Proofs.Program.EmptyNames
import NormalOrder.Proofs.Reduction.Overflow
import NormalOrder.Proofs.Name.Chain
import NormalOrder.Proofs.Term.Substitute
import NormalOrder.Proofs.Parsing.Construction
import NormalOrder.Proofs.Parsing.Loop
import NormalOrder.Proofs.Program.Numbers
