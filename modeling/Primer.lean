import Primer.Main
import Primer.Proofs.Grammar.Names
import Primer.Proofs.Grammar.Expressions
import Primer.Proofs.Grammar.Reading
import Primer.Proofs.Grammar.Readers
import Primer.Proofs.Tree.Layout
import Primer.Proofs.Tree.Order
import Primer.Proofs.Scope.Env
import Primer.Proofs.Token.Words
import Primer.Proofs.Scope.Agreement
import Primer.Proofs.Scope.Soundness
import Primer.Proofs.Scope.Lexical
import Primer.Proofs.Value.Fits
import Primer.Proofs.Run.Storage
import Primer.Proofs.Run.Triple
import Primer.Proofs.Run.Ready
import Primer.Proofs.Run.Expressions
import Primer.Proofs.Run.Statements
import Primer.Proofs.Run.Safety
import Primer.Proofs.Run.View
import Primer.Proofs.Run.Shape
import Primer.Proofs.Run.Bounds
import Primer.Proofs.Run.Points
import Primer.Proofs.Run.Trace
import Primer.Proofs.Run.Activations
import Primer.Proofs.Scope.Fresh
import Primer.Proofs.Run.Alike
import Primer.Proofs.Run.Leftovers
import Primer.Proofs.Scope.Symbols
import Primer.Proofs.Tree.Branches
import Primer.Proofs.Language.Phrases
import Primer.Proofs.Language.Outcome
import Primer.Proofs.Language.Taken
import Primer.Proofs.Language.Sentences
import Primer.Proofs.Language.Expected
import Primer.Proofs.Language.Completeness
import Primer.Proofs.Language.Cutting
import Primer.Proofs.Language.Truncated
import Primer.Proofs.Tree.Unlined
import Primer.Proofs.Language.Unparse
import Primer.Proofs.Language.Built
import Primer.Proofs.Language.Rereading
import Primer.Proofs.Language.Rebuilding
import Primer.Proofs.Language.Reparse
import Primer.Proofs.Scope.Surroundings
import Primer.Proofs.Run.Termination
import Primer.Proofs.Run.Recording
import Primer.Proofs.Run.Returns
import Primer.Proofs.History.Quiet
import Primer.Proofs.History.Traced
import Primer.Proofs.History.Standing
import Primer.Proofs.History.Visibility
import Primer.Proofs.History.Origins
import Primer.Proofs.History.Reprinting
import Primer.Proofs.Language.Precedence
import Primer.Proofs.Real.Finite
import Primer.Proofs.Run.Consoles
import Primer.Proofs.Run.Finiteness
import Primer.Proofs.Token.Spelling
import Primer.Proofs.Token.Lines
import Primer.Proofs.Value.Exact
import Primer.Proofs.Run.Constants
import Primer.Proofs.Run.Parts
import Primer.Proofs.Run.Addressed
import Primer.Proofs.Value.Ordering
import Primer.Proofs.Value.Equality
import Primer.Proofs.Tree.Walk
import Primer.Proofs.Tree.Edits
import Primer.Proofs.Tree.Retention
import Primer.Proofs.Tree.Siblings
import Primer.Proofs.Tree.Arrangement
import Primer.Proofs.Value.Input
import Primer.Proofs.History.Resolution
import Primer.Proofs.Run.Arithmetic
import Primer.Proofs.Language.Formulas
import Primer.Proofs.Language.Headers
import Primer.Proofs.Tree.Depth
import Primer.Proofs.Tree.Rendering
