import Lox.Main
import Lox.Proofs.Grammar.Run
import Lox.Proofs.Syntax.Phrase
import Lox.Proofs.Grammar.Reading
import Lox.Proofs.Syntax.Table
import Lox.Proofs.Grammar.Acceptance
import Lox.Proofs.Syntax.Spelling
import Lox.Proofs.Grammar.Inverse
import Lox.Proofs.Grammar.Extent
import Lox.Proofs.Syntax.Derivation
import Lox.Proofs.Grammar.Parses
import Lox.Proofs.Grammar.Statements
import Lox.Proofs.Grammar.Declarations
import Lox.Proofs.Grammar.Programs
import Lox.Proofs.Grammar.Yields
import Lox.Proofs.Grammar.Kept
import Lox.Proofs.Token.Lexeme
import Lox.Proofs.Token.Standing
import Lox.Proofs.Token.Modes
import Lox.Proofs.Token.Numeral
import Lox.Proofs.Token.LongestMatch
import Lox.Proofs.Token.Items
import Lox.Proofs.Mirror
import Lox.Proofs.Syntax.Lines
import Lox.Proofs.Grammar.Relabel
import Lox.Proofs.Grammar.Progress
import Lox.Proofs.Grammar.Recovery
import Lox.Proofs.Grammar.Hereditary
import Lox.Proofs.Grammar.Rejection
import Lox.Proofs.Grammar.Folding
import Lox.Proofs.Syntax.Unfolding
import Lox.Proofs.Eval.Semantics
import Lox.Proofs.Eval.Store
import Lox.Proofs.Eval.Run
import Lox.Proofs.Eval.Safety
import Lox.Proofs.Eval.Operators
import Lox.Proofs.Eval.Soundness
import Lox.Proofs.Eval.Totality
import Lox.Proofs.Eval.Task
import Lox.Proofs.Eval.Completeness
import Lox.Proofs.Session.Meaning
import Lox.Proofs.Token.Joining
import Lox.Proofs.Grammar.Joining
import Lox.Proofs.Eval.Pairing
import Lox.Proofs.Eval.Relabel
import Lox.Proofs.Eval.Returns
import Lox.Proofs.Session.Joining
import Lox.Proofs.Syntax.Enclosing
import Lox.Proofs.Eval.Watch
import Lox.Proofs.Eval.Scoping
import Lox.Proofs.Eval.Lexical
import Lox.Proofs.Session.Scoping
import Lox.Proofs.Session.Termination
import Lox.Proofs.Eval.Depth
import Lox.Proofs.Session.Depth
import Lox.Proofs.Eval.Hereditary
import Lox.Proofs.Eval.Encapsulation
import Lox.Proofs.Eval.Names
import Lox.Proofs.Eval.Sequence
import Lox.Proofs.Session.Names
import Lox.Proofs.Grammar.Reporting
import Lox.Proofs.Session.Returning
import Lox.Proofs.Token.Distribution
import Lox.Proofs.Token.Numbering
import Lox.Proofs.Token.Printing
import Lox.Proofs.Token.Calls
import Lox.Proofs.Eval.Likeness
import Lox.Proofs.Session.Layout
import Lox.Proofs.Eval.Nesting
import Lox.Proofs.Grammar.Lookahead
import Lox.Proofs.Grammar.Concatenation
import Lox.Proofs.Grammar.Viability
import Lox.Proofs.Grammar.Provenance
import Lox.Proofs.Eval.Provenance
import Lox.Proofs.Session.Blame
import Lox.Proofs.Session.Highlighting
import Lox.Proofs.Grammar.Deeper
import Lox.Proofs.Syntax.Entries
import Lox.Proofs.Syntax.Vocabulary
import Lox.Proofs.Grammar.Alone
import Lox.Proofs.Grammar.Unique
import Lox.Proofs.Grammar.Loops
import Lox.Proofs.Syntax.Forest
import Lox.Proofs.Syntax.Arena
import Lox.Proofs.Grammar.Tables
import Lox.Proofs.Grammar.Rounds
import Lox.Proofs.Grammar.Cursor
import Lox.Proofs.Grammar.Bounds
import Lox.Proofs.Token.Slices
import Lox.Proofs.Grammar.Offending
import Lox.Proofs.Session.Rendering
import Lox.Proofs.Grammar.Excess
import Lox.Proofs.Token.Reader
import Lox.Proofs.Token.Faultless
import Lox.Proofs.Number.Shortest
import Lox.Proofs.Number.Plain
import Lox.Proofs.Syntax.Parenthesized
import Lox.Proofs.Syntax.Legible
import Lox.Proofs.Grammar.Unambiguous
