import SusSyntax.Diagnostics.Event
import SusSyntax.Grammar.Machine
import SusSyntax.Grammar.Rules
import SusSyntax.Highlight.Capture
import SusSyntax.Language.NamedId
import SusSyntax.Parse.Plain
import SusSyntax.Session
import SusSyntax.Tree.FieldMap
import SusSyntax.Proofs.Lexical.Stretch
import SusSyntax.Proofs.Grammar.Transitions
import SusSyntax.Proofs.Tree.Growth
import SusSyntax.Proofs.Stack.Sound
import SusSyntax.Proofs.Stack.Merge
import SusSyntax.Proofs.Stack.Walk
import SusSyntax.Proofs.Parse.Reduce
import SusSyntax.Proofs.Parse.Finish
import SusSyntax.Proofs.Parse.Recover
import SusSyntax.Proofs.Parse.Run
import SusSyntax.Proofs.Tree.Tiling
import SusSyntax.Proofs.Diagnostics.Outermost
import SusSyntax.Proofs.Grammar.Handles
import SusSyntax.Proofs.Grammar.Accepted
import SusSyntax.Proofs.Grammar.Goals
import SusSyntax.Proofs.Grammar.Expected
import SusSyntax.Proofs.Grammar.Reading
import SusSyntax.Proofs.Language.NamedId
import SusSyntax.Proofs.Grammar.Shown
import SusSyntax.Proofs.Tree.Shape
import SusSyntax.Proofs.Grammar.Brackets
import SusSyntax.Proofs.Grammar.Unambiguous
import SusSyntax.Proofs.Parse.Frames
import SusSyntax.Proofs.Lexical.TokenStart
import SusSyntax.Proofs.Lexical.BlockComment
import SusSyntax.Proofs.Text.Ascii
import SusSyntax.Proofs.Tree.Comments
import SusSyntax.Proofs.Grammar.Reducible
import SusSyntax.Proofs.Stack.Costs
import SusSyntax.Proofs.Grammar.Entries
import SusSyntax.Proofs.Lexical.Modes
import SusSyntax.Proofs.Parse.Succeeds
import SusSyntax.Proofs.Grammar.Progress
import SusSyntax.Proofs.Grammar.Completions
import SusSyntax.Proofs.Lexical.Spellings
import SusSyntax.Proofs.Tree.Leaves
import SusSyntax.Proofs.Parse.Line
import SusSyntax.Proofs.Parse.Advance
import SusSyntax.Proofs.Parse.Condense
import SusSyntax.Proofs.Parse.Fork
import SusSyntax.Proofs.Parse.Turn
import SusSyntax.Proofs.Parse.Closing
import SusSyntax.Proofs.Parse.Agreement
import SusSyntax.Proofs.Parse.Levels
import SusSyntax.Proofs.Tree.Precedence
import SusSyntax.Proofs.Text.Decode
import SusSyntax.Proofs.Lexical.Reading
import SusSyntax.Proofs.Lexical.Seams
import SusSyntax.Proofs.Lexical.Pieces
import SusSyntax.Proofs.Lexical.Insertions
import SusSyntax.Proofs.Tree.Skeleton
import SusSyntax.Proofs.Tree.Tips
import SusSyntax.Proofs.Parse.Takes
import SusSyntax.Proofs.Parse.Replay
import SusSyntax.Proofs.Parse.Marks
import SusSyntax.Proofs.Parse.Extras
import SusSyntax.Proofs.Tree.Places
import SusSyntax.Proofs.Diagnostics.Ranges
import SusSyntax.Proofs.Grammar.Braces
import SusSyntax.Proofs.Lexical.Solid
import SusSyntax.Proofs.Parse.Origins
import SusSyntax.Proofs.Tree.Phrases
import SusSyntax.Proofs.Parse.Truncation
import SusSyntax.Proofs.Grammar.Names
import SusSyntax.Proofs.Parse.Landings
import SusSyntax.Proofs.Parse.Folds
import SusSyntax.Proofs.Parse.Renaming
import SusSyntax.Proofs.Grammar.Lines
import SusSyntax.Proofs.Tree.Objects
import SusSyntax.Proofs.Parse.TopLevel
import SusSyntax.Proofs.Parse.Twins
import SusSyntax.Proofs.Parse.Composition
import SusSyntax.Proofs.Grammar.Slots
import SusSyntax.Proofs.Tree.Fields
import SusSyntax.Proofs.Lexical.CommentEnd
import SusSyntax.Proofs.Highlight.Captures
import SusSyntax.Proofs.Highlight.Definitions
import SusSyntax.Proofs.Grammar.Termination
import SusSyntax.Proofs.Lexical.Keywords
import SusSyntax.Proofs.Lexical.Attempts
import SusSyntax.Proofs.Literal.Written
import SusSyntax.Proofs.Parse.Retries
import SusSyntax.Proofs.Lexical.Names
