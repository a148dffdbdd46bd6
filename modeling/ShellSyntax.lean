import ShellSyntax.Main
import ShellSyntax.Proofs.Language.ArgumentSplitting
import ShellSyntax.Proofs.Language.Arithmetic
import ShellSyntax.Proofs.Language.ArithmeticParsing
import ShellSyntax.Proofs.Language.Depths
import ShellSyntax.Proofs.Language.ExpressionDepths
import ShellSyntax.Proofs.Language.FieldTexts
import ShellSyntax.Proofs.Language.Files
import ShellSyntax.Proofs.Language.FormulaReading
import ShellSyntax.Proofs.Language.LeafTexts
import ShellSyntax.Proofs.Language.LineEnds
import ShellSyntax.Proofs.Language.Merging
import ShellSyntax.Proofs.Language.NestingLimit
import ShellSyntax.Proofs.Language.Operators
import ShellSyntax.Proofs.Language.OwnCloser
import ShellSyntax.Proofs.Language.ParameterLists
import ShellSyntax.Proofs.Language.RuleLevels
import ShellSyntax.Proofs.Language.SoundStatements
import ShellSyntax.Proofs.Language.Spacing
import ShellSyntax.Proofs.Language.Spans
import ShellSyntax.Proofs.Language.StarredGroups
import ShellSyntax.Proofs.Language.StatementDepths
import ShellSyntax.Proofs.Language.StringTokens
import ShellSyntax.Proofs.Language.Traces
import ShellSyntax.Proofs.Lexer.Blocks
import ShellSyntax.Proofs.Lexer.ClosingQuotes
import ShellSyntax.Proofs.Lexer.CommandWords
import ShellSyntax.Proofs.Lexer.Cover
import ShellSyntax.Proofs.Lexer.FieldColons
import ShellSyntax.Proofs.Lexer.FormulaTokens
import ShellSyntax.Proofs.Lexer.LineBackslashes
import ShellSyntax.Proofs.Lexer.LineEndTokens
import ShellSyntax.Proofs.Lexer.RawStrings
import ShellSyntax.Proofs.Lexer.Stacks
import ShellSyntax.Proofs.Lexer.Totality
import ShellSyntax.Proofs.Macros.BlockBodies
import ShellSyntax.Proofs.Macros.CallArguments
import ShellSyntax.Proofs.Macros.LineBodies
import ShellSyntax.Proofs.Macros.NestedCommands
import ShellSyntax.Proofs.Parser.Aborts
import ShellSyntax.Proofs.Parser.Buffer
import ShellSyntax.Proofs.Parser.Growth
import ShellSyntax.Proofs.Parser.LineCache
import ShellSyntax.Proofs.Parser.LogicalLines
import ShellSyntax.Proofs.Parser.Nesting
import ShellSyntax.Proofs.Parser.Retries
import ShellSyntax.Proofs.Parser.Undoing
import ShellSyntax.Proofs.Tree.Sound
import ShellSyntax.Proofs.Viewer.Highlight
import ShellSyntax.Proofs.Viewer.Place
import ShellSyntax.Sample
