import ShellSyntax.Language.CompoundStatement
import ShellSyntax.Language.Primary
import ShellSyntax.Parser.Run

/-! The grammar of the language: what each rule does. -/

namespace ShellSyntax.Language

/-- The grammar with its rules in order, from whole files down to atoms. -/
def body : (rule : Rule) → Match (Option rule.Node)
  | .program => programRule
  | .soleExpr => soleExprRule
  | .stmtList => stmtListRule
  | .smallStmt => smallStmtRule
  | .suite => suiteRule
  | .elifBranch => branch "elif"
  | .exprOrSpread => spreadOr expr
  | .bindingExpr => bindingExprRule
  | .expr => exprRule
  | .orExpr => boolOperands .or "or" andExpr
  | .andExpr => boolOperands .and "and" notExpr
  | .notExpr => notExprRule
  | .bitOrExpr => leftAssoc [.bitOr] bitOrExpr bitXorExpr
  | .bitXorExpr => leftAssoc [.bitXor] bitXorExpr bitAndExpr
  | .bitAndExpr => leftAssoc [.bitAnd] bitAndExpr shiftedExpr
  | .shiftedExpr => leftAssoc [.leftShift, .rightShift] shiftedExpr addExpr
  | .addExpr => leftAssoc [.add, .sub] addExpr mulExpr
  | .mulExpr => leftAssoc [.mult, .div, .floorDiv, .mod, .matMult] mulExpr signedExpr
  | .signedExpr => signedExprRule
  | .awaitExpr => awaitExprRule
  | .postfixExpr => postfixExprRule
  | .atomicExpr => atomicExprRule
  | .stringRun => stringRunRule
  | .commandExpr => commandExprRule
  | .targetItem => targetItemRule
  | .fstringInside raw => fstringInsideRule raw

def grammar : Grammar rules where
  body := body

end ShellSyntax.Language
