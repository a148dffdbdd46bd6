import ShellSyntax.Matcher.Basic
import ShellSyntax.Tree.Basic

/-! The rules of the language, and the ways of writing matchers over them. -/

namespace ShellSyntax.Language

inductive Rule where
  | program
  | soleExpr
  | stmtList
  | smallStmt
  | suite
  | elifBranch
  | exprOrSpread
  | bindingExpr
  | expr
  | orExpr
  | andExpr
  | notExpr
  | bitOrExpr
  | bitXorExpr
  | bitAndExpr
  | shiftedExpr
  | addExpr
  | mulExpr
  | signedExpr
  | awaitExpr
  | postfixExpr
  | atomicExpr
  | stringRun
  | commandExpr
  | targetItem
  /-- The inside of an f-string, whose escapes are kept if it is `raw`. -/
  | fstringInside (raw : Bool)
deriving DecidableEq, Repr

namespace Rule

abbrev Node : Rule → Type
  | program => Module
  | stmtList | suite => List Stmt
  | smallStmt => Stmt
  | elifBranch => StmtForm
  | fstringInside _ => List FormatPart
  | soleExpr | exprOrSpread | bindingExpr | expr | orExpr | andExpr | notExpr
  | bitOrExpr | bitXorExpr | bitAndExpr | shiftedExpr | addExpr | mulExpr | signedExpr | awaitExpr
  | postfixExpr | atomicExpr | stringRun | commandExpr | targetItem => Expr

def name : Rule → String
  | program => "file"
  | soleExpr => "eval"
  | stmtList => "statements"
  | smallStmt => "simple_stmt"
  | suite => "block"
  | elifBranch => "elif_stmt"
  | exprOrSpread => "star_expression"
  | bindingExpr => "named_expression"
  | expr => "expression"
  | orExpr => "disjunction"
  | andExpr => "conjunction"
  | notExpr => "inversion"
  | bitOrExpr => "bitwise_or"
  | bitXorExpr => "bitwise_xor"
  | bitAndExpr => "bitwise_and"
  | shiftedExpr => "shift_expr"
  | addExpr => "sum"
  | mulExpr => "term"
  | signedExpr => "factor"
  | awaitExpr => "await_primary"
  | postfixExpr => "primary"
  | atomicExpr => "atom"
  | stringRun => "strings"
  | commandExpr => "sub_procs"
  | targetItem => "star_target"
  | fstringInside true => "raw_fstring_parts"
  | fstringInside false => "fstring_parts"

/-- The binary operators and the postfix forms grow to the left. The entry rules and the small
rules that only call themselves are run each time. -/
def policy : Rule → Policy
  | program | soleExpr | elifBranch | targetItem | fstringInside _ => .direct
  | bitOrExpr | bitXorExpr | bitAndExpr | shiftedExpr | addExpr | mulExpr
  | postfixExpr => .leftRecursive
  | stmtList | smallStmt | suite | exprOrSpread | bindingExpr | expr | orExpr
  | andExpr | notExpr | signedExpr | awaitExpr | atomicExpr | stringRun | commandExpr => .packrat

def all : List Rule :=
  [program, soleExpr, stmtList, smallStmt, suite, elifBranch, exprOrSpread, bindingExpr, expr,
    orExpr, andExpr, notExpr, bitOrExpr, bitXorExpr, bitAndExpr, shiftedExpr, addExpr, mulExpr,
    signedExpr, awaitExpr, postfixExpr, atomicExpr, stringRun, commandExpr, targetItem,
    fstringInside true, fstringInside false]

theorem mem_all (r : Rule) : r ∈ all := by
  cases r <;> first | decide | (rename_i raw; cases raw <;> decide)

theorem name_injective {r s : Rule} (h : r.name = s.name) : r = s := by
  have table : ∀ r ∈ all, ∀ s ∈ all, r.name = s.name → r = s := by decide
  exact table r (mem_all r) s (mem_all s) h

end Rule

abbrev rules : RuleSet where
  Rule := Rule
  Node := Rule.Node
  decEq := inferInstance
  name := Rule.name
  policy := Rule.policy
  count := Rule.all.length

/-- Matchers over these rules. -/
abbrev Match := Matcher rules

open Matcher

variable {α : Type}

/-! ### Ways of matching -/

/-- Fails, back at `start`. -/
def giveUp (start : Mark) : Match (Option α) := do
  reset start
  return none

/-- Runs `inner`, told where it starts; the stream goes back there if it fails. -/
def attempt (inner : Mark → Match (Option α)) : Match (Option α) := do
  let start ← mark
  match ← inner start with
  | some value => return some value
  | none => giveUp start

/-- The expression of this form that starts at `start` and ends here. -/
def node (start : Mark) (form : ExprForm) : Match (Option Expr) := do
  return some ⟨form, ← spanSince start⟩

def stmtNode (start : Mark) (form : StmtForm) : Match (Option Stmt) := do
  return some ⟨form, ← spanSince start⟩

/-- Consumes the first of these spellings that stands here and yields what belongs to it. -/
def oneOf : List (String × α) → Match (Option α)
  | [] => return none
  | (spelling, value) :: others => do
    if ← accepts spelling then return some value
    oneOf others

/-! ### Calls -/

def stmtList : Match (Option (List Stmt)) := @Matcher.rule rules .stmtList

def smallStmt : Match (Option Stmt) := @Matcher.rule rules .smallStmt

def suite : Match (Option (List Stmt)) := @Matcher.rule rules .suite

def elifBranch : Match (Option StmtForm) := @Matcher.rule rules .elifBranch

def exprOrSpread : Match (Option Expr) := @Matcher.rule rules .exprOrSpread

def bindingExpr : Match (Option Expr) := @Matcher.rule rules .bindingExpr

def expr : Match (Option Expr) := @Matcher.rule rules .expr

def orExpr : Match (Option Expr) := @Matcher.rule rules .orExpr

def andExpr : Match (Option Expr) := @Matcher.rule rules .andExpr

def notExpr : Match (Option Expr) := @Matcher.rule rules .notExpr

def bitOrExpr : Match (Option Expr) := @Matcher.rule rules .bitOrExpr

def bitXorExpr : Match (Option Expr) := @Matcher.rule rules .bitXorExpr

def bitAndExpr : Match (Option Expr) := @Matcher.rule rules .bitAndExpr

def shiftedExpr : Match (Option Expr) := @Matcher.rule rules .shiftedExpr

def addExpr : Match (Option Expr) := @Matcher.rule rules .addExpr

def mulExpr : Match (Option Expr) := @Matcher.rule rules .mulExpr

def signedExpr : Match (Option Expr) := @Matcher.rule rules .signedExpr

def awaitExpr : Match (Option Expr) := @Matcher.rule rules .awaitExpr

def postfixExpr : Match (Option Expr) := @Matcher.rule rules .postfixExpr

def atomicExpr : Match (Option Expr) := @Matcher.rule rules .atomicExpr

def stringRun : Match (Option Expr) := @Matcher.rule rules .stringRun

def commandExpr : Match (Option Expr) := @Matcher.rule rules .commandExpr

def targetItem : Match (Option Expr) := @Matcher.rule rules .targetItem

def fstringInside (raw : Bool) : Match (Option (List FormatPart)) :=
  @Matcher.rule rules (.fstringInside raw)

end ShellSyntax.Language
