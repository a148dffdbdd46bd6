import ShellSyntax.Position
import ShellSyntax.Tree.Operator

/-! The tree of a program: expressions, commands and statements, each with its place. -/

namespace ShellSyntax

/-! ### Path searches -/

inductive SearchMethod where
  | regex
  | glob
  /-- A search function of the user. -/
  | custom (name : String)
deriving DecidableEq, Repr, Inhabited

structure PathSearch where
  kind : SearchMethod
  pattern : String
  /-- The search yields paths and not strings. -/
  asPaths : Bool
  /-- The pattern has replacement fields. -/
  formatted : Bool
deriving DecidableEq, Repr, Inhabited

namespace PathSearch

/-- The text between backticks, or all of it if one is missing. -/
def unticked (text : List Char) : List Char :=
  match text with
  | '\x60' :: rest => if rest.getLast? = some '\x60' then rest.dropLast else text
  | _ => text

/-- Reads a search with the letters before it. -/
def ofText (text : List Char) : PathSearch :=
  let letters := if text.contains '\x60' then text.takeWhile (· != '\x60') else []
  let pattern := String.ofList (unticked (text.drop letters.length))
  match letters with
  | '@' :: name => ⟨.custom (String.ofList name), pattern, false, false⟩
  | _ =>
    ⟨if letters.contains 'g' then .glob else .regex, pattern, letters.contains 'p',
      letters.contains 'f'⟩

end PathSearch

/-! ### Nodes -/

mutual

structure Expr where
  form : ExprForm
  span : Span

inductive ExprForm where
  | name (id : String)
  | constant (value : Constant)
  /-- An f-string. -/
  | fstring (parts : List FormatPart)
  /-- A path literal around a string or an f-string. -/
  | path (value : Expr)
  | pathSearch (search : PathSearch)
  | boolOp (op : BoolOp) (values : List Expr)
  | binding (target value : Expr)
  | binOp (left : Expr) (op : BinOp) (right : Expr)
  | unaryOp (op : UnaryOp) (operand : Expr)
  | lambda (args : Parameters) (body : Expr)
  | conditional (test body orelse : Expr)
  /-- A key is missing where a mapping is unpacked. -/
  | dict (keys : List (Option Expr)) (values : List Expr)
  | set (items : List Expr)
  | listComp (elt : Expr) (generators : List Comprehension)
  | setComp (elt : Expr) (generators : List Comprehension)
  | dictComp (key value : Expr) (generators : List Comprehension)
  | generator (elt : Expr) (generators : List Comprehension)
  | await (value : Expr)
  | yield (value : Option Expr)
  | yieldFrom (value : Expr)
  | compare (left : Expr) (ops : List CmpOp) (comparators : List Expr)
  | call (func : Expr) (args : List Expr) (keywords : List NamedArgument)
  /-- A call whose arguments are kept as raw text. -/
  | macroCall (func : Expr) (args : List String)
  | attribute (value : Expr) (attr : String)
  | subscript (value slice : Expr)
  | starred (value : Expr)
  | list (items : List Expr)
  | tuple (items : List Expr)
  | slice (lower upper step : Option Expr)
  /-- A variable of the environment by its name. -/
  | namedVariable (name : String)
  /-- A variable of the environment by an expression for its name. -/
  | computedVariable (value : Expr)
  | pipeline (command : Pipeline)
  | help (target : Expr) (detailed : Bool)

inductive FormatPart where
  | literal (text : String)
  /-- A replacement field; `debugText` is its own text if that is to be shown. -/
  | field (value : Expr) (debugText : Option String) (conversion : Option Char)
      (formatSpec : List FormatPart)

structure Comprehension where
  target : Expr
  iter : Expr
  ifs : List Expr
  isAsync : Bool

structure Parameter where
  name : String
  annotation : Option Expr
  default : Option Expr

structure Parameters where
  args : List Parameter
  vararg : Option Parameter
  kwonly : List Parameter
  kwarg : Option Parameter

/-- A named argument, or an unpacked mapping if it has no name. -/
structure NamedArgument where
  arg : Option String
  value : Expr

structure Pipeline where
  capture : CaptureMode
  stages : List PipelineStage
  /-- The command is not waited for. -/
  background : Bool

/-- One command of a pipeline and what joins it to the one before it. -/
structure PipelineStage where
  connector : Option StageLink
  argv : List CommandArg

inductive CommandArg where
  | word (text : String)
  /-- A string literal as it is written. -/
  | quoted (text : String)
  | namedVariable (name : String)
  | computedVariable (value : Expr)
  /-- The value of an expression. -/
  | hostExpr (value : Expr)
  | pipeline (command : Pipeline)
  | pathSearch (search : PathSearch)
  | redirect (text : String)
  /-- Raw text to the end of the command. -/
  | raw (text : String)
  /-- Pieces that touch and so make one argument. -/
  | concat (parts : List CommandArg)

end

def Parameters.none : Parameters :=
  ⟨[], .none, [], .none⟩

structure ImportedName where
  name : String
  asname : Option String
deriving DecidableEq, Repr, Inhabited

structure ContextItem where
  context : Expr
  target : Option Expr

mutual

structure Stmt where
  form : StmtForm
  span : Span

inductive StmtForm where
  | expr (value : Expr)
  | assign (targets : List Expr) (value : Expr)
  | augmented (target : Expr) (op : BinOp) (value : Expr)
  | annotated (target annotation : Expr) (value : Option Expr)
  | return (value : Option Expr)
  | pass
  | break
  | continue
  | delete (targets : List Expr)
  | raise (exc cause : Option Expr)
  | assert (test : Expr) (msg : Option Expr)
  | global (names : List String)
  | nonlocal (names : List String)
  | importNames (names : List ImportedName)
  /-- Names from a module that stands `level` packages up. -/
  | fromImport (module : Option String) (names : List ImportedName) (level : Nat)
  | if (test : Expr) (body orelse : List Stmt)
  | while (test : Expr) (body orelse : List Stmt)
  | for (target iter : Expr) (body orelse : List Stmt) (isAsync : Bool)
  | function (name : String) (args : Parameters) (body : List Stmt) (decorators : List Expr)
      (returns : Option Expr) (isAsync : Bool)
  | classDefinition (name : String) (bases : List Expr) (keywords : List NamedArgument)
      (body : List Stmt) (decorators : List Expr)
  | with (items : List ContextItem) (body : List Stmt) (isAsync : Bool)
  /-- A statement whose block is kept as raw text. -/
  | rawWith (items : List ContextItem) (block : String)
  | try (body : List Stmt) (handlers : List Handler) (orelse finalbody : List Stmt)

structure Handler where
  exception : Option Expr
  name : Option String
  body : List Stmt
  span : Span

end

structure Module where
  body : List Stmt

inductive Ast where
  | module (tree : Module)
  | expression (tree : Expr)

end ShellSyntax
