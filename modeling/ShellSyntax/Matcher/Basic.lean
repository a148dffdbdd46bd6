import ShellSyntax.Position
import ShellSyntax.SyntaxError
import ShellSyntax.TokenStream

/-!
Matchers: procedures that read a token stream, go back in it, and call the rules of a grammar.
They are data, and a matcher reaches the parser only through the steps listed here. What a
matcher does is therefore decided by its interpreters, and a fact about all matchers is proved
by one induction.
-/

namespace ShellSyntax

/-- How the parser runs a rule. -/
inductive Policy where
  /-- Each time anew, and without going back when it fails. -/
  | direct
  /-- Once at each mark; the result is remembered. -/
  | packrat
  /-- Again and again at one mark, while its match grows. -/
  | leftRecursive
deriving DecidableEq, Repr

/-- The rules of a grammar and what each of them yields. -/
structure RuleSet where
  Rule : Type
  Node : Rule → Type
  decEq : DecidableEq Rule
  /-- The name under which results are remembered. -/
  name : Rule → String
  policy : Rule → Policy
  /-- How many rules there are. -/
  count : Nat

instance (R : RuleSet) : DecidableEq R.Rule := R.decEq

/-- Where an error is. -/
inductive FaultPlace where
  | range (start stop : Position)
  /-- At the furthest token that was read. -/
  | furthest
deriving DecidableEq, Repr

/-- An error found in the program. -/
structure Fault where
  kind : ErrorKind
  message : String
  place : FaultPlace
deriving DecidableEq, Repr

/-- The steps that touch the parser, and what each of them yields. -/
inductive Action : Type → Type where
  | mark : Action Mark
  | reset (mark : Mark) : Action Unit
  | peek : Action Token
  | next : Action Token
  /-- From the token at `mark` to the last token consumed that is no layout. -/
  | spanSince (mark : Mark) : Action Span
  | lastToken? : Action (Option Token)
  /-- The parser looks for the cause of an error. -/
  | isDiagnosing : Action Bool
  | fail (fault : Fault) : Action Empty

inductive Matcher (R : RuleSet) : Type → Type 1 where
  | done {α : Type} (value : α) : Matcher R α
  | act {α β : Type} (action : Action β) (next : β → Matcher R α) : Matcher R α
  | call {α : Type} (rule : R.Rule) (next : Option (R.Node rule) → Matcher R α) : Matcher R α
  /-- Runs `inner` one bracket deeper. -/
  | deeper {α β : Type} (inner : Matcher R β) (next : β → Matcher R α) : Matcher R α
  /-- Runs `body` on one state after the other until it yields a result. -/
  | iterate {α β σ : Type} (body : σ → Matcher R (σ ⊕ β)) (state : σ) (next : β → Matcher R α) :
    Matcher R α

namespace Matcher

variable {R : RuleSet} {α β σ : Type}

protected def bind {α β : Type} : Matcher R α → (α → Matcher R β) → Matcher R β
  | .done value, f => f value
  | .act action next, f => .act action fun b => (next b).bind f
  | .call rule next, f => .call rule fun node => (next node).bind f
  | .deeper inner next, f => .deeper inner fun b => (next b).bind f
  | .iterate body state next, f => .iterate body state fun b => (next b).bind f

instance : Monad (Matcher R) where
  pure := .done
  bind := Matcher.bind

theorem bind_done (m : Matcher R α) : m.bind .done = m := by
  induction m <;> simp_all [Matcher.bind]

theorem bind_assoc {γ : Type} (m : Matcher R α) (f : α → Matcher R β) (g : β → Matcher R γ) :
    (m.bind f).bind g = m.bind fun a => (f a).bind g := by
  induction m <;> simp_all [Matcher.bind]

/-! ### Steps -/

def mark : Matcher R Mark :=
  .act .mark .done

def reset (mark : Mark) : Matcher R Unit :=
  .act (.reset mark) .done

def peek : Matcher R Token :=
  .act .peek .done

def next : Matcher R Token :=
  .act .next .done

def spanSince (mark : Mark) : Matcher R Span :=
  .act (.spanSince mark) .done

def lastToken? : Matcher R (Option Token) :=
  .act .lastToken? .done

def isDiagnosing : Matcher R Bool :=
  .act .isDiagnosing .done

def rule (r : R.Rule) : Matcher R (Option (R.Node r)) :=
  .call r .done

def inBrackets (inner : Matcher R α) : Matcher R α :=
  .deeper inner .done

def loop (body : σ → Matcher R (σ ⊕ β)) (state : σ) : Matcher R β :=
  .iterate body state .done

def again (state : σ) : Matcher R (σ ⊕ β) :=
  .done (.inl state)

def stop (result : β) : Matcher R (σ ⊕ β) :=
  .done (.inr result)

/-! ### Errors -/

def raise (kind : ErrorKind) (message : String) (place : FaultPlace) : Matcher R α :=
  .act (.fail ⟨kind, message, place⟩) fun impossible => impossible.elim

def raiseAt (message : String) (span : Span) : Matcher R α :=
  raise .syntactic message (.range span.start span.stop)

def raiseFurthest (message : String) : Matcher R α :=
  raise .syntactic message .furthest

/-! ### Tokens -/

/-- Consumes the next token if it is of this kind. -/
def ofKind (kind : TokenKind) : Matcher R (Option Token) := do
  if (← peek).kind == kind then return some (← next)
  return none

/-- Consumes the next token if it is an operator, a keyword or a word spelled `text`. -/
def spelled (text : String) : Matcher R (Option Token) := do
  let token ← peek
  if (token.kind == .op || token.kind == .name || token.kind == .word) && token.text == text then
    return some (← next)
  return none

/-- Consumes the next token if it is spelled `text`, and says whether it was. -/
def accepts (text : String) : Matcher R Bool := do
  return (← spelled text).isSome

def acceptsKind (kind : TokenKind) : Matcher R Bool := do
  return (← ofKind kind).isSome

/-- Consumes the next token if it is a name and no keyword. -/
def name : Matcher R (Option Token) := do
  let token ← peek
  if token.kind == .name && !Spelling.isKeyword token.text then return some (← next)
  return none

/-- Makes the failure of `found` an error. -/
def forced (found : Option α) (expectation : String) : Matcher R α :=
  match found with
  | some value => return value
  | none => raiseFurthest ("expected " ++ expectation)

/-! ### Combinations -/

/-- Whether `inner` matches here; the stream stays where it is. -/
def lookahead (inner : Matcher R (Option α)) : Matcher R Bool := do
  let start ← mark
  let found ← inner
  reset start
  return found.isSome

/-- As many matches as there are. One that consumes nothing is the last. -/
def many (inner : Matcher R (Option α)) : Matcher R (List α) :=
  loop (fun found => do
    let start ← mark
    match ← inner with
    | some item =>
      if start < (← mark) then again (found ++ [item]) else stop (found ++ [item])
    | none =>
      reset start
      stop found) []

/-- As many matches as there are, and at least one. -/
def many1 (inner : Matcher R (Option α)) : Matcher R (Option (List α)) := do
  match ← many inner with
  | [] => return none
  | items => return some items

/-- One or more matches between separators. A separator after the last is not consumed. -/
def separated (separator : String) (inner : Matcher R (Option α)) :
    Matcher R (Option (List α)) := do
  let some first ← inner | return none
  loop (fun found => do
    let start ← mark
    if !(← accepts separator) then stop (some found)
    else
      match ← inner with
      | some item => again (found ++ [item])
      | none =>
        reset start
        stop (some found)) [first]

/-- How an alternative ends. -/
inductive Attempt (α : Type) where
  | matched (value : α)
  | failed
  /-- The alternative was the right one, and no other is tried. -/
  | refused

/-- The first alternative that matches. -/
def firstOf : List (Matcher R (Attempt α)) → Matcher R (Option α)
  | [] => return none
  | alternative :: others => do
    let start ← mark
    match ← alternative with
    | .matched value => return some value
    | .failed =>
      reset start
      firstOf others
    | .refused =>
      reset start
      return none

end Matcher

end ShellSyntax
