import ShellSyntax.Parser.Session

/-!
Running a grammar. Results of rules are remembered by mark. A left-recursive rule starts from a
failure at its own mark and is run again as long as its match grows, each time meeting its
shorter match where it calls itself.
-/

namespace ShellSyntax

/-- What each rule does. -/
structure Grammar (R : RuleSet) where
  body : (rule : R.Rule) → Matcher R (Option (R.Node rule))

namespace Parser

variable {R : RuleSet} {α β σ : Type}

/-- Runs `body` until it yields a result, in at most `fuel` rounds. -/
def rounds (body : σ → Parse R (σ ⊕ β)) : (fuel : Nat) → σ → Parse R β
  | 0, _ => throw .endless
  | fuel + 1, state => do
    match ← body state with
    | .inl state => rounds body fuel state
    | .inr result => return result

def tooDeep : Parse R α := do
  let token ← Session.read TokenStream.peek
  Session.fail ⟨.syntactic, "too many nested parentheses", .range token.start token.stop⟩

/-- Runs `inner` one bracket deeper. The depth is taken back whatever happens. -/
def nest (inner : Parse R β) : Parse R β := do
  if Session.nestingLimit ≤ (← get).nesting then tooDeep
  else fun s =>
    match inner { s with nesting := s.nesting + 1 } with
    | .ok value s => .ok value { s with nesting := s.nesting - 1 }
    | .error e s => .error e { s with nesting := s.nesting - 1 }

/-- Runs a matcher; `callee` runs the rules it calls. -/
def exec (callee : (rule : R.Rule) → Parse R (Option (R.Node rule))) :
    {α : Type} → Matcher R α → Parse R α
  | _, .done value => fun s => .ok value s
  | _, .act action next => fun s =>
    match Session.perform action s with
    | .ok value s => exec callee (next value) s
    | .error e s => .error e s
  | _, .call rule next => fun s =>
    match callee rule s with
    | .ok node s => exec callee (next node) s
    | .error e s => .error e s
  | _, .deeper inner next => fun s =>
    match nest (exec callee inner) s with
    | .ok value s => exec callee (next value) s
    | .error e s => .error e s
  | _, .iterate body state next => fun s =>
    match rounds (fun state => exec callee (body state)) s.bound state s with
    | .ok value s => exec callee (next value) s
    | .error e s => .error e s

/-! ### Remembered results -/

/-- The remembered result of `rule` at `mark`, if there is one; the stream goes to its end. -/
def lookup? (rule : R.Rule) (mark : Mark) : Parse R (Option (Option (R.Node rule))) := fun s =>
  match s.memo[(R.name rule, mark)]? with
  | none => .ok none s
  | some entry =>
    if h : entry.rule = rule then
      let s := { s with stats := { s.stats with hits := s.stats.hits + 1 } }
      let s := s.note (.memo (R.name rule) mark entry.stop entry.node.isSome s.level)
      .ok (some (h ▸ entry.node)) (s.reset entry.stop)
    else .error (.memoClash (R.name rule)) s

def remember (rule : R.Rule) (mark : Mark) (node : Option (R.Node rule)) (stop : Mark)
    (s : Session R) : Session R :=
  { s with memo := s.memo.insert (R.name rule, mark) ⟨rule, node, stop⟩ }

def enterRule (rule : R.Rule) (mark : Mark) (s : Session R) : Session R :=
  let s := { s with stats := { s.stats with misses := s.stats.misses + 1 } }
  let s := s.note (.enter (R.name rule) mark s.level)
  { s with level := s.level + 1 }

def leaveRule (rule : R.Rule) (mark : Mark) (matched : Bool) (s : Session R) : Session R :=
  let s := { s with level := s.level - 1 }
  s.note (.exit (R.name rule) mark s.mark matched s.level)

/-- Runs a rule once at each mark. Where the rule is already being tried it fails. -/
def memoized (rule : R.Rule) (body : Parse R (Option (R.Node rule))) :
    Parse R (Option (R.Node rule)) := do
  let mark := (← get).mark
  match ← lookup? rule mark with
  | some node => return node
  | none => fun s =>
    let key := (R.name rule, mark)
    if s.active.contains key then .ok none s
    else
      match body (enterRule rule mark { s with active := s.active.insert key }) with
      | .error e s => .error e { s with active := s.active.erase key }
      | .ok node s =>
        let s := { s with active := s.active.erase key }
        let s := if node.isSome then s else s.reset mark
        .ok node (leaveRule rule mark node.isSome (remember rule mark node s.mark s))

/-- The longest match of a left-recursive rule at `mark` and where it ends, `best` being the
longest so far, in at most `fuel` runs. -/
def grow (rule : R.Rule) (mark : Mark) (body : Parse R (Option (R.Node rule))) :
    (fuel : Nat) → Option (R.Node rule) × Mark → Parse R (Option (R.Node rule) × Mark)
  | 0, _ => throw .endless
  | fuel + 1, best => fun s =>
    match body (s.reset mark) with
    | .error e s => .error e s
    | .ok node s =>
      let stop := s.mark
      if node.isNone || stop ≤ best.2 then .ok best s
      else
        let s := { s with stats := { s.stats with growSteps := s.stats.growSteps + 1 } }
        let s := s.note (.grow (R.name rule) mark stop s.level)
        grow rule mark body fuel (node, stop) (remember rule mark node stop s)

/-- Runs a left-recursive rule, growing its match from a failure. -/
def grown (rule : R.Rule) (body : Parse R (Option (R.Node rule))) :
    Parse R (Option (R.Node rule)) := do
  let mark := (← get).mark
  match ← lookup? rule mark with
  | some node => return node
  | none => fun s =>
    let s := remember rule mark none mark (enterRule rule mark s)
    match grow rule mark body (s.bound + 1) (none, mark) { s with growing := s.growing + 1 } with
    | .error e s => .error e { s with growing := s.growing - 1 }
    | .ok (node, stop) s =>
      let s := { s with growing := s.growing - 1 }.reset stop
      .ok node (leaveRule rule mark node.isSome s)

/-! ### Rules -/

/-- Runs a rule; rules call each other at most `fuel` deep. -/
def call (G : Grammar R) : (fuel : Nat) → (rule : R.Rule) → Parse R (Option (R.Node rule))
  | 0, _ => throw .endless
  | fuel + 1, rule =>
    let body := exec (call G fuel) (G.body rule)
    match R.policy rule with
    | .direct => body
    | .packrat => memoized rule body
    | .leftRecursive => grown rule body

/-- How deep rules can call each other: at one mark each rule but once. -/
def callDepth (s : Session R) : Nat :=
  (s.bound + 1) * (R.count + 1)

def runRule (G : Grammar R) (rule : R.Rule) : Parse R (Option (R.Node rule)) := do
  call G (callDepth (← get)) rule

def runMatcher (G : Grammar R) (m : Matcher R α) : Parse R α := do
  exec (call G (callDepth (← get))) m

/-! ### Parsing with a diagnosis -/

/-- What aborted a parse, as the user sees it. -/
def report (abort : Abort) (s : Session R) : SyntaxError × Session R :=
  match abort with
  | .syntactic error => (error, s)
  | .lexical e =>
    let diagnosis := s.stream.furthest
    let otherwise : Position := ⟨diagnosis.line, diagnosis.column⟩
    let (lineText, s) := s.line (e.position?.getD otherwise).line
    (.ofLexError e s.filename otherwise lineText, s)
  | .memoClash _ | .endless =>
    (⟨.syntactic, abort.message, s.filename, .origin, .origin, ""⟩, s)

/-- Starts over, looking for the cause of the failure. -/
def secondPass (s : Session R) : Session R :=
  { (s.note .secondPass).reset 0 with
    memo := ∅, active := ∅, level := 0, nesting := 0, diagnosing := true }

/-- The error for a program that matches nothing and shows no known cause. -/
def invalidSyntax (filename : String) (diagnosis : Furthest) : SyntaxError :=
  let place : Position := ⟨diagnosis.line, diagnosis.column⟩
  let (start, stop) :=
    match diagnosis.token with
    | some token => (token.start, token.stop)
    | none => (place, place)
  ⟨.syntactic, "invalid syntax", filename, start, stop, diagnosis.lineText⟩

/-- Parses from the rule `entry`. If it does not match, it is run once more to find the cause;
if none is found, the furthest token of the first run is to blame. -/
def parse (G : Grammar R) (entry : R.Rule) (s : Session R) :
    Except SyntaxError (R.Node entry) × Session R :=
  match runRule G entry s with
  | .ok (some tree) s => (.ok tree, s)
  | .error abort s =>
    let (error, s) := report abort s
    (.error error, s)
  | .ok none s =>
    let diagnosis := s.stream.furthest
    match runRule G entry (secondPass s) with
    | .error abort s =>
      let (error, s) := report abort s
      (.error error, s)
    | .ok _ s => (.error (invalidSyntax s.filename diagnosis), s)

end Parser

end ShellSyntax
