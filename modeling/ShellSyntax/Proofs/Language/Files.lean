import ShellSyntax.Program
import ShellSyntax.Proofs.Parser.Reread
import ShellSyntax.Proofs.Text.Bytes

/-!
A text and a file of its bytes are parsed alike. Only the line that an error shows may be missing
from what is said of the text: the file can be read again, the text cannot.
-/

namespace ShellSyntax

open Outcome

namespace Program

/-- The bytes of a text, as a file holds them. -/
def bytesOf (text : String) : List UInt8 :=
  text.toUTF8.data.toList

theorem parse_told {path : String} {lines : List (List Char)} (mode : ParseMode)
    (s : ProgramSession) :
    Told lines (parse mode (s.withOrigin none)).1
      (parse mode (s.withOrigin (some ⟨path, some lines⟩))).1 := by
  cases mode with
  | exec => exact (parse_retold Language.grammar .program s).map Ast.module
  | eval => exact (parse_retold Language.grammar .soleExpr s).map Ast.expression

theorem parseFile_eq (path text : String) {options : ParseOptions}
    (hnamed : options.filename ≠ ParseOptions.unnamed) :
    parseFile path (some (.ofBytes (bytesOf text))) options =
      (parse options.mode ((ofString text options).withOrigin
        (some ⟨path, some (Text.splitLines text.toList)⟩))).1 := by
  have hsource : Source.ofBytes (bytesOf text) = .ofString text := Source.ofBytes_toUTF8 text
  have hlines : (Source.ofString text).lines?.toOption = some (Text.splitLines text.toList) := by
    rw [Source.ofString, Source.lines?_ofText]
    rfl
  simp only [parseFile, ofFile, hsource, if_neg hnamed, TokenStream.ofFile, hlines]
  rfl

/-- A text under a name of its own and a readable file of its bytes are parsed to the same tree,
or rejected with the same error, except that the text's may lack the line it is on. -/
theorem parseFile_like_parseText (path text : String) (options : ParseOptions)
    (hnamed : options.filename ≠ ParseOptions.unnamed) :
    Told (Text.splitLines text.toList) (parseText text options)
      (parseFile path (some (.ofBytes (bytesOf text))) options) := by
  rw [parseFile_eq path text hnamed]
  exact parse_told options.mode (ofString text options)

theorem parseFile_like_parseText_listing :
    let named : ParseOptions := { ParseOptions.default with filename := "listing" }
    named.filename ≠ ParseOptions.unnamed ∧
      Told (Text.splitLines "x = $(ls)\n".toList) (parseText "x = $(ls)\n" named)
        (parseFile "a.xsh" (some (.ofBytes (bytesOf "x = $(ls)\n"))) named) := by
  have hnamed : "listing" ≠ ParseOptions.unnamed := by decide
  exact ⟨hnamed, parseFile_like_parseText "a.xsh" _ _ hnamed⟩

end Program

/-! ### Sources that fail at once -/

theorem TokenStream.peek_unreadable {s : TokenStream} {e : LexError} {l : Lexer}
    (hstart : s.index = s.tokens.size) (hbound : s.lexer.bound ≠ 0)
    (hpull : Lexer.pull s.lexer = .error e l) : s.peek = .error e { s with lexer := l } := by
  obtain ⟨fuel, hfuel⟩ := Nat.exists_eq_succ_of_ne_zero hbound
  simp only [peek, run_bind, run_get, if_pos hstart, hfuel, fill, readRaw, hpull]

namespace Parser

section Aborting

variable {R : RuleSet} {α β : Type} {callee : (r : R.Rule) → Parse R (Option (R.Node r))}
  {s t : Session R} {abort : Abort}

theorem exec_bind_error {m : Matcher R α} {f : α → Matcher R β}
    (h : exec callee m s = .error abort t) : exec callee (m.bind f) s = .error abort t := by
  rw [exec_bind, h]
  rfl

theorem exec_mark {f : Mark → Matcher R β} :
    exec callee (Matcher.mark.bind f) s = exec callee (f s.mark) s :=
  rfl

theorem exec_many_error {inner : Matcher R (Option α)} (hbound : s.bound ≠ 0)
    (h : exec callee inner s = .error abort t) :
    exec callee (Matcher.many inner) s = .error abort t := by
  obtain ⟨fuel, hfuel⟩ := Nat.exists_eq_succ_of_ne_zero hbound
  simp only [Matcher.many, Matcher.loop, exec_iterate, hfuel, rounds, run_bind]
  simp only [bind, exec_mark, exec_bind_error h]
  rfl

theorem memoized_error {r : R.Rule} {body : Parse R (Option (R.Node r))} (hmemo : s.memo = ∅)
    (hactive : s.active = ∅)
    (h : body (enterRule r s.mark { s with active := s.active.insert (R.name r, s.mark) }) =
      .error abort t) :
    memoized r body s =
      .error abort { t with active := t.active.erase (R.name r, s.mark) } := by
  simp only [memoized, run_bind, run_get, lookup?, hmemo, Std.HashMap.getElem?_empty, hactive,
    Std.HashSet.contains_empty] at h ⊢
  simp only [h, Bool.false_eq_true, if_false]

end Aborting

section Unreadable

variable {e : LexError} {t : TokenStream} {s : ProgramSession}
  {callee : (r : Language.Rule) → Parse Language.rules (Option r.Node)}

theorem stmtOrLine_unreadable (hpeek : s.stream.peek = .error e t) :
    exec callee Language.stmtOrLine s = .error (.lexical e) { s with stream := t } := by
  have hread : Session.perform .peek s = .error (.lexical e) { s with stream := t } := by
    simp only [Session.perform, Session.read, hpeek]
  apply exec_bind_error
  simp only [Language.blockStmt, Language.attempt, bind]
  rw [exec_mark]
  apply exec_bind_error
  apply exec_bind_error
  rw [Matcher.peek, exec_act, hread]
  rfl

theorem stmtList_unreadable (hbound : s.bound ≠ 0) (hpeek : s.stream.peek = .error e t) :
    exec callee Language.stmtListRule s = .error (.lexical e) { s with stream := t } := by
  apply exec_bind_error
  apply exec_bind_error
  exact exec_many_error hbound (stmtOrLine_unreadable hpeek)

theorem program_unreadable {stream : TokenStream} (filename : String) (traceLimit : Option Nat)
    (hbound : stream.lexer.bound ≠ 0) (hpeek : stream.peek = .error e t) :
    ∃ u : ProgramSession, runRule Language.grammar Language.Rule.program
        (.ofStream stream filename traceLimit) = .error (.lexical e) u ∧
      u.stream = t ∧ u.filename = filename := by
  let start : ProgramSession := .ofStream stream filename traceLimit
  obtain ⟨fuel, hfuel⟩ : ∃ fuel, callDepth start = fuel + 2 := by
    have hdepth : 2 ≤ (start.bound + 1) * (Language.Rule.all.length + 1) :=
      Nat.mul_le_mul (Nat.le_add_left 1 start.bound) (show 2 ≤ _ by decide)
    exact Nat.exists_eq_add_of_le' hdepth
  have hlist : ∃ u : ProgramSession, call Language.grammar (fuel + 1) Language.Rule.stmtList start =
      .error (.lexical e) u ∧ u.stream = t ∧ u.filename = filename :=
    ⟨_, memoized_error rfl rfl (stmtList_unreadable hbound hpeek), rfl, rfl⟩
  obtain ⟨u, hlist, hu⟩ := hlist
  refine ⟨u, ?_, hu⟩
  change call Language.grammar (callDepth start) Language.Rule.program start = _
  rw [hfuel]
  apply exec_bind_error
  rw [Language.stmtList, Matcher.rule, exec_call, hlist]
  rfl

end Unreadable

end Parser

namespace Program

theorem parse_unreadable {text : String} {options : ParseOptions} {e : LexError} {l : Lexer}
    (hpull : Lexer.pull (.ofSource (.ofString text) options.tabSize) = .error e l)
    (origin : Option Origin) :
    (parse .exec ((ofString text options).withOrigin origin)).1 =
      .error (.ofLexError e options.filename ⟨1, 0⟩
        ((TokenStream.ofLexer l origin).line (e.position?.getD ⟨1, 0⟩).line).1) := by
  let stream := TokenStream.ofLexer (.ofSource (.ofString text) options.tabSize) origin
  have hbound : stream.lexer.bound ≠ 0 := Nat.succ_ne_zero _
  obtain ⟨u, hrun, hstream, hname⟩ := Parser.program_unreadable options.filename options.traceLimit
    hbound (TokenStream.peek_unreadable rfl hbound hpull)
  change (Except.map Ast.module (Parser.parse Language.grammar Language.Rule.program
    (.ofStream stream options.filename options.traceLimit)).1) = _
  simp only [Parser.parse, hrun, Parser.report, Session.line, hstream, hname]
  rfl

/-- A line with no token on it is shown for a file, and not for a text. -/
theorem parseFile_shows_unread_line :
    ¬∀ (path text : String) (options : ParseOptions),
      options.filename ≠ ParseOptions.unnamed →
        parseFile path (some (.ofBytes (bytesOf text))) options = parseText text options := by
  intro hsame
  let named : ParseOptions := { ParseOptions.default with filename := "given" }
  have hnamed : named.filename ≠ ParseOptions.unnamed := by decide
  obtain ⟨l, hpull⟩ : ∃ l, Lexer.pull (.ofSource (.ofString "'") named.tabSize) =
      .error (.unterminatedString ⟨1, 0⟩) l := ⟨_, rfl⟩
  let told (line : String) : Except SyntaxError Ast :=
    .error (.ofLexError (.unterminatedString ⟨1, 0⟩) "given" ⟨1, 0⟩ line)
  have hunread : (TokenStream.ofLexer l none).lineCache[1]? = none := Std.HashMap.getElem?_empty
  obtain ⟨hlost, hshown⟩ :=
    TokenStream.line_unread hunread "quote.txt" (Text.splitLines ['\''])
  have htext : parseText "'" named = told "" :=
    (parse_unreadable hpull none).trans (congrArg told hlost)
  have hfile : parseFile "quote.txt" (some (.ofBytes (bytesOf "'"))) named = told "'" := by
    rw [parseFile_eq _ _ hnamed]
    exact (parse_unreadable hpull _).trans (congrArg told hshown)
  have hequal := hsame "quote.txt" "'" named hnamed
  rw [htext, hfile] at hequal
  simp [told, SyntaxError.ofLexError] at hequal

end Program

end ShellSyntax
