import Mathlib.Data.List.TakeWhile
import ShellSyntax.Proofs.Language.MadeStatements

/-!
Parameter lists. What stands between the commas of a list is sorted into four places, two of which
hold one parameter only: there a later star or double star takes the place of an earlier one.
Nothing else is lost.
-/

namespace ShellSyntax

/-- What may stand between two commas of a parameter list. -/
inductive ParameterPart where
  | slash
  /-- A star, with or without a parameter. -/
  | star (found : Option Parameter)
  | doubleStar (p : Parameter)
  | plain (p : Parameter)

namespace ParameterPart

/-- The parameter that is written here, if any. -/
def parameter? : ParameterPart → Option Parameter
  | slash => none
  | star found => found
  | doubleStar p | plain p => some p

def isStar : ParameterPart → Bool
  | star _ => true
  | _ => false

def star? : ParameterPart → Option (Option Parameter)
  | star found => some found
  | _ => none

def doubleStar? : ParameterPart → Option Parameter
  | doubleStar p => some p
  | _ => none

def plain? : ParameterPart → Option Parameter
  | plain p => some p
  | _ => none

end ParameterPart

open ParameterPart

/-- All parameters that are written, in their order. -/
def written (parts : List ParameterPart) : List Parameter :=
  parts.filterMap parameter?

/-- The parameters behind all stars but the last and behind all double stars but the last. -/
def overwritten (parts : List ParameterPart) : List Parameter :=
  (parts.filterMap star?).dropLast.filterMap id ++ (parts.filterMap doubleStar?).dropLast

namespace Parameters

/-- All parameters, those of one kind after those of another. -/
def listing (ps : Parameters) : List Parameter :=
  ps.args ++ ps.vararg.toList ++ ps.kwonly ++ ps.kwarg.toList

/-- The parameters are sorted by the marks among them: plain ones before the first star and behind
it, the one of the last star and the one of the last double star. -/
structure Sorts (ps : Parameters) (parts : List ParameterPart) : Prop where
  args : ps.args = (parts.takeWhile fun part => !part.isStar).filterMap plain?
  vararg : ps.vararg = (parts.filterMap star?).getLast?.join
  kwonly : ps.kwonly = (parts.dropWhile fun part => !part.isStar).filterMap plain?
  kwarg : ps.kwarg = (parts.filterMap doubleStar?).getLast?

/-- The parameters are all that are written, those apart that a later one has taken the place of.
With one star and one double star at most these are none. -/
structure Keeps (ps : Parameters) (parts : List ParameterPart) : Prop where
  sorts : ps.Sorts parts
  kept : (ps.listing ++ overwritten parts).Perm (written parts)
  complete : (parts.filterMap star?).length ≤ 1 → (parts.filterMap doubleStar?).length ≤ 1 →
    ps.listing.Perm (written parts)

end Parameters

/-! ### Nothing else is lost -/

section Lists

variable {α : Type} {p : α → Bool} {items : List α} {x : α}

theorem dropLast_append_last (items : List α) : items.dropLast ++ items.getLast?.toList = items := by
  cases hlast : items.getLast? with
  | none => simp [List.getLast?_eq_none_iff.mp hlast]
  | some last => exact List.dropLast_append_getLast? last hlast

theorem takeWhile_concat_of_not_all (h : items.all p = false) :
    (items ++ [x]).takeWhile p = items.takeWhile p := by
  induction items with
  | nil => cases h
  | cons first items induction =>
    cases hfirst : p first with
    | false => simp [hfirst]
    | true =>
      rw [List.all_cons, hfirst, Bool.true_and] at h
      simp only [List.cons_append, List.takeWhile_cons, hfirst, induction h]

theorem dropWhile_concat_of_not_all (h : items.all p = false) :
    (items ++ [x]).dropWhile p = items.dropWhile p ++ [x] := by
  induction items with
  | nil => cases h
  | cons first items induction =>
    cases hfirst : p first with
    | false => simp [hfirst]
    | true =>
      rw [List.all_cons, hfirst, Bool.true_and] at h
      simp only [List.cons_append, List.dropWhile_cons, hfirst, induction h, if_true]

end Lists

theorem written_perm (parts : List ParameterPart) :
    (written parts).Perm (parts.filterMap plain? ++ (parts.filterMap star?).filterMap id ++
      parts.filterMap doubleStar?) := by
  unfold written
  induction parts with
  | nil => exact .refl _
  | cons part parts induction =>
    cases part with
    | slash => exact induction
    | plain p => exact induction.cons p
    | star found =>
      cases found with
      | none => exact induction
      | some p =>
        refine (induction.cons p).trans ?_
        rw [List.append_assoc, List.append_assoc]
        exact List.perm_middle.symm
    | doubleStar p => exact (induction.cons p).trans List.perm_middle.symm

/-- What the places hold and what has been overwritten are the parameters that are written. -/
theorem Parameters.Sorts.listing_perm {ps : Parameters} {parts : List ParameterPart}
    (sorts : ps.Sorts parts) : (ps.listing ++ overwritten parts).Perm (written parts) := by
  have hplain : ps.args ++ ps.kwonly = parts.filterMap plain? := by
    rw [sorts.args, sorts.kwonly, ← List.filterMap_append, List.takeWhile_append_dropWhile]
  have hstars : (parts.filterMap star?).dropLast.filterMap id ++ ps.vararg.toList =
      (parts.filterMap star?).filterMap id := by
    conv_rhs => rw [← dropLast_append_last (parts.filterMap star?), List.filterMap_append]
    rw [sorts.vararg]
    cases (parts.filterMap star?).getLast? with
    | none => rfl
    | some found => cases found <;> rfl
  have hdoubleStars : (parts.filterMap doubleStar?).dropLast ++ ps.kwarg.toList =
      parts.filterMap doubleStar? := by
    rw [sorts.kwarg, dropLast_append_last]
  refine .trans ?_ (written_perm parts).symm
  rw [← hplain, ← hstars, ← hdoubleStars, listing, overwritten]
  classical
  refine List.perm_iff_count.mpr fun p => ?_
  simp only [List.count_append]
  omega

/-- Where no star follows a star and no double star a double star, nothing is overwritten. -/
theorem overwritten_eq_nil {parts : List ParameterPart} (hstars : (parts.filterMap star?).length ≤ 1)
    (hdoubleStars : (parts.filterMap doubleStar?).length ≤ 1) : overwritten parts = [] := by
  have hdrop {α : Type} {items : List α} (h : items.length ≤ 1) : items.dropLast = [] :=
    List.eq_nil_of_length_eq_zero (by rw [List.length_dropLast]; omega)
  rw [overwritten, hdrop hstars, hdrop hdoubleStars]
  rfl

theorem Parameters.Sorts.keeps {ps : Parameters} {parts : List ParameterPart}
    (sorts : ps.Sorts parts) : ps.Keeps parts where
  sorts := sorts
  kept := sorts.listing_perm
  complete hstars hdoubleStars := by
    have hkept := sorts.listing_perm
    rwa [overwritten_eq_nil hstars hdoubleStars, List.append_nil] at hkept

namespace Language

open Matcher

/-! ### Sorting -/

/-- The parameters read so far are sorted, and it is known whether a star was among them. -/
structure Sorted (state : ParameterState) (parts : List ParameterPart) : Prop where
  sorts : state.1.Sorts parts
  afterStar : (parts.all fun part => !part.isStar) = !state.2

/-- Puts what stands between two commas in its place. -/
def putPart : ParameterState → ParameterPart → ParameterState
  | state, .slash => state
  | (ps, _), .star found => ({ ps with vararg := found }, true)
  | (ps, afterStar), .doubleStar p => ({ ps with kwarg := some p }, afterStar)
  | (ps, false), .plain p => ({ ps with args := ps.args ++ [p] }, false)
  | (ps, true), .plain p => ({ ps with kwonly := ps.kwonly ++ [p] }, true)

theorem Sorted.none : Sorted (Parameters.none, false) [] :=
  ⟨⟨rfl, rfl, rfl, rfl⟩, rfl⟩

theorem Sorted.put {state : ParameterState} {parts : List ParameterPart} (h : Sorted state parts)
    (part : ParameterPart) : Sorted (putPart state part) (parts ++ [part]) := by
  obtain ⟨ps, afterStar⟩ := state
  obtain ⟨⟨hargs, hvararg, hkwonly, hkwarg⟩, hstar⟩ := h
  dsimp only at hargs hvararg hkwonly hkwarg hstar
  cases afterStar with
  | true =>
    refine ⟨⟨?_, ?_, ?_, ?_⟩, ?_⟩
    · rw [takeWhile_concat_of_not_all hstar]
      cases part <;> exact hargs
    · cases part <;> simp [putPart, star?, hvararg]
    · rw [dropWhile_concat_of_not_all hstar]
      cases part <;> simp [putPart, plain?, hkwonly]
    · cases part <;> simp [putPart, doubleStar?, hkwarg]
    · rw [List.all_append, hstar]
      cases part <;> rfl
  | false =>
    have hall : ∀ part ∈ parts, (!part.isStar) = true := List.all_eq_true.mp hstar
    rw [List.takeWhile_eq_self_iff.mpr hall] at hargs
    rw [List.dropWhile_eq_nil_iff.mpr hall] at hkwonly
    refine ⟨⟨?_, ?_, ?_, ?_⟩, ?_⟩
    · rw [List.takeWhile_append_of_pos hall]
      cases part <;> simp [putPart, isStar, plain?, hargs]
    · cases part <;> simp [putPart, star?, hvararg]
    · rw [List.dropWhile_append_of_pos hall]
      cases part <;> simp [putPart, isStar, plain?, hkwonly]
    · cases part <;> simp [putPart, doubleStar?, hkwarg]
    · rw [List.all_append, hstar]
      cases part <;> rfl

/-! ### What is written -/

/-- Behind its sign stands the expression that the rule for expressions matches there; without the
sign there is none. -/
inductive Clause (W : World) (sign : String) : Option Expr → Nat → Nat → Prop
  | none {i : Nat} (hsign : ¬ W.Spells i sign) : Clause W sign none i i
  | some {i j : Nat} {value : Expr} (hsign : W.Spells i sign)
      (hvalue : Finds W expr (i + 1) (some value) j) : Clause W sign (some value) i j

/-- A parameter is written as its name, its annotation if it may have one, and its default. -/
inductive WrittenParameter (W : World) : Bool → Parameter → Nat → Nat → Prop
  | annotated {i j k : Nat} {name : Token} { annotation default : Option Expr}
      (hname : W.token i = .ok name) (hkind : name.kind = .name)
      (htype : Clause W ":" annotation (i + 1) j) (hdefault : Clause W "=" default j k) :
      WrittenParameter W true ⟨name.text, annotation, default⟩ i k
  | bare {i j : Nat} {name : Token} {default : Option Expr} (hname : W.token i = .ok name)
      (hkind : name.kind = .name) (hdefault : Clause W "=" default (i + 1) j) :
      WrittenParameter W false ⟨name.text, none, default⟩ i j

/-- What stands between two commas. -/
inductive WrittenPart (W : World) (annotated : Bool) : ParameterPart → Nat → Nat → Prop
  | slash {i : Nat} (hsign : W.Spells i "/") : WrittenPart W annotated .slash i (i + 1)
  | star {i j : Nat} {p : Parameter} (hsign : W.Spells i "*")
      (hp : WrittenParameter W annotated p (i + 1) j) : WrittenPart W annotated (.star (some p)) i j
  | bareStar {i : Nat} (hsign : W.Spells i "*") : WrittenPart W annotated (.star none) i (i + 1)
  | doubleStar {i j : Nat} {p : Parameter} (hsign : W.Spells i "**")
      (hp : WrittenParameter W annotated p (i + 1) j) : WrittenPart W annotated (.doubleStar p) i j
  | plain {i j : Nat} {p : Parameter} (hp : WrittenParameter W annotated p i j) :
      WrittenPart W annotated (.plain p) i j

inductive WrittenParts (W : World) (annotated : Bool) (start : Nat) :
    List ParameterPart → Nat → Prop
  | nil : WrittenParts W annotated start [] start
  | comma {parts : List ParameterPart} {part : ParameterPart} {i j : Nat}
      (before : WrittenParts W annotated start parts i) (hpart : WrittenPart W annotated part i j)
      (hcomma : W.Spells j ",") : WrittenParts W annotated start (parts ++ [part]) (j + 1)

/-- Parts between commas, where a comma may follow the last. -/
inductive WrittenList (W : World) (annotated : Bool) : List ParameterPart → Nat → Nat → Prop
  | closed {parts : List ParameterPart} {i j : Nat} (h : WrittenParts W annotated i parts j) :
      WrittenList W annotated parts i j
  | last {parts : List ParameterPart} {part : ParameterPart} {i j k : Nat}
      (before : WrittenParts W annotated i parts j) (hpart : WrittenPart W annotated part j k) :
      WrittenList W annotated (parts ++ [part]) i k

variable {W : World} {callee : Callee rules} {annotated : Bool} {i j : Nat}

theorem finds_of_answers {r : Rule} {found : Option r.Node}
    (hanswers : callee.Answers W grammar ranking) (hpolicy : rules.policy r ≠ .leftRecursive)
    (h : W.Reads callee (@Matcher.rule rules r) i found j) :
    Finds W (@Matcher.rule rules r) i found j :=
  .of_answer (hanswers r i found j hpolicy h.rule)

theorem defaulted_written {id : Token} { annotation : Option Expr} {p : Parameter}
    (hanswers : callee.Answers W grammar ranking)
    (h : W.Reads callee (do
      let mut default := none
      if ← accepts "=" then
        let some value ← expr | return none
        default := some value
      return some ⟨id.text, annotation, default⟩ : Match (Option Parameter)) i (some p) j) :
    ∃ default, p = ⟨id.text, annotation, default⟩ ∧ Clause W "=" default i j := by
  rcases h.accepted with ⟨hsign, hrest⟩ | ⟨hsign, hrest⟩
  · obtain ⟨value, k, hvalue, hrest⟩ := hrest.needs rfl
    cases hrest
    exact ⟨some value, rfl, .some hsign (finds_of_answers hanswers nofun hvalue)⟩
  · cases hrest
    exact ⟨none, rfl, .none hsign⟩

theorem namedParameter_written {p : Parameter} (hanswers : callee.Answers W grammar ranking)
    (h : W.Reads callee (namedParameter annotated) i (some p) j) :
    WrittenParameter W annotated p i j := by
  obtain ⟨id, k, hid, hrest⟩ := (attempt_some h).needs rfl
  obtain ⟨hname, hkind, rfl⟩ : W.token i = .ok id ∧ id.kind = .name ∧ k = i + 1 :=
    hid.of_leads (Q := fun found k => ∀ id ∈ found, W.token i = .ok id ∧ id.kind = .name ∧ k = i + 1)
      (.name (fun t ht hkind => by rintro id ⟨⟩; exact ⟨ht, hkind, rfl⟩) nofun) id rfl
  cases annotated with
  | false =>
    obtain ⟨default, rfl, hdefault⟩ := defaulted_written hanswers hrest
    exact .bare hname hkind hdefault
  | true =>
    rcases World.Reads.accepted hrest with ⟨hsign, hrest⟩ | ⟨hsign, hrest⟩
    · obtain ⟨value, l, hvalue, hrest⟩ := hrest.needs rfl
      obtain ⟨default, rfl, hdefault⟩ := defaulted_written hanswers hrest
      exact .annotated hname hkind (.some hsign (finds_of_answers hanswers nofun hvalue)) hdefault
    · obtain ⟨default, rfl, hdefault⟩ := defaulted_written hanswers hrest
      exact .annotated hname hkind (.none hsign) hdefault

theorem parameterItem_written {state state' : ParameterState}
    (hanswers : callee.Answers W grammar ranking)
    (h : W.Reads callee (parameterItem annotated state) i (some state') j) :
    ∃ part, state' = putPart state part ∧ WrittenPart W annotated part i j := by
  obtain ⟨ps, afterStar⟩ := state
  rcases World.Reads.accepts h with ⟨hsign, hrest⟩ | hrest
  · cases hrest
    exact ⟨.slash, rfl, .slash hsign⟩
  rcases hrest.accepts with ⟨hsign, hrest⟩ | hrest
  · obtain ⟨p, k, hp, hrest⟩ := hrest.needs rfl
    cases hrest
    exact ⟨.doubleStar p, rfl, .doubleStar hsign (namedParameter_written hanswers hp)⟩
  rcases hrest.accepts with ⟨hsign, hrest⟩ | hrest
  · obtain ⟨found, k, hfound, hrest⟩ := hrest.bind
    cases hrest
    cases found with
    | none =>
      cases attempt_none hfound
      exact ⟨.star none, rfl, .bareStar hsign⟩
    | some p => exact ⟨.star (some p), rfl, .star hsign (namedParameter_written hanswers hfound)⟩
  · obtain ⟨p, k, hp, hrest⟩ := hrest.needs rfl
    have hwritten := namedParameter_written hanswers hp
    cases afterStar with
    | false =>
      cases hrest
      exact ⟨.plain p, rfl, .plain hwritten⟩
    | true =>
      cases hrest
      exact ⟨.plain p, rfl, .plain hwritten⟩

theorem parameterList_written {close : String} {ps : Parameters}
    (hanswers : callee.Answers W grammar ranking)
    (h : W.Reads callee (parameterList annotated close) i (some ps) j) :
    ∃ parts, WrittenList W annotated parts i j ∧ ps.Sorts parts := by
  have hloop := attempt_some h
  refine World.Reads.loop (Q := fun found j => ∀ ps ∈ found, ∃ parts,
    WrittenList W annotated parts i j ∧ ps.Sorts parts) hloop
    (fun state j => ∃ parts, WrittenParts W annotated i parts j ∧ Sorted state parts)
    ⟨[], .nil, .none⟩ ?_ ps rfl
  rintro state j ⟨parts, before, sorted⟩ outcome l hbody
  obtain ⟨found, k, hfound, hbody⟩ := hbody.bind
  obtain rfl : k = j := by
    obtain ⟨_, _, _, hfound⟩ := hfound.mark.bind
    exact hfound.reset.pure.2
  cases found with
  | true =>
    cases hbody
    rintro _ ⟨⟩
    exact ⟨parts, .closed before, sorted.sorts⟩
  | false =>
    obtain ⟨next, m, hitem, hbody⟩ := World.Reads.bind hbody
    cases next with
    | none =>
      cases hbody
      exact nofun
    | some state' =>
      obtain ⟨part, rfl, hpart⟩ := parameterItem_written hanswers hitem
      rcases World.Reads.accepts hbody with ⟨hcomma, hbody⟩ | hbody
      · cases hbody
        exact ⟨_, .comma before hpart hcomma, sorted.put part⟩
      · cases hbody
        rintro _ ⟨⟩
        exact ⟨_, .last before hpart, (sorted.put part).sorts⟩

/-! ### Functions -/

/-- A function without a name with these parts between its keyword and its colon. -/
inductive WrittenLambda (W : World) (parts : List ParameterPart) (args : Parameters) : Expr → Prop
  | intro {i j k : Nat} {body : Expr} (hkeyword : W.Spells i "lambda")
      (hparts : WrittenList W false parts (i + 1) j) (hcolon : W.Spells j ":")
      (hbody : Finds W expr (j + 1) (some body) k) :
      WrittenLambda W parts args ⟨.lambda args body, W.spanSince i k⟩

/-- A function with these parts in the parentheses behind its name. -/
inductive WrittenFunction (W : World) (parts : List ParameterPart) (args : Parameters) :
    StmtForm → Prop
  | intro {i j k l : Nat} {id : Token} {returns : Option Expr} {body : List Stmt}
      {decorators : List Expr} {isAsync : Bool} (hkeyword : W.Spells i "def")
      (hid : W.token (i + 1) = .ok id) (hname : id.kind = .name) (hopen : W.Spells (i + 2) "(")
      (hparts : WrittenList W true parts (i + 3) j) (hclose : W.Spells j ")")
      (hreturns : Clause W "->" returns (j + 1) k) (hcolon : W.Spells k ":")
      (hbody : Finds W suite (k + 1) (some body) l) :
      WrittenFunction W parts args (.function id.text args body decorators returns isAsync)

theorem lambdaExpr_written {args : Parameters} {body : Expr} {span : Span}
    (h : ReadBy W lambdaExpr ⟨.lambda args body, span⟩) :
    ∃ parts, WrittenLambda W parts args ⟨.lambda args body, span⟩ ∧ args.Sorts parts := by
  obtain ⟨callee, i, k, hanswers, reads⟩ := h
  obtain ⟨hkeyword, hrest⟩ := (attempt_some reads).expects
  obtain ⟨_, j, hargs, hrest⟩ := hrest.needs rfl
  obtain ⟨hcolon, hrest⟩ := hrest.expects
  obtain ⟨_, l, hbody, hnode⟩ := hrest.needs rfl
  cases hnode.spanSince
  obtain ⟨parts, hparts, sorts⟩ := parameterList_written hanswers hargs
  exact ⟨parts, .intro hkeyword hparts hcolon (finds_of_answers hanswers nofun hbody), sorts⟩

theorem returnAnnotation_written {returns : Option Expr}
    (hanswers : callee.Answers W grammar ranking)
    (h : W.Reads callee returnAnnotation i (some returns) j) : Clause W "->" returns i j := by
  rcases World.Reads.accepted h with ⟨hsign, hrest⟩ | ⟨hsign, hrest⟩
  · obtain ⟨value, k, hvalue, hrest⟩ := World.Reads.needs hrest rfl
    cases hrest
    exact .some hsign (finds_of_answers hanswers nofun hvalue)
  · cases hrest
    exact .none hsign

theorem functionDefinition_written {name : String} {args : Parameters} {body : List Stmt}
    {decorators decorators' : List Expr} {returns : Option Expr} {isAsync isAsync' : Bool}
    (h : ReadBy W (functionDefinition decorators' isAsync')
      (.function name args body decorators returns isAsync)) :
    ∃ parts, WrittenFunction W parts args
      (.function name args body decorators returns isAsync) ∧ args.Sorts parts := by
  obtain ⟨callee, i, l, hanswers, reads⟩ := h
  obtain ⟨hkeyword, hrest⟩ := reads.expects
  obtain ⟨text, a, htext, hrest⟩ := hrest.needs rfl
  obtain ⟨id, hid, hname, rfl, rfl⟩ :
      ∃ id, W.token (i + 1) = .ok id ∧ id.kind = .name ∧ text = id.text ∧ a = i + 2 := by
    refine htext.of_leads (Q := fun found a => ∀ text ∈ found, ∃ id,
      W.token (i + 1) = .ok id ∧ id.kind = .name ∧ text = id.text ∧ a = i + 2)
      (.bind (.name (fun t ht hkind => ?_) nofun)) text rfl
    rintro text ⟨⟩
    exact ⟨t, ht, hkind, rfl, rfl⟩
  obtain ⟨hopen, hrest⟩ := hrest.expects
  obtain ⟨_, j, hargs, hrest⟩ := hrest.needs rfl
  obtain ⟨hclose, hrest⟩ := hrest.expects
  obtain ⟨_, k, hreturns, hrest⟩ := hrest.needs rfl
  obtain ⟨_, m, hbody, hrest⟩ := hrest.needs rfl
  cases hrest
  obtain ⟨hcolon, hbody⟩ := (attempt_some hbody).expects
  obtain ⟨parts, hparts, sorts⟩ := parameterList_written hanswers hargs
  exact ⟨parts, .intro hkeyword hid hname hopen hparts hclose
    (returnAnnotation_written hanswers hreturns) hcolon (finds_of_answers hanswers nofun hbody),
    sorts⟩

end Language

namespace Program

open ShellSyntax.Language

variable {source : Source} {origin : Option Origin} {options : ParseOptions} {tree : Ast}
  {s : ProgramSession}

/-- The parameters of each function in an accepted program, with or without a name, are those that
are written for it: each name with the annotation and the default that are read behind it, sorted by
the marks among them. If a list has one star and one double star at most, each parameter that is
written is kept exactly once; otherwise those behind the other stars and double stars are lost. -/
theorem parameters_as_written
    (hparse : parse options.mode (start source origin options) = (.ok tree, s)) :
    let W := firstWorld source origin options
    ∀ root ∈ nodes tree, ∀ n, root.Contains n →
      (∀ args body span, n = .expr ⟨.lambda args body, span⟩ →
        ∃ parts, WrittenLambda W parts args ⟨.lambda args body, span⟩ ∧ args.Keeps parts) ∧
      ∀ name args body decorators returns isAsync span,
        n = .stmt ⟨.function name args body decorators returns isAsync, span⟩ →
        ∃ parts, WrittenFunction W parts args
          (.function name args body decorators returns isAsync) ∧ args.Keeps parts := by
  intro W root hroot n hcontains
  have hmade := accepted_made hparse root hroot n hcontains
  refine ⟨?_, ?_⟩
  · rintro args body span rfl
    obtain ⟨parts, hwritten, sorts⟩ := lambdaExpr_written hmade
    exact ⟨parts, hwritten, sorts.keeps⟩
  · rintro name args body decorators returns isAsync span rfl
    obtain ⟨parts, hwritten, sorts⟩ := functionDefinition_written hmade
    exact ⟨parts, hwritten, sorts.keeps⟩

/-- The names of the parameters, if the program is one function. -/
def listedNames (tree : Module) : Option (List String) :=
  match tree.body with
  | [⟨.function _ args _ _ _ _, _⟩] => some (args.listing.map Parameter.name)
  | _ => none

theorem parameters_as_written_of_function :
    ∃ name args body decorators returns isAsync span s,
      parse .exec (start (.ofString "def f(a, *b, c=1, **d): pass\n") none .default) =
        (.ok (.module ⟨[⟨.function name args body decorators returns isAsync, span⟩]⟩), s) ∧
      args.listing.map Parameter.name = ["a", "b", "c", "d"] ∧ ∃ parts, args.Keeps parts := by
  obtain ⟨⟨stmts⟩, s, hparse, hlisted⟩ := accepted_of_read
    (.ofString "def f(a, *b, c=1, **d): pass\n") none .default
    (fun tree => listedNames tree == some ["a", "b", "c", "d"]) 5000
    (by decide +kernel) (by decide +kernel)
  replace hlisted := beq_iff_eq.mp hlisted
  unfold listedNames at hlisted
  split at hlisted
  case h_1 name args body decorators returns isAsync span heq =>
    cases heq
    have haccepted : parse ParseOptions.default.mode
        (start (.ofString "def f(a, *b, c=1, **d): pass\n") none .default) = (.ok _, s) := hparse
    obtain ⟨parts, _, hkeeps⟩ := (parameters_as_written haccepted _ List.mem_cons_self _ .self).2
      name args body decorators returns isAsync span rfl
    exact ⟨name, args, body, decorators, returns, isAsync, span, s, hparse,
      Option.some.inj hlisted, parts, hkeeps⟩
  case h_2 => cases hlisted

/-- A token that is found to be an operator, a name or a word with this text. -/
def isSpelled (f : Feed) (i : Nat) (text : String) : Bool :=
  match f.token i with
  | .ok t => (t.kind == .op || t.kind == .name || t.kind == .word) && t.text == text
  | .error _ => false

/-- A token that is found to be this name. -/
def isNamed (f : Feed) (i : Nat) (text : String) : Bool :=
  match f.token i with
  | .ok t => t.kind == .name && t.text == text
  | .error _ => false

theorem spells_of_eq {f : Feed} {i : Nat} {text : String} (h : isSpelled f i text = true) :
    f.Spells i text := by
  unfold isSpelled at h
  split at h
  case h_1 t ht => exact ⟨t, ht, by simpa [or_assoc] using h⟩
  case h_2 => cases h

theorem bare_parameter {W : World} {i : Nat} {text : String} (sign : String)
    (hname : isNamed W.toFeed i text)
    (hsign : isSpelled W.toFeed (i + 1) sign) (hcolon : sign ≠ ":") (hequals : sign ≠ "=") :
    WrittenParameter W true ⟨text, none, none⟩ i (i + 1) := by
  have hother {other : String} (hne : sign ≠ other) : ¬ W.Spells (i + 1) other := by
    rintro ⟨t, ht, _, htext⟩
    obtain ⟨t', ht', _, htext'⟩ := spells_of_eq hsign
    cases ht.symm.trans ht'
    exact hne (htext'.symm.trans htext)
  unfold isNamed at hname
  split at hname
  case h_1 t ht =>
    obtain ⟨hkind, rfl⟩ : t.kind = .name ∧ t.text = text := by simpa using hname
    exact .annotated ht hkind (.none (hother hcolon)) (.none (hother hequals))
  case h_2 => cases hname

/-- The first of two parameters with a star is lost. -/
theorem first_star_overwritten :
    ¬ ∀ (source : Source) (options : ParseOptions) (tree : Ast) (s : ProgramSession),
      parse options.mode (start source none options) = (.ok tree, s) →
      let W := firstWorld source none options
      ∀ root ∈ nodes tree, ∀ name args body decorators returns isAsync span,
        root.Contains (.stmt ⟨.function name args body decorators returns isAsync, span⟩) →
        ∀ i j parts, W.Spells i "def" → WrittenList W true parts (i + 3) j → W.Spells j ")" →
          args.listing.Perm (written parts) := by
  intro claimed
  let source : Source := .ofString "def f(*a, *b): pass\n"
  let W := firstWorld source none .default
  obtain ⟨⟨stmts⟩, s, hparse, hlisted⟩ := accepted_of_read source none .default
    (fun tree => listedNames tree == some ["b"]) 5000 (by decide +kernel) (by decide +kernel)
  replace hlisted := beq_iff_eq.mp hlisted
  unfold listedNames at hlisted
  split at hlisted
  case h_1 name args body decorators returns isAsync span heq =>
    cases heq
    have hlength : args.listing.length = 1 := by
      rw [← List.length_map, Option.some.inj hlisted]
      rfl
    have ha : WrittenParameter W true ⟨"a", none, none⟩ 4 5 :=
      bare_parameter "," (by decide +kernel) (by decide +kernel) (by decide) (by decide)
    have hb : WrittenParameter W true ⟨"b", none, none⟩ 7 8 :=
      bare_parameter ")" (by decide +kernel) (by decide +kernel) (by decide) (by decide)
    have hlist : WrittenList W true [.star (some ⟨"a", none, none⟩), .star (some ⟨"b", none, none⟩)]
        (0 + 3) 8 :=
      .last (.comma .nil (.star (spells_of_eq (by decide +kernel)) ha)
        (spells_of_eq (by decide +kernel))) (.star (spells_of_eq (by decide +kernel)) hb)
    have hperm := claimed source .default _ s hparse _ List.mem_cons_self _ _ _ _ _ _ _ .self 0 8 _
      (spells_of_eq (by decide +kernel)) hlist (spells_of_eq (by decide +kernel))
    exact absurd (hlength.symm.trans hperm.length_eq) (by decide)
  case h_2 => cases hlisted

end Program

end ShellSyntax
