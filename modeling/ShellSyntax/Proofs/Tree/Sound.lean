import Mathlib.Data.List.Chain
import ShellSyntax.Proofs.Tree.Nodes
import ShellSyntax.Tree.Target

/-!
Sound nodes: what they bind are targets, and they have a shape that a program gives them. The types
of a tree allow other shapes too: in those of programs lists that belong together are of one length,
what has to be there is there, and pieces of text or of an argument that could be one are one. What
is put together from parts is sound if its parts are and it is so itself.
-/

namespace ShellSyntax

/-! ### Literals -/

def FormatPart.isLiteral : FormatPart → Bool
  | literal _ => true
  | field _ _ _ _ => false

mutual

/-- No literal text stands next to another, and each part is tidy. -/
inductive Tidy : List FormatPart → Prop
  | intro {parts : List FormatPart} (hparts : ∀ part ∈ parts, FormatPart.Tidy part)
      (apart : parts.IsChain fun left right => ¬(left.isLiteral ∧ right.isLiteral)) : Tidy parts

/-- Literal text is not empty, and a format specification is tidy. -/
inductive FormatPart.Tidy : FormatPart → Prop
  | literal {text : String} (h : text ≠ "") : FormatPart.Tidy (.literal text)
  | field {value : Expr} {debugText : Option String} {conversion : Option Char}
      {formatSpec : List FormatPart} (h : ShellSyntax.Tidy formatSpec) :
      FormatPart.Tidy (.field value debugText conversion formatSpec)

end

/-! ### Commands -/

namespace CommandArg

/-- An argument made of pieces. -/
def isConcat : CommandArg → Bool
  | concat _ => true
  | _ => false

def isWord : CommandArg → Bool
  | word _ => true
  | _ => false

/-- What an argument can be made of: neither pieces, nor a redirection, nor raw text. -/
def isPiece : CommandArg → Bool
  | concat _ | redirect _ | raw _ => false
  | _ => true

end CommandArg

mutual

/-- There is a command, the first has nothing before it that joins it, and all others have. -/
inductive Pipeline.WellShaped : Pipeline → Prop
  | intro {capture : CaptureMode} {argv : List CommandArg} {further : List PipelineStage}
      {background : Bool} (hfirst : WellShapedArgs argv)
      (hjoined : ∀ stage ∈ further, stage.connector.isSome)
      (hfurther : ∀ stage ∈ further, WellShapedArgs stage.argv) :
      Pipeline.WellShaped ⟨capture, ⟨none, argv⟩ :: further, background⟩

/-- The arguments of a command, at least one. -/
inductive WellShapedArgs : List CommandArg → Prop
  | intro {argv : List CommandArg} (nonempty : argv ≠ [])
      (hargs : ∀ arg ∈ argv, CommandArg.WellShaped arg) : WellShapedArgs argv

/-- An argument that is made of pieces has two or more, and two words in a row are one. -/
inductive CommandArg.WellShaped : CommandArg → Prop
  | pipeline {command : Pipeline} (h : Pipeline.WellShaped command) :
      CommandArg.WellShaped (.pipeline command)
  | concat {parts : List CommandArg} (hlength : 2 ≤ parts.length)
      (hpieces : ∀ part ∈ parts, part.isPiece)
      (hparts : ∀ part ∈ parts, CommandArg.WellShaped part)
      (apart : parts.IsChain fun left right => ¬(left.isWord ∧ right.isWord)) :
      CommandArg.WellShaped (.concat parts)
  | word {text : String} : CommandArg.WellShaped (.word text)
  | quoted {text : String} : CommandArg.WellShaped (.quoted text)
  | namedVariable {name : String} : CommandArg.WellShaped (.namedVariable name)
  | computedVariable {value : Expr} : CommandArg.WellShaped (.computedVariable value)
  | hostExpr {value : Expr} : CommandArg.WellShaped (.hostExpr value)
  | pathSearch {search : PathSearch} : CommandArg.WellShaped (.pathSearch search)
  | redirect {text : String} : CommandArg.WellShaped (.redirect text)
  | raw {text : String} : CommandArg.WellShaped (.raw text)

end

/-! ### Nodes -/

def ExprForm.WellShaped : ExprForm → Prop
  | .compare _ ops comparators => ops.length = comparators.length ∧ comparators ≠ []
  | .boolOp _ values => 2 ≤ values.length
  | .dict keys values => keys.length = values.length
  | .set items => items ≠ []
  | .listComp _ generators | .setComp _ generators | .dictComp _ _ generators
  | .generator _ generators => generators ≠ []
  | .fstring parts => Tidy parts
  | .pipeline command => command.WellShaped
  | _ => True

def StmtForm.WellShaped : StmtForm → Prop
  | .assign targets _ | .delete targets => targets ≠ []
  | .global names | .nonlocal names => names ≠ []
  | .importNames names => names ≠ []
  | .fromImport module names level => names ≠ [] ∧ (module.isSome ∨ 0 < level)
  | .if _ body _ | .while _ body _ | .for _ _ body _ _ | .function _ _ body _ _ _
  | .classDefinition _ _ _ body _ => body ≠ []
  | .with items body _ => items ≠ [] ∧ body ≠ []
  | .rawWith items _ => items ≠ []
  | .try body handlers _ finalbody => body ≠ [] ∧ (handlers ≠ [] ∨ finalbody ≠ [])
  | _ => True

/-- The node has a shape that a program gives it. -/
def Node.WellShaped : Node → Prop
  | .expr e => e.form.WellShaped
  | .stmt s => s.form.WellShaped
  | .handler h => h.body ≠ []

end ShellSyntax

namespace ShellSyntax

/-! ### What binds what

Assignments, deletions, loops, contexts, comprehensions and named expressions have parts that
something is bound to; in the trees of programs these parts are targets.
-/

/-- What an expression binds by itself is a target: a name behind which its value stands, or what
the loops of a comprehension run over. -/
def ExprForm.BindsTargets : ExprForm → Prop
  | .binding target _ => ∃ id, target.form = .name id
  | .listComp _ generators | .setComp _ generators | .dictComp _ _ generators
  | .generator _ generators => ∀ g ∈ generators, g.target.isTarget
  | _ => True

/-- What a statement binds by itself is a target, and a single one if it has an annotation or is
updated. -/
def StmtForm.BindsTargets : StmtForm → Prop
  | .assign targets _ | .delete targets => ∀ target ∈ targets, target.isTarget
  | .augmented target _ _ | .annotated target _ _ => target.form.isSoleTarget
  | .for target _ _ _ _ => target.isTarget
  | .with items _ _ | .rawWith items _ => ∀ item ∈ items, ∀ target ∈ item.target, target.isTarget
  | _ => True

/-- What the node binds by itself is a target. -/
def Node.BindsTargets : Node → Prop
  | .expr e => e.form.BindsTargets
  | .stmt s => s.form.BindsTargets
  | .handler _ => True

/-! ### Soundness -/

def ExprForm.Sound (form : ExprForm) : Prop :=
  form.BindsTargets ∧ form.WellShaped

def Node.Sound (n : Node) : Prop :=
  n.BindsTargets ∧ n.WellShaped

/-- These nodes and all nodes below them are sound. -/
def AllSound (ns : List Node) : Prop :=
  ∀ root ∈ ns, ∀ n, root.Contains n → n.Sound

namespace Node.Contains

variable {n m child : Node}

theorem under (hchild : child ∈ n.children) (h : child.Contains m) : n.Contains m := by
  induction h with
  | self => exact .child .self hchild
  | child _ hbelow induction => exact .child induction hbelow

theorem trans {l : Node} (h : n.Contains m) (h' : m.Contains l) : n.Contains l := by
  induction h' with
  | self => exact h
  | child _ hchild induction => exact .child induction hchild

theorem head (h : n.Contains m) : m = n ∨ ∃ child ∈ n.children, child.Contains m := by
  induction h with
  | self => exact .inl rfl
  | child _ hchild induction =>
    obtain rfl | ⟨top, htop, contains⟩ := induction
    · exact .inr ⟨_, hchild, .self⟩
    · exact .inr ⟨top, htop, .child contains hchild⟩

end Node.Contains

namespace AllSound

variable {α β : Type} [HasNodes α] [HasNodes β] {ns ms : List Node} {n : Node}

@[simp] theorem nil : AllSound [] :=
  fun _ => nofun

@[simp] theorem append_iff : AllSound (ns ++ ms) ↔ AllSound ns ∧ AllSound ms :=
  List.forall_mem_append

theorem append (hns : AllSound ns) (hms : AllSound ms) : AllSound (ns ++ ms) :=
  append_iff.mpr ⟨hns, hms⟩

theorem sub (h : AllSound ns) (hsub : ∀ n ∈ ms, n ∈ ns) : AllSound ms :=
  fun n hn => h n (hsub n hn)

theorem either {ls : List Node} (hns : AllSound ns) (hms : AllSound ms)
    (h : ∀ n ∈ ls, n ∈ ns ∨ n ∈ ms) : AllSound ls :=
  fun n hn => (h n hn).elim (hns n) (hms n)

theorem single (h : n.Sound) (hchildren : AllSound n.children) : AllSound [n] := by
  intro root hroot m contains
  cases List.mem_singleton.mp hroot
  obtain rfl | ⟨child, hchild, contains⟩ := contains.head
  · exact h
  · exact hchildren child hchild m contains

theorem sound (h : AllSound [n]) : n.Sound :=
  h n (List.mem_singleton_self n) n .self

theorem children (h : AllSound [n]) : AllSound n.children :=
  fun _ hchild m contains => h n (List.mem_singleton_self n) m (contains.under hchild)

theorem form {e : Expr} (h : AllSound (nodes e)) : AllSound (nodes e.form) :=
  children h

theorem list {items : List α} (h : ∀ a ∈ items, AllSound (nodes a)) : AllSound (nodes items) := by
  intro n hn
  obtain ⟨a, ha, hna⟩ := mem_nodes.mp hn
  exact h a ha n hna

theorem option {found : Option α} (h : ∀ a ∈ found, AllSound (nodes a)) :
    AllSound (nodes found) := by
  cases found with
  | none => exact nil
  | some a =>
    rw [nodes_some]
    exact h a rfl

theorem concat {items : List α} {a : α} (hitems : AllSound (nodes items))
    (ha : AllSound (nodes a)) :
    AllSound (nodes (items ++ [a])) := by
  rw [nodes_append, nodes_cons, nodes_nil, List.append_nil]
  exact hitems.append ha

end AllSound

end ShellSyntax
