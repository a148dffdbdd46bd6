import ShellSyntax.Tree.Basic

/-!
The nodes of a tree, which are its statements, expressions and handlers, and what stands directly in
what. Parts of a node that have no place of their own, such as arguments, comprehensions and format
specifications, pass their nodes on to it.
-/

namespace ShellSyntax

inductive Node where
  | expr (e : Expr)
  | stmt (s : Stmt)
  | handler (h : Handler)

namespace Node

def span : Node → Span
  | expr e => e.span
  | stmt s => s.span
  | handler h => h.span

end Node

/-- Values that nodes stand in. -/
class HasNodes (α : Type) where
  /-- The outermost nodes. -/
  nodes : α → List Node

export HasNodes (nodes)

variable {α β : Type} [HasNodes α] [HasNodes β]

instance : HasNodes Expr where
  nodes e := [.expr e]

instance : HasNodes Stmt where
  nodes s := [.stmt s]

instance : HasNodes Handler where
  nodes h := [.handler h]

instance : HasNodes (List α) where
  nodes items := items.flatMap nodes

instance : HasNodes (Option α) where
  nodes found := found.toList.flatMap nodes

instance : HasNodes (α × β) where
  nodes pair := nodes pair.1 ++ nodes pair.2

@[simp] theorem nodes_nil : nodes ([] : List α) = [] :=
  rfl

@[simp] theorem nodes_cons (a : α) (items : List α) : nodes (a :: items) = nodes a ++ nodes items :=
  List.flatMap_cons

@[simp] theorem nodes_append (items others : List α) :
    nodes (items ++ others) = nodes items ++ nodes others :=
  List.flatMap_append

@[simp] theorem nodes_none : nodes (none : Option α) = [] :=
  rfl

@[simp] theorem nodes_some (a : α) : nodes (some a) = nodes a :=
  List.append_nil _

/-! ### Values that no nodes stand in -/

instance : HasNodes Bool where
  nodes _ := []

instance : HasNodes Nat where
  nodes _ := []

instance : HasNodes String where
  nodes _ := []

instance : HasNodes Char where
  nodes _ := []

instance : HasNodes CmpOp where
  nodes _ := []

instance : HasNodes ImportedName where
  nodes _ := []

/-! ### Pairs -/

theorem mem_nodes {items : List α} {n : Node} :
    n ∈ nodes items ↔ ∃ a ∈ items, n ∈ nodes a :=
  List.mem_flatMap

theorem nodes_flatten (lists : List (List α)) : nodes lists.flatten = nodes lists := by
  induction lists with
  | nil => rfl
  | cons items lists induction => rw [List.flatten_cons, nodes_append, nodes_cons, induction]

theorem mem_nodes_dropLast {items : List α} {n : Node} (hn : n ∈ nodes items.dropLast) :
    n ∈ nodes items := by
  obtain ⟨a, ha, hna⟩ := mem_nodes.mp hn
  exact mem_nodes.mpr ⟨a, (List.dropLast_sublist items).mem ha, hna⟩

theorem mem_nodes_firsts {pairs : List (α × β)} {n : Node} (hn : n ∈ nodes (pairs.map Prod.fst)) :
    n ∈ nodes pairs := by
  induction pairs with
  | nil => exact hn
  | cons pair pairs induction =>
    rw [List.map_cons, nodes_cons, List.mem_append] at hn
    rw [nodes_cons]
    rcases hn with hfirst | hrest
    · exact List.mem_append_left _ (List.mem_append_left _ hfirst)
    · exact List.mem_append_right _ (induction hrest)

theorem mem_nodes_seconds {pairs : List (α × β)} {n : Node}
    (hn : n ∈ nodes (pairs.map Prod.snd)) : n ∈ nodes pairs := by
  induction pairs with
  | nil => exact hn
  | cons pair pairs induction =>
    rw [List.map_cons, nodes_cons, List.mem_append] at hn
    rw [nodes_cons]
    rcases hn with hsecond | hrest
    · exact List.mem_append_left _ (List.mem_append_right _ hsecond)
    · exact List.mem_append_right _ (induction hrest)

/-! ### Parts of expressions -/

instance : HasNodes Comprehension where
  nodes c := nodes c.target ++ (nodes c.iter ++ nodes c.ifs)

instance : HasNodes Parameter where
  nodes p := nodes p.annotation ++ nodes p.default

instance : HasNodes Parameters where
  nodes ps := nodes ps.args ++ (nodes ps.vararg ++ (nodes ps.kwonly ++ nodes ps.kwarg))

instance : HasNodes NamedArgument where
  nodes a := nodes a.value

mutual

def FormatPart.nodes : FormatPart → List Node
  | .literal _ => []
  | .field value _ _ formatSpec => .expr value :: FormatPart.nodesOfAll formatSpec

def FormatPart.nodesOfAll : List FormatPart → List Node
  | [] => []
  | part :: parts => part.nodes ++ FormatPart.nodesOfAll parts

end

instance : HasNodes FormatPart where
  nodes := FormatPart.nodes

theorem FormatPart.nodesOfAll_eq (parts : List FormatPart) :
    FormatPart.nodesOfAll parts = HasNodes.nodes parts := by
  induction parts with
  | nil => rfl
  | cons part parts induction =>
    rw [nodesOfAll, induction, nodes_cons]
    rfl

theorem FormatPart.nodes_field (value : Expr) (debugText : Option String) (letter : Option Char)
    (parts : List FormatPart) :
    HasNodes.nodes (FormatPart.field value debugText letter parts) =
      HasNodes.nodes value ++ HasNodes.nodes parts := by
  rw [← nodesOfAll_eq]
  rfl

mutual

def CommandArg.nodes : CommandArg → List Node
  | .computedVariable value | .hostExpr value => [.expr value]
  | .pipeline command => command.nodes
  | .concat parts => CommandArg.nodesOfAll parts
  | .word _ | .quoted _ | .namedVariable _ | .pathSearch _ | .redirect _ | .raw _ => []

def CommandArg.nodesOfAll : List CommandArg → List Node
  | [] => []
  | arg :: args => arg.nodes ++ CommandArg.nodesOfAll args

def PipelineStage.nodes : PipelineStage → List Node
  | ⟨_, argv⟩ => CommandArg.nodesOfAll argv

def PipelineStage.nodesOfAll : List PipelineStage → List Node
  | [] => []
  | stage :: stages => stage.nodes ++ PipelineStage.nodesOfAll stages

def Pipeline.nodes : Pipeline → List Node
  | ⟨_, stages, _⟩ => PipelineStage.nodesOfAll stages

end

instance : HasNodes CommandArg where
  nodes := CommandArg.nodes

instance : HasNodes PipelineStage where
  nodes := PipelineStage.nodes

instance : HasNodes Pipeline where
  nodes := Pipeline.nodes

theorem CommandArg.nodesOfAll_eq (args : List CommandArg) :
    CommandArg.nodesOfAll args = HasNodes.nodes args := by
  induction args with
  | nil => rfl
  | cons arg args induction =>
    rw [nodesOfAll, induction, nodes_cons]
    rfl

theorem PipelineStage.nodesOfAll_eq (stages : List PipelineStage) :
    PipelineStage.nodesOfAll stages = HasNodes.nodes stages := by
  induction stages with
  | nil => rfl
  | cons stage stages induction =>
    rw [nodesOfAll, induction, nodes_cons]
    rfl

theorem CommandArg.nodes_concat (parts : List CommandArg) :
    HasNodes.nodes (CommandArg.concat parts) = HasNodes.nodes parts :=
  nodesOfAll_eq parts

theorem PipelineStage.nodes_mk (connector : Option StageLink) (argv : List CommandArg) :
    HasNodes.nodes (PipelineStage.mk connector argv) = HasNodes.nodes argv :=
  CommandArg.nodesOfAll_eq argv

theorem Pipeline.nodes_mk (capture : CaptureMode) (stages : List PipelineStage)
    (background : Bool) :
    HasNodes.nodes (Pipeline.mk capture stages background) = HasNodes.nodes stages :=
  PipelineStage.nodesOfAll_eq stages

instance : HasNodes ContextItem where
  nodes item := nodes item.context ++ nodes item.target

/-! ### Children -/

instance : HasNodes ExprForm where
  nodes
    | .name _ | .constant _ | .pathSearch _ | .namedVariable _ => []
    | .fstring parts => nodes parts
    | .path value | .unaryOp _ value | .await value | .yieldFrom value | .macroCall value _
    | .attribute value _ | .starred value | .computedVariable value | .help value _ => nodes value
    | .boolOp _ values | .set values | .list values | .tuple values => nodes values
    | .binding target value => nodes target ++ nodes value
    | .binOp left _ right => nodes left ++ nodes right
    | .lambda args body => nodes args ++ nodes body
    | .conditional test body orelse => nodes test ++ (nodes body ++ nodes orelse)
    | .dict keys values => nodes keys ++ nodes values
    | .listComp elt generators | .setComp elt generators | .generator elt generators =>
      nodes elt ++ nodes generators
    | .dictComp key value generators => nodes key ++ (nodes value ++ nodes generators)
    | .yield value => nodes value
    | .compare left _ comparators => nodes left ++ nodes comparators
    | .call func args keywords => nodes func ++ (nodes args ++ nodes keywords)
    | .subscript value slice => nodes value ++ nodes slice
    | .slice lower upper step => nodes lower ++ (nodes upper ++ nodes step)
    | .pipeline command => nodes command

instance : HasNodes StmtForm where
  nodes
    | .pass | .break | .continue | .global _ | .nonlocal _ | .importNames _ | .fromImport _ _ _ => []
    | .expr value => nodes value
    | .assign targets value => nodes targets ++ nodes value
    | .augmented target _ value => nodes target ++ nodes value
    | .annotated target annotation value => nodes target ++ (nodes annotation ++ nodes value)
    | .return value => nodes value
    | .delete targets => nodes targets
    | .raise exc cause => nodes exc ++ nodes cause
    | .assert test msg => nodes test ++ nodes msg
    | .if test body orelse | .while test body orelse => nodes test ++ (nodes body ++ nodes orelse)
    | .for target iter body orelse _ =>
      nodes target ++ (nodes iter ++ (nodes body ++ nodes orelse))
    | .function _ args body decorators returns _ =>
      nodes args ++ (nodes body ++ (nodes decorators ++ nodes returns))
    | .classDefinition _ bases keywords body decorators =>
      nodes bases ++ (nodes keywords ++ (nodes body ++ nodes decorators))
    | .with items body _ => nodes items ++ nodes body
    | .rawWith items _ => nodes items
    | .try body handlers orelse finalbody =>
      nodes body ++ (nodes handlers ++ (nodes orelse ++ nodes finalbody))

instance : HasNodes Module where
  nodes tree := nodes tree.body

instance : HasNodes Ast where
  nodes
    | .module tree => nodes tree
    | .expression tree => nodes tree

namespace Node

/-- The nodes right below a node. -/
def children : Node → List Node
  | expr e => nodes e.form
  | stmt s => nodes s.form
  | handler h => nodes h.exception ++ nodes h.body

/-- A node and all nodes below it. -/
inductive Contains (n : Node) : Node → Prop
  | self : Contains n n
  | child {m child : Node} (contains : Contains n m) (hchild : child ∈ m.children) :
      Contains n child

end Node

end ShellSyntax
