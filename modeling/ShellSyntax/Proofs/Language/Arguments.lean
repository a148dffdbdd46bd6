import Mathlib.Data.List.SplitBy
import ShellSyntax.Proofs.Language.Merging
import ShellSyntax.Proofs.Parser.Reading

/-!
The arguments that pieces make. Pieces that touch are one argument, and words that touch in it are
one word; the parser gets there piece by piece.
-/

namespace ShellSyntax

def Feed.stopBefore (f : Feed) (i : Nat) : Position :=
  match f.token (i - 1) with
  | .ok t => t.stop
  | .error _ => .origin

namespace Language

/-- A piece of an argument, the place of its first token, and the place behind its last. -/
structure Piece where
  arg : CommandArg
  first : Nat
  next : Nat

namespace Piece

/-- One piece starts in the source exactly where the other stops. -/
def touches (f : Feed) (p q : Piece) : Bool :=
  f.stopBefore p.next == f.startOf q.first

/-- Pieces that touch belong to one argument, unless one of them is none of the kinds that do. -/
def joins (f : Feed) (p q : Piece) : Bool :=
  p.touches f q && !isSeparate p.arg && !isSeparate q.arg

end Piece

def mergeWords : List CommandArg → List CommandArg
  | .word a :: .word b :: rest => mergeWords (.word (a ++ b) :: rest)
  | arg :: rest => arg :: mergeWords rest
  | [] => []
termination_by args => args.length

def concatenation : List CommandArg → CommandArg
  | [arg] => arg
  | parts => .concat parts

/-- The argument that pieces make which touch each other. -/
def argumentOf (pieces : List Piece) : CommandArg :=
  concatenation (mergeWords (pieces.map Piece.arg))

/-- The arguments of a command that consists of these pieces. -/
def arguments (f : Feed) (pieces : List Piece) : List CommandArg :=
  (pieces.splitBy (Piece.joins f)).map argumentOf

variable {f : Feed} {args : List CommandArg} {arg : CommandArg} {pieces : List Piece} {p : Piece}

/-! ### One argument -/

theorem joinPieces_cons (hargs : args ≠ []) (right : CommandArg) :
    joinPieces (arg :: args) right = arg :: joinPieces args right := by
  cases args with
  | nil => exact absurd rfl hargs
  | cons head rest =>
    simp only [joinPieces, List.getLast?_cons_cons, List.dropLast_cons_cons]
    split <;> rfl

theorem mergeWords_ne_nil (hargs : args ≠ []) : mergeWords args ≠ [] := by
  fun_induction mergeWords args with
  | case1 a b rest induction => exact induction (List.cons_ne_nil _ _)
  | case2 => exact List.cons_ne_nil _ _
  | case3 => exact absurd rfl hargs

theorem mergeWords_pair (left right : CommandArg) :
    mergeWords [left, right] = joinPieces [left] right := by
  fun_cases joinPieces [left] right with
  | case1 a b hlast =>
    obtain rfl : left = .word a := by simpa using hlast
    simp [mergeWords]
  | case2 _ hother =>
    rw [mergeWords.eq_2 left [right] fun a b _ hleft hright => ?_, mergeWords, mergeWords]
    · rfl
    · nofun
    · exact hother a b (hleft ▸ rfl) (List.cons.inj hright).1

theorem mergeWords_concat (args : List CommandArg) (right : CommandArg) :
    mergeWords (args ++ [right]) = joinPieces (mergeWords args) right := by
  fun_induction mergeWords args with
  | case1 a b rest induction =>
    rw [List.cons_append, List.cons_append, mergeWords]
    exact induction
  | case2 arg rest hapart induction =>
    cases rest with
    | nil =>
      rw [mergeWords]
      exact mergeWords_pair arg right
    | cons head rest =>
      rw [joinPieces_cons (mergeWords_ne_nil (List.cons_ne_nil _ _)), ← induction]
      refine mergeWords.eq_2 arg _ fun a b _ harg hrest => ?_
      exact hapart a b rest harg (by rw [(List.cons.inj hrest).1])
  | case3 => cases right <;> simp [mergeWords, joinPieces]

theorem mergeWords_plain (hargs : ∀ arg ∈ args, arg.isConcat = false) :
    ∀ arg ∈ mergeWords args, arg.isConcat = false := by
  fun_induction mergeWords args with
  | case1 a b rest induction =>
    refine induction (List.forall_mem_cons.mpr ⟨rfl, fun arg harg => hargs arg ?_⟩)
    exact List.mem_cons_of_mem _ (List.mem_cons_of_mem _ harg)
  | case2 arg rest _ induction =>
    obtain ⟨harg, hrest⟩ := List.forall_mem_cons.mp hargs
    exact List.forall_mem_cons.mpr ⟨harg, induction hrest⟩
  | case3 => exact hargs

theorem joinPieces_ne_nil (args : List CommandArg) (right : CommandArg) :
    joinPieces args right ≠ [] := by
  unfold joinPieces
  split <;> exact List.append_ne_nil_of_right_ne_nil _ (List.cons_ne_nil _ _)

theorem concatenation_joinPieces (hargs : args ≠ []) (hplain : ∀ arg ∈ args, arg.isConcat = false)
    (right : CommandArg) :
    concatenation (joinPieces args right) = fuse (concatenation args) right := by
  match args with
  | [left] =>
    have hleft := hplain left List.mem_cons_self
    cases left with
    | concat parts => cases hleft
    | _ => cases right <;> rfl
  | first :: second :: rest =>
    obtain ⟨next, others, hjoined⟩ := List.exists_cons_of_ne_nil
      (joinPieces_ne_nil (second :: rest) right)
    have hparts : joinPieces (first :: second :: rest) right = first :: next :: others := by
      rw [joinPieces_cons (List.cons_ne_nil _ _), hjoined]
    rw [hparts, concatenation, concatenation, fuse, hparts]
    · nofun
    · nofun

theorem argumentOf_single (p : Piece) : argumentOf [p] = p.arg := by
  cases hp : p.arg <;> simp [argumentOf, mergeWords, concatenation, hp]

theorem argumentOf_concat (hpieces : pieces ≠ [])
    (hplain : ∀ q ∈ pieces, q.arg.isConcat = false) :
    argumentOf (pieces ++ [p]) = fuse (argumentOf pieces) p.arg := by
  have hargs : ∀ arg ∈ pieces.map Piece.arg, arg.isConcat = false :=
    List.forall_mem_map.mpr hplain
  have hmerged : mergeWords ((pieces ++ [p]).map Piece.arg) =
      joinPieces (mergeWords (pieces.map Piece.arg)) p.arg := by
    rw [List.map_append]
    exact mergeWords_concat _ _
  rw [argumentOf, hmerged]
  refine concatenation_joinPieces (mergeWords_ne_nil ?_) (mergeWords_plain hargs) _
  simpa using hpieces

theorem isSeparate_fuse (left right : CommandArg) : isSeparate (fuse left right) = false := by
  unfold fuse
  split <;> rfl

/-! ### All arguments -/

section Groups

variable {α : Type} {r : α → α → Bool} {items group : List α} {last item : α}

theorem getLast?_splitBy (r : α → α → Bool) (hlast : items.getLast? = some last) :
    ∃ group, (items.splitBy r).getLast? = some group ∧ group.getLast? = some last := by
  have hitems : items ≠ [] := by
    rintro rfl
    cases hlast
  have hgroups : items.splitBy r ≠ [] := List.splitBy_ne_nil.mpr hitems
  refine ⟨_, List.getLast?_eq_some_getLast hgroups, ?_⟩
  have hgroup := List.ne_nil_of_mem_splitBy (List.getLast_mem hgroups)
  rw [List.getLast?_eq_some_getLast hgroup, List.getLast_getLast_splitBy r hitems, ← hlast,
    List.getLast?_eq_some_getLast hitems]

theorem splitBy_concat (hgroup : (items.splitBy r).getLast? = some group)
    (hlast : group.getLast? = some last) (hjoins : r last item = true) :
    (items ++ [item]).splitBy r = (items.splitBy r).dropLast ++ [group ++ [item]] := by
  have hmem : group ∈ items.splitBy r := List.mem_of_getLast? hgroup
  have hne : group ≠ [] := List.ne_nil_of_mem_splitBy hmem
  have hsplit := List.dropLast_append_getLast? group hgroup
  refine List.splitBy_eq_iff.mpr ⟨?_, ?_, ?_, ?_⟩
  · rw [List.flatten_append, List.flatten_singleton, ← List.append_assoc,
      ← List.flatten_singleton (l := group), ← List.flatten_append, hsplit, List.flatten_splitBy]
  · intro hnil
    rcases List.mem_append.mp hnil with hnil | hnil
    · exact List.nil_notMem_splitBy r items ((List.dropLast_sublist _).mem hnil)
    · simp at hnil
  · refine forall_mem_replaceLast (fun _ => List.isChain_of_mem_splitBy) ?_
    refine isChain_concat (List.isChain_of_mem_splitBy hmem) fun end_ hend => ?_
    cases hlast.symm.trans hend
    exact hjoins
  · refine isChain_replaceLast (List.isChain_getLast_head_splitBy r items) hgroup ?_
    rintro before ⟨hbefore, hhead, hapart⟩
    refine ⟨hbefore, List.append_ne_nil_of_left_ne_nil hhead _, ?_⟩
    rwa [List.head_append_of_ne_nil]

end Groups

variable {last : Piece} {group : List Piece}

theorem isSeparate_argumentOf (hgroup : group.IsChain fun p q => p.joins f q = true)
    (hlast : group.getLast? = some last) (hplain : ∀ q ∈ group, q.arg.isConcat = false) :
    isSeparate (argumentOf group) = isSeparate last.arg := by
  obtain ⟨others, rfl⟩ : ∃ others, group = others ++ [last] :=
    ⟨_, (List.dropLast_append_getLast? last hlast).symm⟩
  rcases List.eq_nil_or_concat others with rfl | ⟨before, p, rfl⟩
  · rw [List.nil_append, argumentOf_single]
  · have hjoins : p.joins f last = true := by
      rw [List.concat_eq_append] at hgroup
      exact (List.isChain_append.mp hgroup).2.2 p (by simp) last rfl
    rw [argumentOf_concat (by simp) fun q hq => hplain q (List.mem_append_left _ hq),
      isSeparate_fuse]
    simp only [Piece.joins, Bool.and_eq_true, Bool.not_eq_true'] at hjoins
    exact hjoins.2.symm

theorem arguments_apart (hapart : ∀ last ∈ pieces.getLast?, last.joins f p = false) :
    arguments f (pieces ++ [p]) = arguments f pieces ++ [p.arg] := by
  unfold arguments
  rw [List.splitBy_append_cons [] hapart, List.map_append]
  exact congrArg (_ ++ [·]) (argumentOf_single p)

theorem arguments_joined (hgroup : (pieces.splitBy (Piece.joins f)).getLast? = some group)
    (hlast : group.getLast? = some last) (hjoins : last.joins f p = true)
    (hplain : ∀ q ∈ group, q.arg.isConcat = false) :
    arguments f (pieces ++ [p]) =
      (arguments f pieces).dropLast ++ [fuse (argumentOf group) p.arg] := by
  have hsome : group ≠ [] := List.ne_nil_of_mem_splitBy (List.mem_of_getLast? hgroup)
  unfold arguments
  rw [splitBy_concat hgroup hlast hjoins, List.map_append, List.map_singleton,
    argumentOf_concat hsome hplain, List.map_dropLast]

theorem addPiece_arguments {touches : Bool}
    (htouches : ∀ last ∈ pieces.getLast?, touches = last.touches f p)
    (hplain : ∀ q ∈ pieces, q.arg.isConcat = false) :
    addPiece (arguments f pieces) p.arg touches = arguments f (pieces ++ [p]) := by
  cases hlast : pieces.getLast? with
  | none =>
    cases List.getLast?_eq_none_iff.mp hlast
    exact congrArg ([·]) (argumentOf_single p).symm
  | some last =>
    cases htouches last hlast
    obtain ⟨group, hgroup, hend⟩ := getLast?_splitBy (Piece.joins f) hlast
    have hmem : group ∈ pieces.splitBy (Piece.joins f) := List.mem_of_getLast? hgroup
    have hplainGroup : ∀ q ∈ group, q.arg.isConcat = false := fun q hq => hplain q (by
      rw [← List.flatten_splitBy (Piece.joins f) pieces]
      exact List.mem_flatten_of_mem hmem hq)
    have hseparate := isSeparate_argumentOf (List.isChain_of_mem_splitBy hmem) hend hplainGroup
    have hargument : (arguments f pieces).getLast? = some (argumentOf group) := by
      rw [arguments, List.getLast?_map, hgroup]
      rfl
    -- the parser looks at the argument that it has made, the statement at the last of its pieces
    have hcondition : (last.touches f p && !isSeparate p.arg && !isSeparate (argumentOf group)) =
        last.joins f p := by
      rw [hseparate, Piece.joins, Bool.and_right_comm]
    unfold addPiece
    simp only [hargument, hcondition]
    split
    case isTrue hjoins => exact (arguments_joined hgroup hend hjoins hplainGroup).symm
    case isFalse hapart =>
      refine (arguments_apart fun q hq => ?_).symm
      cases hlast.symm.trans hq
      exact Bool.eq_false_iff.mpr hapart

end Language

end ShellSyntax
