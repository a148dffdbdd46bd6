import ShellSyntax.Language.Items
import ShellSyntax.Language.Mistake
import ShellSyntax.Proofs.Parser.Advance

/-!
The order of the rules of the language, and what follows from it for the ways of writing matchers,
for lists of expressions, targets and mistakes: they go forward, and where they start they call
only rules of lower ranks.
-/

namespace ShellSyntax.Language

open Matcher

namespace Rule

def rank : Rule → Nat
  | program => 27
  | soleExpr => 26
  | stmtList => 25
  | suite => 24
  | smallStmt => 23
  | elifBranch => 22
  | exprOrSpread => 21
  | bindingExpr => 20
  | expr => 19
  | orExpr => 18
  | andExpr => 17
  | notExpr => 16
  | targetItem => 15
  | bitOrExpr => 14
  | bitXorExpr => 13
  | bitAndExpr => 12
  | shiftedExpr => 11
  | addExpr => 10
  | mulExpr => 9
  | signedExpr => 8
  | awaitExpr => 7
  | postfixExpr => 6
  | atomicExpr => 5
  | stringRun => 4
  | commandExpr => 3
  | fstringInside true => 2
  | fstringInside false => 1

def isEntry : Rule → Bool
  | program | soleExpr => true
  | _ => false

/-- An f-string may be empty. -/
def mayBeEmpty : Rule → Bool
  | fstringInside _ => true
  | _ => false

end Rule

def ranking : Ranking rules where
  rank := Rule.rank
  isEntry := Rule.isEntry
  mayBeEmpty := Rule.mayBeEmpty
  rank_le := by
    intro r
    have table : ∀ r ∈ Rule.all, r.rank ≤ Rule.all.length := by decide
    exact table r (Rule.mem_all r)
  rank_injective := by
    intro r s h
    have table : ∀ r ∈ Rule.all, ∀ s ∈ Rule.all, r.rank = s.rank → r = s := by decide
    exact table r (Rule.mem_all r) s (Rule.mem_all s) h

variable {α : Type} {W : World} {b : Base} {i j k : Nat}

/-! ### Ways of matching -/

theorem giveUp_ensures {start : Nat} (hstart : b.start ≤ start) (hback : start ≤ i)
    (hle : k ≤ start) : Ensures W ranking b (giveUp start : Match (Option α)) i (Beyond k) :=
  .reset hstart hback (Beyond.none hle)

theorem attempt_advances {inner : Nat → Match (Option α)} (hstart : b.start ≤ i)
    (h : Ensures W ranking b (inner i) i (Beyond i)) : Advances W ranking b (attempt inner) i := by
  refine .mark (.bind (h.mono ?_))
  rintro (_ | a) j hbeyond
  · exact giveUp_ensures hstart hbeyond.1 (Nat.le_refl i)
  · exact hbeyond

theorem attempt_ensures {inner : Nat → Match (Option α)} (hstart : b.start ≤ i)
    (h : Ensures W ranking b (inner i) i fun _ j => i ≤ j) :
    Ensures W ranking b (attempt inner) i fun _ j => i ≤ j := by
  refine .mark (.bind (h.mono ?_))
  rintro (_ | a) j hj
  · exact .reset hstart hj (Nat.le_refl i)
  · exact hj

theorem node_ensures {start : Nat} {form : ExprForm} (hstart : start < i) (hlt : k < i) :
    Ensures W ranking b (node start form) i (Beyond k) :=
  .spanSince hstart fun _ => .some hlt

theorem stmtNode_ensures {start : Nat} {form : StmtForm} (hstart : start < i) (hlt : k < i) :
    Ensures W ranking b (stmtNode start form) i (Beyond k) :=
  .spanSince hstart fun _ => .some hlt

theorem oneOf_advances (table : List (String × α)) : Advances W ranking b (oneOf table) i := by
  induction table with
  | nil => exact .none (Nat.le_refl i)
  | cons entry others ih => exact .accepts (.some (Nat.lt_succ_self i)) ih

theorem inspect_ensures {inner : Match Unit} (hstart : b.start ≤ i)
    (h : Ensures W ranking b inner i fun _ j => i ≤ j) :
    Ensures W ranking b (inspect inner) i fun _ j => j = i :=
  .mark (.bind (h.mono fun _ _ hj =>
    Matcher.bind_done (Matcher.reset (R := rules) i) ▸ .reset hstart hj rfl))

/-! ### Lists of expressions -/

theorem tupleOrSingle_advances {item : Match (Option Expr)}
    (hitem : ∀ j, i ≤ j → Advances W ranking b item j) :
    Advances W ranking b (tupleOrSingle item) i := by
  refine .mark ((hitem i (Nat.le_refl i)).need (Nat.le_refl i) rfl fun first j hj => ?_)
  refine .bind (.loop (fun _ j => i < j) hj ?_)
  rintro ⟨items, isTuple⟩ j hj
  refine .unlessAccepts ?_ ?_
  · cases isTuple with
    | false => exact .some hj
    | true => exact node_ensures hj hj
  · refine (hitem (j + 1) (by omega)).andThen ?_ ?_
    · intro value k hk
      exact ⟨by omega, by omega⟩
    · intro k hk
      exact node_ensures (by omega) (by omega)

theorem spreadOr_advances {plain : Match (Option Expr)} (hstart : b.start ≤ i)
    (hplain : Advances W ranking b plain i) : Advances W ranking b (spreadOr plain) i := by
  refine .mark (.ifAccepts ?_ hplain)
  refine Advances.andThen (.rule (.later (by omega) rfl) rfl) ?_ ?_
  · intro value j hj
    exact node_ensures (by omega) (by omega)
  · intro j hj
    exact giveUp_ensures hstart (by omega) (Nat.le_refl i)

theorem bindingOrSpread_advances (h : ranking.Allows b .bindingExpr i) :
    Advances W ranking b bindingOrSpread i :=
  spreadOr_advances h.start_le (.rule h rfl)

theorem spreadTuple_advances (h : ranking.Allows b .exprOrSpread i) :
    Advances W ranking b spreadTuple i :=
  tupleOrSingle_advances fun _ hj => .rule (h.at hj) rfl

theorem bindingTuple_advances (h : ranking.Allows b .bindingExpr i) :
    Advances W ranking b bindingTuple i :=
  tupleOrSingle_advances fun _ hj => bindingOrSpread_advances (h.at hj)

theorem exprTuple_advances (h : ranking.Allows b .expr i) :
    Advances W ranking b exprTuple i :=
  tupleOrSingle_advances fun _ hj => .rule (h.at hj) rfl

theorem yielded_advances (hstart : b.start ≤ i) : Advances W ranking b yielded i := by
  refine .mark (.expect (Nat.le_refl i) (.ifAccepts ?_ ?_))
  · refine Advances.andThen (.rule (.later (by omega) rfl) rfl) ?_ ?_
    · intro value j hj
      exact node_ensures (by omega) (by omega)
    · intro j hj
      exact giveUp_ensures hstart (by omega) (Nat.le_refl i)
  · refine .bind ((spreadTuple_advances (.later (by omega) rfl)).mono fun value j hj => ?_)
    have hlt := hj.1
    exact node_ensures (by omega) (by omega)

theorem yieldOrTuple_advances (h : ranking.Allows b .exprOrSpread i) :
    Advances W ranking b yieldOrTuple i := by
  refine (yielded_advances h.start_le).andThen (fun value j hj => .some hj) fun j hj => ?_
  exact (spreadTuple_advances (h.at hj)).mono fun _ k hk =>
    ⟨Nat.le_trans hj hk.1, fun hsome => Nat.lt_of_le_of_lt hj (hk.2 hsome)⟩

/-! ### Targets -/

theorem restricted_advances {admits : ExprForm → Bool} (h : ranking.Allows b .bitOrExpr i) :
    Advances W ranking b (restricted admits) i := by
  refine attempt_advances h.start_le ?_
  refine Advances.need (.rule h rfl) (Nat.le_refl i) rfl fun target j hj => ?_
  dsimp only
  split
  case isTrue => exact .some hj
  case isFalse => exact .none (Nat.le_of_lt hj)

theorem soleTarget_advances (h : ranking.Allows b .bitOrExpr i) :
    Advances W ranking b soleTarget i :=
  restricted_advances h

theorem deletableTarget_advances (h : ranking.Allows b .bitOrExpr i) :
    Advances W ranking b deletableTarget i :=
  restricted_advances h

theorem targetItemRule_advances (h : ranking.Allows b .bitOrExpr i) :
    Advances W ranking b targetItemRule i := by
  have hstart := h.start_le
  refine .mark (.ifAccepts ?_ (restricted_advances h))
  refine Advances.andThen (.rule (.later (by omega) rfl) rfl) ?_ ?_
  · intro inner j hj
    exact node_ensures (by omega) (by omega)
  · intro j hj
    exact giveUp_ensures hstart (by omega) (Nat.le_refl i)

theorem targetTuple_advances (h : ranking.Allows b .targetItem i) :
    Advances W ranking b targetTuple i :=
  tupleOrSingle_advances fun _ hj => .rule (h.at hj) rfl

/-! ### Mistakes -/

theorem augmentedOperator_advances : Advances W ranking b augmentedOperator i := by
  refine .peek fun t ht => ?_
  split
  case isTrue => exact .none (Nat.le_refl i)
  case isFalse hop =>
    rw [Bool.not_eq_true, bne_eq_false_iff_eq] at hop
    split
    · exact .none (Nat.le_refl i)
    · refine .next fun t' ht' => ?_
      cases ht.symm.trans ht'
      refine ⟨fun hend => ?_, .some (Nat.lt_succ_self i)⟩
      cases hop.symm.trans hend.1

theorem rejectTarget_ensures (h : ranking.Allows b .exprOrSpread i) :
    Ensures W ranking b rejectTarget i fun _ j => j = i := by
  refine inspect_ensures h.start_le (.loop (fun _ j => i ≤ j) (Nat.le_refl i) ?_)
  intro _ j hj
  refine (spreadTuple_advances (h.at hj)).andThen ?_ ?_
  · intro target k hk
    refine .ifAccepts ?_ ?_
    · split
      · exact .raiseAt (Parser.not_own_of_head (Parser.head_append rfl _) (by decide))
      · exact ⟨by omega, by omega⟩
    · refine .bind (augmentedOperator_advances.mono fun op l hl => ?_)
      have hle := hl.1
      split
      · exact .bind (.raiseAt (Parser.not_own_of_head
          (Parser.head_append (Parser.head_append rfl _) _) (by decide)))
      · show i ≤ l
        omega
  · intro k hk
    exact Nat.le_trans hj hk

theorem rejectBinding_ensures (h : ranking.Allows b .bitOrExpr i) :
    Ensures W ranking b rejectBinding i fun _ j => j = i := by
  refine inspect_ensures h.start_le ?_
  refine Advances.andThen (.rule h rfl) ?_ ?_
  · intro target j hj
    refine .ifAccepts ?_ (Nat.le_of_lt hj)
    split
    · show i ≤ j + 1
      omega
    · exact .raiseAt (Parser.not_own_of_head (Parser.head_append rfl _) (by decide))
  · exact fun j hj => hj

theorem rejectMissingElse_ensures (h : ranking.Allows b .orExpr i) :
    Ensures W ranking b rejectMissingElse i fun _ j => j = i := by
  have hstart := h.start_le
  refine inspect_ensures hstart (.mark ?_)
  refine Advances.andThen (.rule h rfl) ?_ fun j hj => hj
  intro body j hj
  refine .unlessAccepts (Nat.le_of_lt hj) ?_
  refine Advances.andThen (.rule (.later (by omega) rfl) rfl) ?_ ?_
  · intro test k hk
    refine .peek fun t _ => ?_
    split
    · exact .spanSince (by omega) fun _ => .raiseAt (by decide)
    · show i ≤ k
      omega
  · intro k hk
    show i ≤ k
    omega

theorem entry_advances (h : ranking.Allows b .expr i) : Advances W ranking b entry i := by
  have hstart := h.start_le
  refine attempt_advances hstart ?_
  refine Advances.need (.rule h rfl) (Nat.le_refl i) rfl fun key j hj => ?_
  refine .expect (Nat.le_of_lt hj) ?_
  refine Advances.need (.rule (.later (by omega) rfl) rfl) (by omega) rfl fun value k hk => ?_
  exact .some (by omega)

theorem entryOrSpread_advances (h : ranking.Allows b .expr i) :
    Advances W ranking b entryOrSpread i := by
  have hstart := h.start_le
  refine .mark (.ifAccepts ?_ ?_)
  · refine Advances.andThen (.rule (.later (by omega) rfl) rfl) ?_ ?_
    · intro mapping j hj
      exact .some (by omega)
    · intro j hj
      exact giveUp_ensures hstart (by omega) (Nat.le_refl i)
  · exact (entry_advances h).map rfl fun _ => ⟨_, rfl⟩

theorem keyWithoutValue_ensures (h : ranking.Allows b .expr i) :
    Ensures W ranking b keyWithoutValue i fun _ j => i ≤ j := by
  refine Advances.andThen (.rule h rfl) ?_ fun j hj => hj
  intro key j hj
  refine .spelled ?_ (Nat.le_of_lt hj)
  intro colon
  refine .peek fun t _ => ?_
  split
  · exact .raiseAt (by decide)
  · show i ≤ j + 1
    omega

theorem rejectMissingValue_ensures (h : ranking.Allows b .expr i) :
    Ensures W ranking b rejectMissingValue i fun _ j => j = i := by
  have hstart := h.start_le
  refine inspect_ensures hstart (.loop (fun _ j => i ≤ j) (Nat.le_refl i) ?_)
  intro _ j hj
  refine .mark ((entryOrSpread_advances (h.at hj)).andThen ?_ ?_)
  · intro value k hk
    refine .ifAccepts ⟨by omega, by omega⟩ ?_
    show i ≤ k
    omega
  · intro k hk
    refine .reset (Nat.le_trans hstart hj) hk ?_
    exact .bind ((keyWithoutValue_ensures (h.at hj)).mono fun _ l hl => Nat.le_trans hj hl)

theorem rejectMissingIndent_ensures (hstart : b.start ≤ i) :
    Ensures W ranking b rejectMissingIndent i fun _ j => j = i := by
  refine inspect_ensures hstart (.acceptsKind nofun ?_ (Nat.le_refl i))
  refine .peek fun t _ => ?_
  split
  · exact .raise (by decide)
  · exact Nat.le_succ i

theorem rejectEmptyCommand_ensures {opening : Token} {closer : String} :
    Ensures W ranking b (rejectEmptyCommand opening closer) i fun _ j => j = i := by
  refine .peek fun t _ => ?_
  split
  · exact .raiseAt (Parser.not_own_of_head
      (Parser.head_append (Parser.head_append (Parser.head_append rfl _) _) _) (by decide))
  · rfl

end ShellSyntax.Language
