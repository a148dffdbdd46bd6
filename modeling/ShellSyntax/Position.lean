/-! Places in a source text. -/

namespace ShellSyntax

/-- Lines count from one, columns from zero in characters. -/
structure Position where
  line : Nat
  column : Nat
deriving DecidableEq, Repr, Hashable

namespace Position

/-- Where a report points when there is nothing to point at. -/
def origin : Position := ⟨0, 0⟩

instance : Inhabited Position := ⟨origin⟩

/-- Reading order. -/
protected def le (p q : Position) : Prop :=
  p.line < q.line ∨ p.line = q.line ∧ p.column ≤ q.column

instance : LE Position := ⟨Position.le⟩

instance (p q : Position) : Decidable (p ≤ q) :=
  inferInstanceAs (Decidable (p.line < q.line ∨ p.line = q.line ∧ p.column ≤ q.column))

theorem le_iff {p q : Position} :
    p ≤ q ↔ p.line < q.line ∨ p.line = q.line ∧ p.column ≤ q.column :=
  Iff.rfl

theorem le_refl (p : Position) : p ≤ p :=
  .inr ⟨rfl, Nat.le_refl _⟩

theorem le_trans {p q r : Position} (hpq : p ≤ q) (hqr : q ≤ r) : p ≤ r := by
  rw [le_iff] at *
  omega

/-- The later of two places. -/
def later (p q : Position) : Position :=
  if p ≤ q then q else p

def render (p : Position) : String :=
  s!"{p.line}.{p.column}"

end Position

/-- A stretch of source, up to but not including its end. -/
structure Span where
  start : Position
  stop : Position
deriving DecidableEq, Repr, Inhabited

end ShellSyntax
