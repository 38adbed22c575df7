import Mathlib.Algebra.Order.Group.Abs
import Mathlib.Algebra.Order.Ring.Defs
import Mathlib.Algebra.Ring.Nat
import Mathlib.Data.Nat.Cast.Defs
import Mathlib.Tactic.Linarith

/-!
# Devices that act only when their input has moved

A device reads one input after another and sometimes acts. What keeps it from acting all the time
is a dead band: after it has acted, the input has to travel some way before it acts again. How far
that is, and what the device does, differ from one to the next, but the bound on the number of
actions does not: the distance covered since the last action is a potential that the input fills
as it moves, at most as fast as it moves, and that an action empties.

The inputs are of any ordered ring, and nothing here knows what the device controls.

## Main definitions

* `DeadBand.travel` — how far a sequence of inputs goes, up and down
* `DeadBand.count` — how often the device acts
* `DeadBand.Potential` — what an input fills and an action empties

## Main results

* `DeadBand.Potential.mul_count_le` — the actions times the gap are at most the travel
* `DeadBand.count_append_singleton` — one more input
-/

namespace DeadBand

/-! ### Counting -/

section Count

variable {σ α : Type} (next : σ → α → σ) (acts : σ → α → Bool)

/-- The number of actions of a device that starts in state `s`: `next` is its next state, and
`acts` whether it acts. -/
def count : σ → List α → ℕ
  | _, [] => 0
  | s, x :: l => (acts s x).toNat + count (next s x) l

theorem count_append_singleton (s : σ) (l : List α) (x : α) :
    count next acts s (l ++ [x]) =
      count next acts s l + (acts (l.foldl next s) x).toNat := by
  induction l generalizing s with
  | nil => rw [List.nil_append, count, count, count, List.foldl_nil, Nat.add_comm]
  | cons y l ih => rw [List.cons_append, count, ih, count, List.foldl_cons, Nat.add_assoc]

end Count

/-! ### The potential -/

variable {σ R : Type} [CommRing R] [LinearOrder R]

/-- The total variation of a sequence of inputs that starts at `x`. -/
def travel : R → List R → R
  | _, [] => 0
  | x, y :: l => |y - x| + travel y l

/-- A potential of a device in the states that satisfy `P`. The inputs satisfy `Q`. -/
structure Potential (next : σ → R → σ) (acts : σ → R → Bool) (P : σ → Prop) (Q : R → Prop)
    (gap : R) where
  /-- In a state, at an input. -/
  value : σ → R → R
  nonneg : ∀ s x, 0 ≤ value s x
  keeps : ∀ s x, P s → Q x → P (next s x)
  /-- The input fills it no faster than it moves. -/
  fills : ∀ s x y, value s y ≤ value s x + |y - x|
  /-- An action takes the gap out of it. -/
  empties : ∀ s y, P s → Q y → acts s y = true → gap + value (next s y) y ≤ value s y
  /-- A step without an action leaves it alone. -/
  stays : ∀ s y, P s → Q y → acts s y = false → value (next s y) y ≤ value s y

variable [IsStrictOrderedRing R]
  {next : σ → R → σ} {acts : σ → R → Bool} {P : σ → Prop} {Q : R → Prop} {gap : R}

/-- One input. -/
theorem Potential.step (φ : Potential next acts P Q gap) {s : σ} (hs : P s) (x : R) {y : R}
    (hy : Q y) :
    gap * ((acts s y).toNat : R) + φ.value (next s y) y ≤ φ.value s x + |y - x| := by
  have hfill := φ.fills s x y
  cases hact : acts s y with
  | true =>
    have hempty := φ.empties s y hs hy hact
    rw [Bool.toNat_true, Nat.cast_one, mul_one]
    linarith
  | false =>
    have hstay := φ.stays s y hs hy hact
    rw [Bool.toNat_false, Nat.cast_zero, mul_zero, zero_add]
    linarith

/-- **The bound.** A device that starts with an empty potential acts at most once for each gap that
the input travels. -/
theorem Potential.mul_count_le (φ : Potential next acts P Q gap) {s : σ} (hs : P s) (x : R)
    {l : List R} (hl : ∀ y ∈ l, Q y) :
    gap * (count next acts s l : R) ≤ φ.value s x + travel x l := by
  induction l generalizing s x with
  | nil =>
    rw [count, travel, Nat.cast_zero, mul_zero, add_zero]
    exact φ.nonneg s x
  | cons y l ih =>
    have hy := hl y List.mem_cons_self
    have hstep := φ.step hs x hy
    have hrest := ih (φ.keeps s y hs hy) y fun z hz => hl z (List.mem_cons_of_mem y hz)
    rw [count, travel, Nat.cast_add, mul_add]
    linarith

end DeadBand
