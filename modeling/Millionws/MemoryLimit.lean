import Mathlib.Algebra.Order.Group.Abs
import Mathlib.Algebra.Order.Group.Int
import Millionws.Admission

/-!
# The garbage collector stays below the guard

`manageMemoryLimit` gives the Go runtime what the container has left: 88% of the limit, less
everything that is not Go's. It leaves the limit alone while the change is under one percent, so
the installed value is not what the last reading asks for but what some earlier one did; and the
guard of `Admission` computes its own threshold from 90% of the same number.

Two facts absorb the drift. The installed limit is always some ideal limit, and so never more
than the target; and it is within a hundredth of itself of the current ideal. The sum of the
installed limit and everything else is then at most the target and a hundredth of it, which is
less than the guard's threshold, truncations included: `other_add_le_high`.

## Integers

Sizes are integers. The two subtractions that can leave 64 bits are wrapped — `goMapped` comes
from unsigned samples, and `current - goMapped` from signed values of any size; all the others
stay in range because both operands do. Shares are exact, as in `Admission`.

## What is deliberately absent

The early returns when `GOMEMLIMIT` is set or the container has no limit, after which nothing
is ever installed, and the gauge that shows the installed limit.

## Main definitions

* `MemoryReading` — what one tick reads
* `limitTick` — the loop body of `manageMemoryLimit`

## Main results

* `limitTick_close` — after a successful reading, the limit is within 1% of the ideal
* `gc_limit_below_guard` — and below the guard, for every history of readings
-/

namespace Millionws

open Transition

namespace MemoryLimit

/-! ### The loop -/

/-- `goLimitShare`, in hundredths. -/
def goLimitShare : ℤ := rejectAbove - 2

/-- The value an `int64` has after a computation. -/
def int64 (n : ℤ) : ℤ := n.bmod (2 ^ 64)

/-- What a tick reads: `memory.current`, and the two samples of the Go runtime. -/
structure MemoryReading where
  parsed : Option ℤ
  total : ℕ
  released : ℕ

/-- `target` in `manageMemoryLimit`. -/
def target (cgroupMax : ℤ) : ℤ := shareOf cgroupMax goLimitShare

/-- `floor` in `manageMemoryLimit`. -/
def floor (cgroupMax : ℤ) : ℤ := cgroupMax.tdiv 20

/-- `goMapped`: the difference of two `uint64` values, converted. -/
def MemoryReading.goMapped (r : MemoryReading) : ℤ := int64 (r.total - r.released)

/-- `other`: kernel memory and page cache. -/
def MemoryReading.other (r : MemoryReading) (current : ℤ) : ℤ :=
  max (int64 (current - r.goMapped)) 0

/-- `limit`: what a reading asks for. -/
def idealLimit (cgroupMax other : ℤ) : ℤ := max (target cgroupMax - other) (floor cgroupMax)

/-- One tick of `manageMemoryLimit`: the limit that is installed after it. -/
def limitTick (cgroupMax : ℤ) (last : ℤ) (r : MemoryReading) : ℤ :=
  match readCgroupInt r.parsed with
  | none => last
  | some current =>
    let limit := idealLimit cgroupMax (r.other current)
    let d := limit - last
    if last.tdiv 100 < d ∨ last.tdiv 100 < -d then limit else last

/-- A tick as a step; it is always possible. -/
def limitStep (cgroupMax : ℤ) (last : ℤ) (r : MemoryReading) : Option ℤ :=
  some (limitTick cgroupMax last r)

/-! ### One tick -/

variable {cgroupMax last current : ℤ} {r : MemoryReading}

theorem other_nonneg (r : MemoryReading) (current : ℤ) : 0 ≤ r.other current := le_max_right _ _

theorem floor_nonneg (h : 0 < cgroupMax) : 0 ≤ floor cgroupMax := by
  rw [floor, Int.tdiv_eq_ediv_of_nonneg (by omega)]
  omega

theorem floor_le_target (h : 0 < cgroupMax) : floor cgroupMax ≤ target cgroupMax := by
  rw [floor, target, shareOf, goLimitShare, rejectAbove, Int.tdiv_eq_ediv_of_nonneg (by omega),
    Int.tdiv_eq_ediv_of_nonneg (by omega)]
  omega

theorem idealLimit_nonneg (h : 0 < cgroupMax) (other : ℤ) : 0 ≤ idealLimit cgroupMax other :=
  (floor_nonneg h).trans (le_max_right _ _)

theorem idealLimit_le_target (h : 0 < cgroupMax) {other : ℤ} (hother : 0 ≤ other) :
    idealLimit cgroupMax other ≤ target cgroupMax :=
  max_le (by omega) (floor_le_target h)

/-- The installed limit is between nothing and the target. -/
theorem limitTick_mem_Icc (h : 0 < cgroupMax) (hlast : 0 ≤ last ∧ last ≤ target cgroupMax) :
    0 ≤ limitTick cgroupMax last r ∧ limitTick cgroupMax last r ≤ target cgroupMax := by
  rw [limitTick]
  cases readCgroupInt r.parsed with
  | none => exact hlast
  | some current =>
    simp only
    split_ifs
    · exact ⟨idealLimit_nonneg h _, idealLimit_le_target h (other_nonneg r current)⟩
    · exact hlast

/-- **The drift.** After a tick that could read, the installed limit is within a hundredth of
itself of what the reading asked for. -/
theorem limitTick_close (h : 0 < cgroupMax) (hlast : 0 ≤ last)
    (hread : readCgroupInt r.parsed = some current) :
    100 * |limitTick cgroupMax last r - idealLimit cgroupMax (r.other current)| ≤
      limitTick cgroupMax last r := by
  have hideal := idealLimit_nonneg h (r.other current)
  rw [limitTick, hread]
  simp only
  generalize idealLimit cgroupMax (r.other current) = limit at hideal ⊢
  rw [Int.tdiv_eq_ediv_of_nonneg hlast]
  split_ifs with hd
  · rwa [sub_self, abs_zero, mul_zero]
  · have hsmall : |last - limit| ≤ last / 100 := abs_le.mpr ⟨by omega, by omega⟩
    omega

/-- The guard's threshold is more than a hundredth of the target above the target. -/
theorem other_add_le_high (h : 0 < cgroupMax) {other L : ℤ} (hL : 0 ≤ L)
    (hLt : L ≤ target cgroupMax) (hroom : floor cgroupMax ≤ target cgroupMax - other)
    (hclose : 100 * |L - idealLimit cgroupMax other| ≤ L) : other + L ≤ high cgroupMax := by
  have hideal : idealLimit cgroupMax other = target cgroupMax - other := max_eq_left hroom
  have habs := le_abs_self (L - idealLimit cgroupMax other)
  rw [hideal] at habs hclose
  have htarget : target cgroupMax = cgroupMax * 88 / 100 := by
    rw [target, shareOf, goLimitShare, rejectAbove, Int.tdiv_eq_ediv_of_nonneg (by omega)]
    rfl
  have hhigh : high cgroupMax = cgroupMax * 90 / 100 := by
    rw [high, shareOf, rejectAbove, Int.tdiv_eq_ediv_of_nonneg (by omega)]
  omega

/-! ### Every run -/

/-- **The limit stays below the guard.** After any history of ticks and one more that can read,
the installed limit is within a hundredth of itself of the ideal one. Unless the floor raised
that, the installed limit and the rest of the container together are at most the threshold of
`guardMemory`, which therefore does not start to turn clients away while Go keeps within its
limit and the rest does not change. -/
theorem gc_limit_below_guard (h : 0 < cgroupMax) {history : List MemoryReading}
    (hlast : run (limitStep cgroupMax) 0 history = some last)
    (hread : readCgroupInt r.parsed = some current) :
    let other := r.other current
    let L := limitTick cgroupMax last r
    100 * |L - idealLimit cgroupMax other| ≤ L ∧
    (floor cgroupMax ≤ target cgroupMax - other →
      other + L ≤ high cgroupMax ∧
      ∀ goUsed ≤ L, guardTick cgroupMax (some (other + goUsed)) false = false) := by
  intro other L
  have hrange : 0 ≤ last ∧ last ≤ target cgroupMax :=
    run_invariant (P := fun l => 0 ≤ l ∧ l ≤ target cgroupMax)
      (fun l r l' hl hstep => Option.some.inj hstep ▸ limitTick_mem_Icc h hl)
      ⟨Int.le_refl _, (floor_nonneg h).trans (floor_le_target h)⟩ hlast
  have hclose : 100 * |L - idealLimit cgroupMax other| ≤ L := limitTick_close h hrange.1 hread
  obtain ⟨hL, hLt⟩ : 0 ≤ L ∧ L ≤ target cgroupMax := limitTick_mem_Icc h hrange
  refine ⟨hclose, ?_⟩
  intro hroom
  have hle : other + L ≤ high cgroupMax := other_add_le_high h hL hLt hroom hclose
  refine ⟨hle, ?_⟩
  intro goUsed hgo
  rw [guardTick]
  cases hnext : readCgroupInt (some (other + goUsed)) with
  | none => rfl
  | some current' =>
    obtain ⟨heq, -⟩ := Option.filter_eq_some_iff.mp hnext
    obtain rfl := Option.some.inj heq
    simp [Int.not_lt.mpr (by omega : other + goUsed ≤ high cgroupMax)]

/-- A container of 1 GiB: a first reading installs a limit, a second fails, and at the third the
change is under one percent. -/
theorem gc_limit_below_guard_stale :
    303000000 + limitTick 1073741824 644892805 ⟨some 500000000, 217000000, 20000000⟩ ≤
      high 1073741824 :=
  have hlast : run (limitStep 1073741824) 0
      [⟨some 400000000, 120000000, 20000000⟩, ⟨none, 0, 0⟩] = some 644892805 := rfl
  ((gc_limit_below_guard (r := ⟨some 500000000, 217000000, 20000000⟩) (by decide) hlast
    rfl).2 (by decide)).1

end MemoryLimit

end Millionws
