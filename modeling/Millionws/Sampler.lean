import Mathlib.Algebra.Order.Floor.Defs
import Mathlib.Data.List.Chain
import Mathlib.Data.List.ReduceOption
import Mathlib.Data.Rat.Floor
import Mathlib.Tactic.FieldSimp
import Mathlib.Tactic.Ring
import Millionws.Summary

/-!
# The CPU column

`Sampler.sample` turns a counter into a rate: `cpu.stat` has the CPU time that the container has
used since it started, and a sample reports what was used since the last sample that could read it,
divided by the time between the two.

A read may fail. Then the sample has no rate, and the next one that can read takes the difference
over the whole gap, so nothing is lost: the intervals between the samples that have a rate follow
each other without holes, however many reads failed in between. Weighted with their intervals, the
rates of a run add up to the CPU time it used, but for the rounding of each to one decimal:
`cpu_accounted`.

## What is deliberately absent

The other columns, and the parsing of `cpu.stat`. Times, quotients and what is rounded are
exact, where the source has floats, and a rate over no time is the `ZeroDivisionError` that Python
raises.

## Main definitions

* `Sampler`, `Sampler.sample` — the CPU part of `Sampler.sample`
* `Sampler.readings`, `Sampler.rates` — the samples that could read, and the rates between them

## Main results

* `cpu_accounted` — the rates of a run
-/

namespace Millionws

open Transition

/-! ### Rounding -/

/-- `round(x, 1)`. -/
def roundTenth (x : ℚ) : ℚ := roundHalfEven (x * 10) / 10

theorem abs_roundTenth_sub_le (x : ℚ) : |roundTenth x - x| ≤ 1 / 20 := by
  have hround := abs_le.mp (abs_roundHalfEven_sub_le (x * 10))
  rw [roundTenth, abs_le]
  constructor <;> linarith [hround.1, hround.2]

/-! ### The column -/

/-- What a sample reads: `usage_usec`, if `cpu.stat` could be read, and `time.monotonic()`. -/
structure CpuReading where
  usage : Option ℕ
  now : ℚ

/-- `last_cpu`, and the column so far. -/
structure Sampler where
  lastCpu : Option (ℕ × ℚ)
  cpuPct : List (Option ℚ)

namespace Sampler

/-- Before the first sample. -/
def init : Sampler := ⟨none, []⟩

/-- `round(100 * du / (dt * 1e6), 1)`. -/
def rate (usage : ℕ) (now : ℚ) (last : ℕ × ℚ) : ℚ :=
  roundTenth (100 * ((usage : ℚ) - last.1) / ((now - last.2) * 1000000))

/-- One sample. -/
def sample (s : Sampler) (r : CpuReading) : Option Sampler :=
  match r.usage, s.lastCpu with
  | none, _ => some { s with cpuPct := s.cpuPct ++ [none] }
  | some usage, none => some ⟨some (usage, r.now), s.cpuPct ++ [none]⟩
  | some usage, some last =>
    if r.now - last.2 = 0 then none
    else some ⟨some (usage, r.now), s.cpuPct ++ [some (rate usage r.now last)]⟩

/-- The readings of the samples that could read `cpu.stat`. -/
def readings (rs : List CpuReading) : List (ℕ × ℚ) :=
  rs.filterMap fun r => r.usage.map fun usage => (usage, r.now)

/-- A function of each two successive elements. -/
def pairs {α β : Type} (f : α → α → β) (l : List α) : List β := List.zipWith f l l.tail

/-- The time between successive readings. -/
def intervals (l : List (ℕ × ℚ)) : List ℚ := pairs (fun a b => b.2 - a.2) l

/-- The rate between successive readings. -/
def rates (l : List (ℕ × ℚ)) : List ℚ := pairs (fun a b => rate b.1 b.2 a) l

theorem pairs_concat {α β : Type} (f : α → α → β) (l : List α) (x : α) :
    pairs f (l ++ [x]) = pairs f l ++ (l.getLast?.map fun a => f a x).toList := by
  induction l with
  | nil => rfl
  | cons a l ih =>
    cases l with
    | nil => rfl
    | cons b l =>
      have htail : pairs f (a :: b :: l ++ [x]) = f a b :: pairs f (b :: l ++ [x]) := rfl
      rw [htail, ih, List.getLast?_cons_cons]
      rfl

/-! ### One interval, and all of them -/

/-- A rate over its interval is the CPU time of the interval, in hundredths of a second, but for
the rounding. -/
theorem abs_rate_mul_sub_le (usage : ℕ) {now : ℚ} {last : ℕ × ℚ} (h : 0 < now - last.2) :
    |rate usage now last * (now - last.2) - ((usage : ℚ) - last.1) / 10000| ≤
      (now - last.2) / 20 := by
  have hround := abs_roundTenth_sub_le (100 * ((usage : ℚ) - last.1) / ((now - last.2) * 1000000))
  have hexact : 100 * ((usage : ℚ) - last.1) / ((now - last.2) * 1000000) * (now - last.2) =
      ((usage : ℚ) - last.1) / 10000 := by
    field_simp
    ring
  rw [← hexact, ← sub_mul, abs_mul, abs_of_pos h, rate]
  calc _ ≤ 1 / 20 * (now - last.2) := mul_le_mul_of_nonneg_right hround h.le
    _ = (now - last.2) / 20 := by ring

/-- **The intervals follow each other without holes**, so the sum telescopes. -/
theorem abs_sum_rates_sub_le (first : ℕ × ℚ) (l : List (ℕ × ℚ))
    (h : (first :: l).IsChain fun a b => a.2 < b.2) :
    |(List.zipWith (· * ·) (rates (first :: l)) (intervals (first :: l))).sum -
        ((((first :: l).getLast (by simp)).1 : ℚ) - first.1) / 10000| ≤
      (((first :: l).getLast (by simp)).2 - first.2) / 20 := by
  induction l generalizing first with
  | nil => simp [rates, intervals, pairs]
  | cons next l ih =>
    obtain ⟨hlt, hrest⟩ := List.isChain_cons_cons.mp h
    have hstep := abs_le.mp (abs_rate_mul_sub_le next.1 (sub_pos.mpr hlt))
    have htail := abs_le.mp (ih next hrest)
    have hsum : (List.zipWith (· * ·) (rates (first :: next :: l))
        (intervals (first :: next :: l))).sum = rate next.1 next.2 first * (next.2 - first.2) +
          (List.zipWith (· * ·) (rates (next :: l)) (intervals (next :: l))).sum := rfl
    rw [hsum, List.getLast_cons_cons, abs_le]
    constructor <;> linarith [hstep.1, hstep.2, htail.1, htail.2]

/-! ### A run -/

/-- What a run of samples has read and written. -/
structure Column (rs : List CpuReading) (s : Sampler) : Prop where
  lastCpu : s.lastCpu = (readings rs).getLast?
  cpuPct : s.cpuPct.reduceOption = rates (readings rs)
  length : s.cpuPct.length = rs.length
  ordered : rs.Pairwise (fun r r' => r.now ≤ r'.now) →
    (readings rs).IsChain fun a b => a.2 < b.2

theorem readings_concat (rs : List CpuReading) (r : CpuReading) : readings (rs ++ [r]) =
    readings rs ++ (r.usage.map fun usage => (usage, r.now)).toList := by
  rw [readings, List.filterMap_append, ← readings]
  cases husage : r.usage <;> simp [husage]

/-- **One sample.** -/
theorem Column.step {rs : List CpuReading} {s t : Sampler} {r : CpuReading} (h : Column rs s)
    (ht : s.sample r = some t) : Column (rs ++ [r]) t := by
  have hread := readings_concat rs r
  have hlast := h.lastCpu
  rw [sample] at ht
  cases husage : r.usage with
  | none =>
    rw [husage] at ht hread
    obtain rfl := Option.some.inj ht
    rw [Option.map_none, Option.toList_none, List.append_nil] at hread
    refine ⟨?_, ?_, by simp [h.length], ?_⟩
    · rw [hread, ← hlast]
    · rw [hread, ← h.cpuPct, List.reduceOption_append]
      simp
    · intro hclock
      rw [hread]
      exact h.ordered (List.pairwise_append.mp hclock).1
  | some usage =>
    rw [husage] at ht hread
    rw [Option.map_some, Option.toList_some] at hread
    cases hs : s.lastCpu with
    | none =>
      rw [hs] at ht hlast
      obtain rfl := Option.some.inj ht
      rw [List.getLast?_eq_none_iff.mp hlast.symm, List.nil_append] at hread
      refine ⟨?_, ?_, by simp [h.length], ?_⟩
      · rw [hread]
        rfl
      · rw [hread, List.reduceOption_append, h.cpuPct, List.getLast?_eq_none_iff.mp hlast.symm]
        rfl
      · intro _
        rw [hread]
        exact List.isChain_singleton _
    | some last =>
      rw [hs] at ht hlast
      simp only at ht
      split_ifs at ht with hdt
      obtain rfl := Option.some.inj ht
      refine ⟨?_, ?_, by simp [h.length], ?_⟩
      · rw [hread, List.getLast?_concat]
      · rw [hread, List.reduceOption_append, h.cpuPct, rates, rates, pairs_concat, ← hlast]
        rfl
      · intro hclock
        obtain ⟨hold, -, hcross⟩ := List.pairwise_append.mp hclock
        rw [hread]
        refine List.isChain_append.mpr ⟨h.ordered hold, List.isChain_singleton _, ?_⟩
        intro a ha b hb
        rw [← hlast] at ha
        obtain rfl := Option.mem_some_iff.mp ha
        obtain rfl := Option.mem_some_iff.mp hb
        obtain ⟨r', hr', husage'⟩ := List.mem_filterMap.mp (List.mem_of_getLast? hlast.symm)
        obtain ⟨usage', -, rfl⟩ := Option.map_eq_some_iff.mp husage'
        have hle := hcross r' hr' r (List.mem_singleton_self r)
        exact lt_of_le_of_ne hle fun heq => hdt (sub_eq_zero.mpr heq.symm)

end Sampler

open Sampler

/-- **Nothing is lost.** In every run of samples by a clock that does not go back, whichever reads
of `cpu.stat` fail: there is a rate between each two successive readings that succeeded, and the
rates, each times its interval, add up to the CPU time used between the first of these readings and
the last, in hundredths of a second, to within a twentieth of the time between them. -/
theorem cpu_accounted {rs : List CpuReading} {s : Sampler} {first last : ℕ × ℚ}
    (hrun : run sample init rs = some s)
    (hclock : rs.Pairwise fun r r' => r.now ≤ r'.now)
    (hfirst : (readings rs).head? = some first) (hlast : (readings rs).getLast? = some last) :
    s.cpuPct.length = rs.length ∧ s.cpuPct.reduceOption = rates (readings rs) ∧
    |(List.zipWith (· * ·) s.cpuPct.reduceOption (intervals (readings rs))).sum -
      ((last.1 : ℚ) - first.1) / 10000| ≤ (last.2 - first.2) / 20 := by
  have h : Column rs s := run_history (P := Column)
    ⟨rfl, rfl, rfl, fun _ => List.isChain_nil⟩ (fun _ _ _ _ hs ht => hs.step ht) hrun
  refine ⟨h.length, h.cpuPct, ?_⟩
  rw [h.cpuPct]
  obtain ⟨l, hl⟩ := List.head?_eq_some_iff.mp hfirst
  have hsum := abs_sum_rates_sub_le first l (hl ▸ h.ordered hclock)
  rw [hl, List.getLast?_eq_some_getLast (by simp), Option.some.injEq] at hlast
  rwa [hlast, ← hl] at hsum

/-- Four samples, of which the third cannot read `cpu.stat`: half a core for two seconds, then three
quarters of one for four. -/
theorem cpu_accounted_four : ∃ s,
    run sample init [⟨some 0, 0⟩, ⟨some 1000000, 2⟩, ⟨none, 4⟩, ⟨some 4000000, 6⟩] = some s ∧
    s.cpuPct = [none, some 50, none, some 75] ∧
    |(List.zipWith (· * ·) s.cpuPct.reduceOption [(2 : ℚ), 4]).sum -
      (((4000000 : ℕ) : ℚ) - ((0 : ℕ) : ℚ)) / 10000| ≤ ((6 : ℚ) - 0) / 20 := by
  have hrun : (run sample init
      [⟨some 0, 0⟩, ⟨some 1000000, 2⟩, ⟨none, 4⟩, ⟨some 4000000, 6⟩]).any
      (fun s => s.cpuPct = [none, some 50, none, some 75]) = true := by decide +kernel
  obtain ⟨s, hs, hcolumn⟩ := (Option.any_eq_true _ _).mp hrun
  have hintervals : intervals (readings
      [⟨some 0, 0⟩, ⟨some 1000000, 2⟩, ⟨none, 4⟩, ⟨some 4000000, 6⟩]) = [2, 4] := by
    decide +kernel
  have haccounted := (@cpu_accounted _ s (0, 0) (4000000, 6) hs (by decide +kernel) rfl rfl).2.2
  rw [hintervals] at haccounted
  exact ⟨s, hs, of_decide_eq_true hcolumn, haccounted⟩

end Millionws
