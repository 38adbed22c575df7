import Mathlib.Algebra.Order.Field.Rat
import Mathlib.Tactic.Linarith
import Millionws.Transition

/-!
# When a benchmark stops

`cmd_run` in `bench/local/record.py` samples the server every few seconds and stops at the first
of four conditions. One of them is published as a result: the target was reached and held for a
number of seconds.

`reached_at` is set by the first sample that meets the target it was taken with, and nothing ever
clears it. So a run may lose connections after that, or be asked for more, and still stop as soon
as a sample meets its target again: the reason then names a hold that did not happen,
`dip_reported_as_held`. While no sample is below the target of the reason once the timer runs,
the reason is true: `held_of_no_dip`.

## Clock and numbers

Every call of `time.time()` is a reading of its own, and the readings of a run never decrease; a
reading on a branch that is not taken is any value in between. Times, counts and the factor 1.005
are exact. In Python `0` and `None` are both false, which matters for `or`: `truthy`.

## What is deliberately absent

Where a sample comes from, and the progress line that is printed for it.

## Main definitions

* `Sample`, `Iteration` — what one turn of the loop reads
* `Recorder.iterate`, `Recorder.step` — the loop of `cmd_run`
* `Recorder.watchDips` — a monitor: the samples below a target while the timer runs

## Main results

* `Recorder.iterate_cases` — what a turn does to the timer and the reason
* `Recorder.held_of_no_dip` — without dips a reported hold was one
* `Recorder.dip_reported_as_held` — with one it need not be
-/

namespace Millionws

open Transition

/-! ### The loop -/

/-- The fields of a sample that the loop and the summary use. -/
structure Sample where
  state : List Char
  /-- `None` when the scrape failed. -/
  serverConns : Option ℚ
  loadgenTarget : Option ℚ
  cgMemory : Option ℕ
  deriving DecidableEq

/-- One turn: the sample, and what `time.time()` returns where the loop calls it. -/
structure Iteration where
  sample : Sample
  /-- For `best_at`. -/
  bestClock : ℚ
  /-- For `reached_at`. -/
  reachedClock : ℚ
  /-- In the comparison with `args.hold`. -/
  holdClock : ℚ
  /-- In the comparison with `args.plateau`. -/
  plateauClock : ℚ
  /-- In the comparison with `args.max`. -/
  maxClock : ℚ
  deriving DecidableEq

/-- The readings of a turn, in order. -/
def Iteration.clock (i : Iteration) : List ℚ :=
  [i.bestClock, i.reachedClock, i.holdClock, i.plateauClock, i.maxClock]

/-- The command line arguments of `record.py run`. -/
structure RecordArgs where
  hold : ℤ
  plateau : ℤ
  max : ℤ

/-- `reason`. -/
inductive StopReason where
  | stopped (state : List Char)
  | held (target : ℚ) (hold : ℤ)
  | noGrowth (best : ℚ) (plateau : ℤ)
  | timeLimit (max : ℤ)
  deriving DecidableEq

/-- The local variables of `cmd_run`. -/
structure Recorder where
  best : Option ℚ
  bestAt : ℚ
  reachedAt : Option ℚ
  reason : Option StopReason
  rows : List Sample
  deriving DecidableEq

/-- A value that Python takes for true: not `None` and not zero. -/
def truthy (x : Option ℚ) : Option ℚ := x.filter fun v => v ≠ 0

/-- `s["state"].startswith("running")`. -/
def Sample.running (s : Sample) : Bool := "running".toList.isPrefixOf s.state

/-- `s["server_conns"] or 0`. -/
def Sample.conns (s : Sample) : ℚ := (truthy s.serverConns).getD 0

/-- `target and conns >= target`: the target, if the sample meets it. -/
def Sample.metTarget (s : Sample) : Option ℚ := (truthy s.loadgenTarget).filter (· ≤ s.conns)

/-- The scrape succeeded and shows fewer than `T` connections. -/
def Sample.below (T : ℚ) (s : Sample) : Bool := s.serverConns.any (· < T)

namespace Recorder

/-- Before the first turn. -/
def init (start : ℚ) : Recorder := ⟨none, start, none, none, []⟩

/-- `best is None or conns > best * 1.005`. -/
def isRecord (best : Option ℚ) (conns : ℚ) : Bool :=
  match best with
  | none => true
  | some best => best * (1005 / 1000) < conns

/-- The start of a turn: the row, and the record if the sample is one. -/
def takeSample (s : Recorder) (i : Iteration) : Recorder :=
  let s := { s with rows := s.rows ++ [i.sample] }
  if isRecord s.best i.sample.conns then
    { s with best := some i.sample.conns, bestAt := i.bestClock }
  else s

/-- The last two conditions of a turn. -/
def checkLimits (args : RecordArgs) (start : ℚ) (s : Recorder) (i : Iteration) : Recorder :=
  if i.plateauClock - s.bestAt ≥ args.plateau then
    { s with reason := some (.noGrowth (s.best.getD 0) args.plateau) }
  else if i.maxClock - start ≥ args.max then { s with reason := some (.timeLimit args.max) }
  else s

/-- The target condition of a turn, and the two after it. -/
def checkTarget (args : RecordArgs) (start : ℚ) (s : Recorder) (i : Iteration) : Recorder :=
  match i.sample.metTarget with
  | none => s.checkLimits args start i
  | some target =>
    -- `reached_at or time.time()`
    let reachedAt := (truthy s.reachedAt).getD i.reachedClock
    let s := { s with reachedAt := some reachedAt }
    if i.holdClock - reachedAt ≥ args.hold then { s with reason := some (.held target args.hold) }
    else s.checkLimits args start i

/-- One turn of the loop. -/
def iterate (args : RecordArgs) (start : ℚ) (s : Recorder) (i : Iteration) : Recorder :=
  let s := s.takeSample i
  if !i.sample.running then { s with reason := some (.stopped i.sample.state) }
  else s.checkTarget args start i

/-- The loop as a step; there is none once a reason is given. -/
def step (args : RecordArgs) (start : ℚ) (s : Recorder) (i : Iteration) : Option Recorder :=
  if s.reason.isSome then none else some (s.iterate args start i)

/-- The readings of a run never decrease. -/
def ClockOrdered (start : ℚ) (its : List Iteration) : Prop :=
  (start :: its.flatMap Iteration.clock).Pairwise (· ≤ ·)

/-! ### One turn -/

variable {args : RecordArgs} {start : ℚ}

theorem step_eq_some {s t : Recorder} {i : Iteration} (h : s.step args start i = some t) :
    s.reason = none ∧ s.iterate args start i = t := by
  rw [Recorder.step] at h
  split_ifs at h with hreason
  exact ⟨by simpa using hreason, Option.some.inj h⟩

theorem takeSample_reachedAt (s : Recorder) (i : Iteration) :
    (s.takeSample i).reachedAt = s.reachedAt := by
  rw [takeSample]
  split_ifs <;> rfl

theorem takeSample_reason (s : Recorder) (i : Iteration) :
    (s.takeSample i).reason = s.reason := by
  rw [takeSample]
  split_ifs <;> rfl

theorem checkLimits_reachedAt (s : Recorder) (i : Iteration) :
    (s.checkLimits args start i).reachedAt = s.reachedAt := by
  rw [checkLimits]
  split_ifs <;> rfl

theorem checkLimits_reason_ne {s : Recorder} (h : s.reason = none) (i : Iteration) (T : ℚ)
    (H : ℤ) : (s.checkLimits args start i).reason ≠ some (.held T H) := by
  rw [checkLimits]
  split_ifs <;> simp [h]

/-- **What a turn does to the timer.** Either it leaves the timer alone and does not report a
hold, or the sample meets its target, the timer runs, and a hold is only reported when the time
has passed. -/
theorem iterate_cases (args : RecordArgs) (start : ℚ) {s : Recorder} (hreason : s.reason = none)
    (i : Iteration) :
    ((s.iterate args start i).reachedAt = s.reachedAt ∧
      ∀ T H, (s.iterate args start i).reason ≠ some (.held T H)) ∨
    (∃ target r, i.sample.metTarget = some target ∧ r = (truthy s.reachedAt).getD i.reachedClock ∧
      (s.iterate args start i).reachedAt = some r ∧
      ∀ T H, (s.iterate args start i).reason = some (.held T H) →
        T = target ∧ (args.hold : ℚ) ≤ i.holdClock - r) := by
  have hnone : (s.takeSample i).reason = none := by rw [takeSample_reason, hreason]
  rw [iterate]
  split_ifs with hrunning
  · exact Or.inl ⟨takeSample_reachedAt s i, by simp⟩
  · rw [checkTarget]
    cases hmet : i.sample.metTarget with
    | none =>
      refine Or.inl ⟨?_, checkLimits_reason_ne hnone i⟩
      rw [checkLimits_reachedAt, takeSample_reachedAt]
    | some target =>
      refine Or.inr ⟨target, _, rfl, rfl, ?_, ?_⟩
      · simp only [takeSample_reachedAt]
        split_ifs
        · rfl
        · rw [checkLimits_reachedAt]
      · intro T H hheld
        simp only [takeSample_reachedAt] at hheld
        split_ifs at hheld with htime
        · obtain ⟨rfl, -⟩ := StopReason.held.inj (Option.some.inj hheld)
          exact ⟨rfl, htime⟩
        · exact absurd hheld (checkLimits_reason_ne (by exact hnone) i T H)

/-! ### The hold -/

/-- The monitor: how many samples below `T` were taken while the timer ran. -/
def watchDips (T : ℚ) (dips : ℕ) (s : Recorder) (i : Iteration) : ℕ :=
  if (truthy s.reachedAt).isSome && i.sample.below T then dips + 1 else dips

/-- No sample that is compared with its target after `r` is below `T`. -/
def AtLeast (T r : ℚ) (its : List Iteration) : Prop :=
  ∀ i ∈ its, r < i.reachedClock → i.sample.below T = false

/-- The readings of a turn come after those of the turns before it. -/
theorem ClockOrdered.of_append {its : List Iteration} {i : Iteration}
    (h : ClockOrdered start (its ++ [i])) :
    ClockOrdered start its ∧ ∀ j ∈ its, ∀ x ∈ j.clock, ∀ y ∈ i.clock, x ≤ y := by
  rw [ClockOrdered, List.flatMap_append, ← List.cons_append, List.pairwise_append] at h
  refine ⟨h.1, ?_⟩
  intro j hj x hx y hy
  refine h.2.2 x (List.mem_cons_of_mem _ (List.mem_flatMap.mpr ⟨j, hj, hx⟩)) y ?_
  simpa using hy

/-- What the timer and a reported hold say about the samples so far. -/
structure NoDips (args : RecordArgs) (T : ℚ) (its : List Iteration) (s : Recorder) : Prop where
  timer : ∀ r, truthy s.reachedAt = some r → AtLeast T r its
  held : s.reason = some (.held T args.hold) → ∃ last r, its.getLast? = some last ∧
    (args.hold : ℚ) ≤ last.holdClock - r ∧ AtLeast T r its

/-- **One turn.** A timer that is set now has no later sample yet, and one that runs already has
one more, which is no dip. -/
theorem NoDips.step {T : ℚ} {its : List Iteration} {s t : Recorder} {i : Iteration}
    (h : NoDips args T its s) (hclock : ClockOrdered start (its ++ [i]))
    (ht : s.step args start i = some t)
    (hdip : (truthy s.reachedAt).isSome = true → i.sample.below T = false) :
    NoDips args T (its ++ [i]) t := by
  obtain ⟨hnone, rfl⟩ := step_eq_some ht
  have hkeep {r : ℚ} (hr : truthy s.reachedAt = some r) : AtLeast T r (its ++ [i]) := by
    intro j hj hlt
    rcases List.mem_append.mp hj with hj | hj
    · exact h.timer r hr j hj hlt
    · rw [List.mem_singleton.mp hj]
      exact hdip (by rw [hr]; rfl)
  rcases iterate_cases args start hnone i with
    ⟨hreached, hheld⟩ | ⟨target, r, -, hr, hreached, hheld⟩
  · refine ⟨fun r hr => hkeep (hreached ▸ hr), fun hT => absurd hT (hheld T args.hold)⟩
  · have hat : AtLeast T r (its ++ [i]) := by
      cases hold : truthy s.reachedAt with
      | some r' =>
        rw [hold] at hr
        exact hr ▸ hkeep hold
      | none =>
        obtain rfl : r = i.reachedClock := by rw [hr, hold]; rfl
        intro j hj hlt
        rcases List.mem_append.mp hj with hj | hj
        · exact absurd hlt (not_lt.mpr (hclock.of_append.2 j hj _ (by simp [Iteration.clock]) _
            (by simp [Iteration.clock])))
        · rw [List.mem_singleton.mp hj] at hlt
          exact absurd hlt (lt_irrefl _)
    refine ⟨?_, fun hT => ⟨i, r, List.getLast?_concat, (hheld T _ hT).2, hat⟩⟩
    intro r' hr'
    rw [hreached] at hr'
    obtain rfl := Option.some.inj (Option.filter_eq_some_iff.mp hr').1
    exact hat

/-- **A reported hold.** If no successful sample was below `T` while the timer ran, and the run
stops because `T` connections were held for `hold` seconds, then every successful sample that was
compared with its target during the last `hold` seconds shows at least `T`. -/
theorem held_of_no_dip {T : ℚ} {its : List Iteration} {last : Iteration} {s : Recorder}
    (hclock : ClockOrdered start its) (hlast : its.getLast? = some last)
    (hrun : run (withMonitor (step args start) (watchDips T)) (init start, 0) its = some (s, 0))
    (hheld : s.reason = some (.held T args.hold)) :
    ∀ i ∈ its, last.holdClock - i.reachedClock < args.hold →
      ∀ n, i.sample.serverConns = some n → T ≤ n := by
  have hinv := run_history (P := fun its p => ClockOrdered start its → p.2 = 0 →
    NoDips args T its p.1) (fun _ _ => ⟨by simp [init, truthy], by simp [init]⟩)
    (fun its p i q hP hstep hclock hdips => by
      obtain ⟨hnext, hwatch⟩ := withMonitor_eq_some.mp hstep
      rw [hdips, watchDips] at hwatch
      split_ifs at hwatch with hdip
      refine (hP hclock.of_append.1 hwatch.symm).step hclock hnext fun hruns => ?_
      simpa [hruns] using hdip) hrun hclock rfl
  obtain ⟨last', r, hlast', htime, hat⟩ := hinv.held hheld
  obtain rfl := Option.some.inj (hlast.symm.trans hlast')
  intro i hi hrecent n hn
  have hbelow := hat i hi (by linarith)
  simpa [Sample.below, hn] using hbelow

/-- A turn at one moment, with a server that runs and a target of 1000. -/
def turnAt (time conns : ℚ) : Iteration :=
  ⟨⟨"running false 0".toList, some conns, some 1000, some 1⟩, time, time, time, time, time⟩

/-- The target is met after 10 s and held for 60 s. -/
theorem held_of_no_dip_steady : ∃ s,
    run (withMonitor (step ⟨60, 90, 1800⟩ 100) (watchDips 1000)) (init 100, 0)
      [turnAt 110 1000, turnAt 140 1001, turnAt 170 1000] = some (s, 0) ∧
    s.reason = some (.held 1000 60) ∧ (1000 : ℚ) ≤ 1001 := by
  have hrun : (run (withMonitor (step ⟨60, 90, 1800⟩ 100) (watchDips 1000)) (init 100, 0)
      [turnAt 110 1000, turnAt 140 1001, turnAt 170 1000]).any
      (fun p => p.2 = 0 && p.1.reason = some (.held 1000 60)) = true := by decide +kernel
  obtain ⟨⟨s, m⟩, hs, hend⟩ := (Option.any_eq_true _ _).mp hrun
  simp only [Bool.and_eq_true, decide_eq_true_eq] at hend
  obtain ⟨rfl, hheld⟩ := hend
  exact ⟨s, hs, hheld, held_of_no_dip (by unfold ClockOrdered; decide) rfl hs hheld
    (turnAt 140 1001) (by simp) (by decide +kernel) 1001 rfl⟩

/-- **A dip is reported as held.** The target is met after 10 s; 30 s later 400 of the 1000
connections are left; 30 s after that all are back, and the run stops because the target was held
for 60 s. -/
theorem dip_reported_as_held : ¬ ∀ (args : RecordArgs) (start T : ℚ) (its : List Iteration)
    (last : Iteration) (s : Recorder), ClockOrdered start its → its.getLast? = some last →
    run (step args start) (init start) its = some s → s.reason = some (.held T args.hold) →
    ∀ i ∈ its, last.holdClock - i.reachedClock < args.hold →
      ∀ n, i.sample.serverConns = some n → T ≤ n := by
  intro h
  have hrun : (run (step ⟨60, 90, 1800⟩ 100) (init 100)
      [turnAt 110 1000, turnAt 140 400, turnAt 170 1000]).any
      (fun s => s.reason = some (.held 1000 60)) = true := by decide +kernel
  obtain ⟨s, hs, hheld⟩ := (Option.any_eq_true _ _).mp hrun
  have hdip := h ⟨60, 90, 1800⟩ 100 1000 [turnAt 110 1000, turnAt 140 400, turnAt 170 1000]
    (turnAt 170 1000) s (by unfold ClockOrdered; decide) rfl hs (of_decide_eq_true hheld)
    (turnAt 140 400) (by simp) (by decide +kernel) 400 rfl
  exact absurd hdip (by decide)

end Recorder

end Millionws
