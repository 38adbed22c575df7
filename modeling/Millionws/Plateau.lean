import Mathlib.Tactic.NormNum
import Millionws.Record
import Millionws.RunningRecord

/-!
# When a benchmark stops growing

`cmd_run` keeps the best count so far in `best`, and takes a new one only when it exceeds the old
by more than half a percent; `best_at` is when that happened. A run stops when `best_at` is
`args.plateau` seconds ago.

So `best` is a running record with a margin, and the library of those says what it is worth: it is
the count of one of the samples, it never goes down, and no sample ever exceeded it by more than
the margin. Slow growth does not count: a curve that stays within the margin of a sample is a
plateau, however long it goes on rising, and one whose samples beat the record in time is none.

## Main definitions

* `Recorder.record` — the record, as a function of the samples
* `Recorder.checksPlateau` — a turn gets as far as the comparison with `args.plateau`

## Main results

* `Recorder.best_eq_record`, `Recorder.best_of_run` — what `best` and `best_at` are
* `Recorder.iterate_noGrowth` — when a turn stops the run for that reason
* `plateau_rule` — the rule is sound and complete
-/

namespace Millionws

open Transition RunningRecord

/-- The count of a turn: zero for a failed scrape. -/
def Iteration.conns (i : Iteration) : ℚ := i.sample.conns

/-- A zero is false, and is what stands in for it. -/
theorem Sample.conns_eq_getD (s : Sample) : s.conns = s.serverConns.getD 0 := by
  rw [Sample.conns, truthy]
  cases s.serverConns with
  | none => rfl
  | some n =>
    by_cases hn : n = 0
    · subst hn
      rfl
    · rw [Option.filter_some, if_pos (by simpa using hn)]

theorem Iteration.conns_nonneg {i : Iteration} (h : ∀ n, i.sample.serverConns = some n → 0 ≤ n) :
    0 ≤ i.conns := by
  rw [Iteration.conns, Sample.conns_eq_getD]
  cases hn : i.sample.serverConns with
  | none => exact le_rfl
  | some n => exact h n hn

namespace Recorder

/-- The factor of the comparison, `1.005`. -/
def margin : ℚ := 1005 / 1000

/-- The record of the samples so far. -/
def record (its : List Iteration) : Option ℚ := RunningRecord.record Iteration.conns margin its

/-- The sample of `i` exceeds the record of those before it by more than the margin; the first
sample does. -/
def Raises (its : List Iteration) (i : Iteration) : Prop :=
  RunningRecord.Raises Iteration.conns margin its i

/-- `j` is the last turn that raised the record, and `after` the turns since. -/
def LastRaise (its : List Iteration) (j : Iteration) (after : List Iteration) : Prop :=
  RunningRecord.LastRaise Iteration.conns margin its j after

/-- The turn gets to the comparison with `args.plateau`: the server runs, and no hold is
reported. -/
def checksPlateau (args : RecordArgs) (s : Recorder) (i : Iteration) : Bool :=
  i.sample.running && i.sample.metTarget.all fun _ =>
    i.holdClock - (truthy s.reachedAt).getD i.reachedClock < args.hold

variable {args : RecordArgs} {start : ℚ}

/-! ### One turn -/

theorem takeSample_best (s : Recorder) (i : Iteration) :
    (s.takeSample i).best = RunningRecord.next Iteration.conns margin s.best i := by
  unfold takeSample
  cases hb : s.best with
  | none => rfl
  | some b =>
    show (if decide (b * margin < i.conns) = true then _ else _ : Recorder).best
      = if b * margin < i.conns then some i.conns else some b
    simp only [decide_eq_true_eq]
    split_ifs <;> rfl

theorem takeSample_bestAt_of_raises {its : List Iteration} {s : Recorder} {i : Iteration}
    (hbest : s.best = record its) (h : Raises its i) : (s.takeSample i).bestAt = i.bestClock := by
  have hrecord : isRecord s.best i.sample.conns = true := by
    cases hb : s.best with
    | none => rfl
    | some b => exact decide_eq_true (h b (hbest.symm.trans hb))
  rw [takeSample]
  simp only [hrecord, if_true]

theorem takeSample_bestAt_of_not_raises {its : List Iteration} {s : Recorder} {i : Iteration}
    (hbest : s.best = record its) (h : ¬ Raises its i) : (s.takeSample i).bestAt = s.bestAt := by
  have hrecord : isRecord s.best i.sample.conns = false := by
    rw [Raises, RunningRecord.Raises] at h
    push Not at h
    obtain ⟨b, hb, hle⟩ := h
    rw [hbest, record, hb]
    exact decide_eq_false (not_lt.mpr hle)
  rw [takeSample]
  simp only [hrecord, Bool.false_eq_true, if_false]

theorem checkLimits_takeSample (s : Recorder) (i : Iteration) :
    (s.checkLimits args start i).best = s.best ∧ (s.checkLimits args start i).bestAt = s.bestAt ∧
      (s.checkLimits args start i).rows = s.rows := by
  rw [checkLimits]
  split_ifs <;> exact ⟨rfl, rfl, rfl⟩

/-- After the sample is taken a turn leaves the record and the rows alone. -/
theorem iterate_takeSample (args : RecordArgs) (start : ℚ) (s : Recorder) (i : Iteration) :
    (s.iterate args start i).best = (s.takeSample i).best ∧
      (s.iterate args start i).bestAt = (s.takeSample i).bestAt ∧
      (s.iterate args start i).rows = (s.takeSample i).rows := by
  rw [iterate]
  split_ifs with hrunning
  · exact ⟨rfl, rfl, rfl⟩
  · rw [checkTarget]
    cases i.sample.metTarget with
    | none => exact checkLimits_takeSample _ i
    | some target =>
      simp only
      split_ifs
      · exact ⟨rfl, rfl, rfl⟩
      · exact checkLimits_takeSample _ i

theorem checkLimits_noGrowth {s : Recorder} (hreason : s.reason = none) {i : Iteration} {b : ℚ}
    {P : ℤ} (h : (s.checkLimits args start i).reason = some (.noGrowth b P)) :
    P = args.plateau ∧ b = s.best.getD 0 ∧ (args.plateau : ℚ) ≤ i.plateauClock - s.bestAt := by
  rw [checkLimits] at h
  split_ifs at h with hplateau hmax
  · obtain ⟨hb, hP⟩ := StopReason.noGrowth.inj (Option.some.inj h)
    exact ⟨hP.symm, hb.symm, hplateau⟩
  · cases Option.some.inj h
  · rw [hreason] at h
    cases h

/-- **When a turn reports a plateau.** It got to the comparison, and `best_at` was long enough
ago. -/
theorem iterate_noGrowth {s : Recorder} (hreason : s.reason = none) {i : Iteration} {b : ℚ} {P : ℤ}
    (h : (s.iterate args start i).reason = some (.noGrowth b P)) :
    s.checksPlateau args i = true ∧ P = args.plateau ∧ b = (s.takeSample i).best.getD 0 ∧
      (args.plateau : ℚ) ≤ i.plateauClock - (s.takeSample i).bestAt := by
  have hnone : (s.takeSample i).reason = none := by rw [takeSample_reason, hreason]
  rw [iterate] at h
  split_ifs at h with hrunning
  · cases Option.some.inj h
  · have hruns : i.sample.running = true := by simpa using hrunning
    rw [checkTarget] at h
    cases hmet : i.sample.metTarget with
    | none =>
      rw [hmet] at h
      refine ⟨by rw [checksPlateau, hruns, hmet]; rfl, checkLimits_noGrowth hnone h⟩
    | some target =>
      rw [hmet] at h
      simp only [takeSample_reachedAt] at h
      split_ifs at h with hhold
      · cases Option.some.inj h
      · have hlimits := checkLimits_noGrowth (by exact hnone) h
        refine ⟨?_, hlimits⟩
        rw [checksPlateau, hruns, hmet]
        exact decide_eq_true (not_le.mp hhold)

/-! ### Runs -/

/-- `best` and `best_at` name the last turn that raised the record. -/
theorem best_of_run {its : List Iteration} {s : Recorder}
    (hrun : run (step args start) (init start) its = some s) :
    s.best = record its ∧
      (its ≠ [] → ∃ j after, LastRaise its j after ∧ s.bestAt = j.bestClock) := by
  refine run_history (P := fun its s => s.best = record its ∧
      (its ≠ [] → ∃ j after, LastRaise its j after ∧ s.bestAt = j.bestClock))
    ⟨rfl, fun hne => absurd rfl hne⟩ ?_ hrun
  intro its s i t hinv hstep
  obtain ⟨hbest, hat⟩ := hinv
  obtain ⟨-, rfl⟩ := step_eq_some hstep
  obtain ⟨hbest', hat', -⟩ := iterate_takeSample args start s i
  refine ⟨?_, fun _ => ?_⟩
  · rw [hbest', takeSample_best, hbest]
    exact (record_concat its i).symm
  · rw [hat']
    by_cases hraises : Raises its i
    · exact ⟨i, [], .here hraises, takeSample_bestAt_of_raises hbest hraises⟩
    · have hne : its ≠ [] := by
        rintro rfl
        exact hraises (raises_nil i)
      obtain ⟨j, after, hlast, hj⟩ := hat hne
      refine ⟨j, after ++ [i], .later hlast hraises, ?_⟩
      rw [takeSample_bestAt_of_not_raises hbest hraises, hj]

theorem best_eq_record {its : List Iteration} {s : Recorder}
    (hrun : run (step args start) (init start) its = some s) : s.best = record its :=
  (best_of_run hrun).1

/-- **Why a run reports a plateau.** Its last turn got to the comparison, at least `args.plateau`
seconds after the turn that holds the record. -/
theorem exists_check_of_noGrowth {its : List Iteration} {s : Recorder} {b : ℚ} {P : ℤ}
    (hrun : run (step args start) (init start) its = some s)
    (hreason : s.reason = some (.noGrowth b P)) :
    P = args.plateau ∧ s.best = some b ∧ ∃ before last u j after, its = before ++ [last] ∧
      run (step args start) (init start) before = some u ∧ u.checksPlateau args last = true ∧
      LastRaise its j after ∧ j.conns = b ∧
      (args.plateau : ℚ) ≤ last.plateauClock - j.bestClock := by
  rcases List.eq_nil_or_concat its with rfl | ⟨before, last, rfl⟩
  · obtain rfl := Option.some.inj hrun
    cases hreason
  · rw [List.concat_eq_append] at hrun ⊢
    obtain ⟨hbest, hat⟩ := best_of_run hrun
    obtain ⟨j, after, hlast, hj⟩ := hat (by simp)
    obtain ⟨u, hu, hstep⟩ := run_append_eq_some.mp hrun
    rw [run_cons_eq_some] at hstep
    obtain ⟨v, hv, hend⟩ := hstep
    obtain rfl := Option.some.inj hend
    obtain ⟨hnone, rfl⟩ := step_eq_some hv
    obtain ⟨hcheck, hP, hb, htime⟩ := iterate_noGrowth hnone hreason
    obtain ⟨hbest', hat', -⟩ := iterate_takeSample args start u last
    rw [← hbest', hbest, record, hlast.record_eq] at hb
    rw [← hat', hj] at htime
    refine ⟨hP, ?_, before, last, u, j, after, rfl, hu, hcheck, hlast, hb.symm, htime⟩
    rw [hbest, record, hlast.record_eq, hb]
    rfl

theorem ClockOrdered.pairwise_bestClock {its : List Iteration} (h : ClockOrdered start its) :
    its.Pairwise fun i j => i.bestClock ≤ j.bestClock := by
  have hflat := (List.pairwise_cons.mp h).2
  rw [List.pairwise_flatMap] at hflat
  refine hflat.2.imp ?_
  intro i j hij
  exact hij _ (by simp [Iteration.clock]) _ (by simp [Iteration.clock])

end Recorder

open Recorder in
/-- **The plateau rule.** `best` is the count of a sample, never goes down, and no sample exceeds
it by more than the margin. A run that reports a plateau raised its record `args.plateau` seconds
ago or earlier, and no sample since exceeds the margin. A run each of whose comparisons follows
within `args.plateau` seconds on a sample that raised the record reports none. -/
theorem plateau_rule {args : RecordArgs} {start : ℚ} {its : List Iteration} {s : Recorder}
    (hclock : ClockOrdered start its)
    (hcounts : ∀ i ∈ its, ∀ n, i.sample.serverConns = some n → 0 ≤ n)
    (hrun : run (step args start) (init start) its = some s) :
    (its ≠ [] → ∃ best, s.best = some best ∧ (∃ i ∈ its, i.conns = best) ∧
      ∀ i ∈ its, i.conns ≤ best * margin) ∧
    (∀ before after u b, its = before ++ after →
      run (step args start) (init start) before = some u → u.best = some b →
      ∃ b', s.best = some b' ∧ b ≤ b') ∧
    (∀ b P, s.reason = some (.noGrowth b P) → P = args.plateau ∧ s.best = some b ∧
      ∃ j after last, LastRaise its j after ∧ j.conns = b ∧ its.getLast? = some last ∧
        (args.plateau : ℚ) ≤ last.plateauClock - j.bestClock ∧
        ∀ i ∈ after, i.conns ≤ b * margin) ∧
    ((∀ before i after u, its = before ++ i :: after →
        run (step args start) (init start) before = some u → u.checksPlateau args i = true →
        ∃ before' j after', before ++ [i] = before' ++ j :: after' ∧ Raises before' j ∧
          i.plateauClock - j.bestClock < args.plateau) →
      ∀ b P, s.reason ≠ some (.noGrowth b P)) := by
  have hconns : ∀ i ∈ its, 0 ≤ i.conns := fun i hi => Iteration.conns_nonneg (hcounts i hi)
  have hmargin : (1 : ℚ) ≤ margin := by norm_num [margin]
  refine ⟨fun hne => ?_, fun before after u b hits hu hb => ?_, fun b P hreason => ?_,
    fun hraises b P hreason => ?_⟩
  · obtain ⟨j, after, hlast⟩ : ∃ j after, LastRaise its j after := exists_lastRaise hne
    have hbest : record its = some j.conns := hlast.record_eq
    exact ⟨j.conns, (best_eq_record hrun).trans hbest, ⟨j, hlast.mem, rfl⟩,
      fun i hi => le_record_mul hmargin hconns hbest hi⟩
  · subst hits
    rw [best_eq_record hrun]
    refine record_le_record hmargin (fun i hi => hconns i (List.mem_append_left _ hi)) ?_ after
    exact (best_eq_record hu).symm.trans hb
  · obtain ⟨hP, hbest, before, last, u, j, after, rfl, hu, hcheck, hlast, hj, htime⟩ :=
      exists_check_of_noGrowth hrun hreason
    exact ⟨hP, hbest, j, after, last, hlast, hj, List.getLast?_concat, htime,
      hj ▸ hlast.le_mul⟩
  · obtain ⟨hP, hbest, before, last, u, j, after, rfl, hu, hcheck, hlast, hj, htime⟩ :=
      exists_check_of_noGrowth hrun hreason
    obtain ⟨before', k, after', hsplit, hk, hrecent⟩ := hraises before last [] u rfl hu hcheck
    -- the record was raised for the last time after `k`
    have hle : k.bestClock ≤ j.bestClock :=
      hlast.le_of_raises hclock.pairwise_bestClock hsplit hk
    linarith

/-- Three turns without a target: a failed scrape, 1000 connections, and 1004 after 90 s. -/
def slowGrowth : List Iteration :=
  [⟨⟨"running false 0".toList, none, none, some 1⟩, 110, 110, 110, 110, 110⟩,
    ⟨⟨"running false 0".toList, some 1000, none, some 1⟩, 120, 120, 120, 120, 120⟩,
    ⟨⟨"running false 0".toList, some 1004, none, some 1⟩, 210, 210, 210, 210, 210⟩]

open Recorder in
/-- 1000 connections, and 90 s later 1004: the growth is within the margin. -/
theorem plateau_rule_slow_growth : ∃ s,
    run (step ⟨60, 90, 1800⟩ 100) (init 100) slowGrowth = some s ∧
    s.reason = some (.noGrowth 1000 90) ∧ s.best = some 1000 := by
  have hrun : (run (step ⟨60, 90, 1800⟩ 100) (init 100) slowGrowth).any
      (fun s => s.reason = some (.noGrowth 1000 90)) = true := by decide +kernel
  obtain ⟨s, hs, hreason⟩ := (Option.any_eq_true _ _).mp hrun
  have hreason := of_decide_eq_true hreason
  have hrule := plateau_rule (by unfold ClockOrdered; decide) (by decide +kernel) hs
  exact ⟨s, hs, hreason, (hrule.2.2.1 1000 90 hreason).2.1⟩

end Millionws
