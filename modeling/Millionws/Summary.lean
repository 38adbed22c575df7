import Mathlib.Data.List.Infix
import Millionws.Plateau

/-!
# What a benchmark publishes

`write_summary` finds the peak again, from the rows: the last one within half a percent of the
largest count, among those where the server answered and its cgroup was there to be read. `best`
was kept while the run went on, by another rule, over all rows.

Both rules have the same margin, and it does not add up. The largest count lies between `best` and
`1.005 * best`, and the peak between `0.995` times the largest and the largest, so the peak is
within half a percent of `best` on either side: `peak_agrees`. What it takes is that every positive
count came with a memory reading. A stale count beside an empty cgroup moves the peak away.

## What is deliberately absent

The columns of a row that the loop does not read, and the fields of the summary that come from
them. Divisions are exact.

## Main definitions

* `Summary.peak` — the row that the summary is about; `none` is an `IndexError`
* `writeSummary` — the summary

## Main results

* `Summary.peak_of_live` — there is a peak, and it is near the largest count
* `peak_agrees` — `peak_connections` is within half a percent of the record
-/

namespace Millionws

open Transition RunningRecord

/-- `r["server_conns"] and r["cg_memory"] is not None`. -/
def Sample.live (r : Sample) : Bool := (truthy r.serverConns).isSome && r.cgMemory.isSome

/-- Python's `int` of a number: it drops the fraction. -/
def truncate (q : ℚ) : ℤ := q.num.tdiv q.den

/-- Python's `round`: a half goes to the even neighbour. -/
def roundHalfEven (q : ℚ) : ℤ :=
  let below := q.floor
  if q - below < 1 / 2 then below
  else if 1 / 2 < q - below then below + 1
  else if below % 2 = 0 then below else below + 1

/-- **`round` is off by at most a half.** -/
theorem abs_roundHalfEven_sub_le (q : ℚ) : |(roundHalfEven q : ℚ) - q| ≤ 1 / 2 := by
  have hle : (q.floor : ℚ) ≤ q := Rat.floor_le q
  have hlt : q < q.floor + 1 := by exact_mod_cast Rat.lt_floor_add_one q
  rw [roundHalfEven, abs_le]
  split_ifs
  · constructor <;> linarith
  · rw [Int.cast_add, Int.cast_one]
    constructor <;> linarith
  · constructor <;> linarith
  · rw [Int.cast_add, Int.cast_one]
    constructor <;> linarith

/-- And it keeps the order. -/
theorem roundHalfEven_mono {p q : ℚ} (h : p ≤ q) : roundHalfEven p ≤ roundHalfEven q := by
  have hle {q : ℚ} : q.floor ≤ roundHalfEven q ∧ roundHalfEven q ≤ q.floor + 1 := by
    rw [roundHalfEven]
    split_ifs <;> omega
  rcases (Rat.floor_monotone h).eq_or_lt with heq | hlt
  · rw [roundHalfEven, roundHalfEven, ← heq]
    split_ifs <;> first | omega | exfalso; linarith
  · have hp := (hle (q := p)).2
    have hq := (hle (q := q)).1
    omega

theorem roundHalfEven_zero : roundHalfEven 0 = 0 := by decide +kernel

/-- `per_conn`: what one connection adds to the value of an idle server. -/
def perConn (value idle : Option ℕ) (conns : ℚ) : Option ℤ :=
  match value, idle with
  | some value, some idle =>
    if conns = 0 then none else some (roundHalfEven (((value : ℚ) - idle) / conns))
  | _, _ => none

/-- The fields of the summary. -/
structure Summary where
  stopReason : StopReason
  peakConnections : ℤ
  loadgenTarget : Option ℚ
  /-- In `at_peak`. -/
  cgMemory : Option ℕ
  /-- In `bytes_per_connection`. -/
  cgroupTotal : Option ℤ
  finalState : List Char
  oomKilled : Bool

namespace Summary

/-- `live`. -/
def live (rows : List Sample) : List Sample := rows.filter Sample.live

/-- `top`. -/
def top (rows : List Sample) : ℚ := ((live rows).filterMap Sample.serverConns).max?.getD 0

/-- `peak`. -/
def peak (rows : List Sample) : Option Sample :=
  if live rows = [] then rows.getLast?
  else ((live rows).filter fun r => r.serverConns.any (995 / 1000 * top rows ≤ ·)).getLast?

end Summary

/-- `write_summary`, given `idle["cg_memory"]`. -/
def writeSummary (idle : Option ℕ) (rows : List Sample) (reason : StopReason) : Option Summary := do
  let peak ← Summary.peak rows
  let last ← rows.getLast?
  return {
    stopReason := reason
    peakConnections := truncate peak.conns
    loadgenTarget := peak.loadgenTarget
    cgMemory := peak.cgMemory
    cgroupTotal := perConn peak.cgMemory idle peak.conns
    finalState := last.state
    oomKilled := decide (" true ".toList <:+: ' ' :: last.state ++ [' ']) }

namespace Summary

/-! ### The peak -/

theorem mem_live_iff {rows : List Sample} {r : Sample} :
    r ∈ live rows ↔ r ∈ rows ∧ r.conns ≠ 0 ∧ r.cgMemory.isSome = true := by
  have htruthy : (truthy r.serverConns).isSome = true ↔ r.conns ≠ 0 := by
    rw [r.conns_eq_getD, truthy]
    cases r.serverConns with
    | none => simp
    | some n => by_cases hn : n = 0 <;> simp [hn]
  rw [live, List.mem_filter, Sample.live, Bool.and_eq_true, htruthy]

theorem serverConns_of_live {rows : List Sample} {r : Sample} (h : r ∈ live rows) :
    r.serverConns = some r.conns := by
  have hne := (mem_live_iff.mp h).2.1
  rw [r.conns_eq_getD] at hne ⊢
  cases hn : r.serverConns with
  | none => exact absurd (by rw [hn]; rfl) hne
  | some n => rfl

theorem mem_filterMap_live {rows : List Sample} {n : ℚ} :
    n ∈ (live rows).filterMap Sample.serverConns ↔ ∃ r ∈ live rows, r.conns = n := by
  rw [List.mem_filterMap]
  refine exists_congr fun r => and_congr_right fun hr => ?_
  rw [serverConns_of_live hr, Option.some_inj]

/-- The largest count is that of a live row, if there is one. -/
theorem top_of_live {rows : List Sample} (h : live rows ≠ []) :
    (∃ r ∈ live rows, r.conns = top rows) ∧ ∀ r ∈ live rows, r.conns ≤ top rows := by
  obtain ⟨r, hr⟩ := List.exists_mem_of_ne_nil _ h
  have hmem : r.conns ∈ (live rows).filterMap Sample.serverConns :=
    mem_filterMap_live.mpr ⟨r, hr, rfl⟩
  obtain ⟨m, hm⟩ := Option.isSome_iff_exists.mp (List.isSome_max?_of_mem hmem)
  have htop : top rows = m := by rw [top, hm]; rfl
  rw [htop]
  refine ⟨mem_filterMap_live.mp (List.max?_mem hm), fun r hr => ?_⟩
  exact (List.max?_le_iff hm).mp le_rfl _ (mem_filterMap_live.mpr ⟨r, hr, rfl⟩)

/-- **The peak is near the largest count**, and it exists. -/
theorem peak_of_live {rows : List Sample} (h : live rows ≠ []) (hcounts : ∀ r ∈ rows, 0 ≤ r.conns) :
    ∃ p ∈ live rows, peak rows = some p ∧ 995 / 1000 * top rows ≤ p.conns := by
  obtain ⟨r, hr, hrtop⟩ := (top_of_live h).1
  have hnear (p : Sample) (hp : p ∈ live rows) :
      p.serverConns.any (995 / 1000 * top rows ≤ ·) = true ↔ 995 / 1000 * top rows ≤ p.conns := by
    rw [serverConns_of_live hp]
    exact decide_eq_true_iff
  -- a row with the largest count is itself within the margin
  have hne : ((live rows).filter fun r => r.serverConns.any (995 / 1000 * top rows ≤ ·)) ≠ [] := by
    refine List.ne_nil_of_mem (List.mem_filter.mpr ⟨hr, (hnear r hr).mpr ?_⟩)
    have hpos : 0 ≤ r.conns := hcounts r (mem_live_iff.mp hr).1
    linarith
  rw [peak, if_neg h, List.getLast?_eq_some_getLast hne]
  obtain ⟨hp, hlast⟩ := List.mem_filter.mp (List.getLast_mem hne)
  exact ⟨_, hp, rfl, (hnear _ hp).mp hlast⟩

/-- **No count is far above the peak.** -/
theorem exists_peak {rows : List Sample} (hcounts : ∀ r ∈ rows, 0 ≤ r.conns)
    (hmemory : ∀ r ∈ rows, 0 < r.conns → r.cgMemory.isSome = true) {r : Sample} (hr : r ∈ rows) :
    ∃ p ∈ rows, peak rows = some p ∧ 995 / 1000 * r.conns ≤ p.conns := by
  have hlive (q : Sample) (hq : q ∈ rows) (hne : q.conns ≠ 0) : q ∈ live rows :=
    mem_live_iff.mpr ⟨hq, hne, hmemory q hq ((hcounts q hq).lt_of_ne' hne)⟩
  by_cases h : live rows = []
  · have hne : rows ≠ [] := List.ne_nil_of_mem hr
    have hzero : r.conns = 0 := by
      by_contra hpos
      exact List.ne_nil_of_mem (hlive r hr hpos) h
    refine ⟨rows.getLast hne, List.getLast_mem hne, ?_, ?_⟩
    · rw [peak, if_pos h, List.getLast?_eq_some_getLast hne]
    · rw [hzero, mul_zero]
      exact hcounts _ (List.getLast_mem hne)
  · obtain ⟨p, hp, hpeak, hnear⟩ := peak_of_live h hcounts
    obtain ⟨⟨q, hq, hqtop⟩, htop⟩ := top_of_live h
    have hle : r.conns ≤ top rows := by
      by_cases hzero : r.conns = 0
      · rw [hzero, ← hqtop]
        exact hcounts q (mem_live_iff.mp hq).1
      · exact htop r (hlive r hr hzero)
    refine ⟨p, (mem_live_iff.mp hp).1, hpeak, ?_⟩
    calc 995 / 1000 * r.conns
        ≤ 995 / 1000 * top rows := mul_le_mul_of_nonneg_left hle (by norm_num)
      _ ≤ p.conns := hnear

end Summary

/-! ### A run and its summary -/

@[simp] theorem truncate_natCast (n : ℕ) : truncate n = n := by simp [truncate]

/-- A whole count is published as it is. -/
theorem truncate_conns {r : Sample} (h : ∀ n, r.serverConns = some n → ∃ k : ℕ, n = k) :
    (truncate r.conns : ℚ) = r.conns := by
  rw [r.conns_eq_getD]
  cases hn : r.serverConns with
  | none => rfl
  | some n =>
    obtain ⟨k, rfl⟩ := h n hn
    show (truncate k : ℚ) = k
    rw [truncate_natCast, Int.cast_natCast]

theorem writeSummary_of_peak (idle : Option ℕ) {rows : List Sample} (reason : StopReason)
    {p : Sample} (hp : p ∈ rows) (hpeak : Summary.peak rows = some p) :
    ∃ summary, writeSummary idle rows reason = some summary ∧
      summary.peakConnections = truncate p.conns := by
  have hne : rows ≠ [] := List.ne_nil_of_mem hp
  rw [writeSummary, hpeak, List.getLast?_eq_some_getLast hne]
  exact ⟨_, rfl, rfl⟩

theorem Recorder.rows_of_run {args : RecordArgs} {start : ℚ} {its : List Iteration} {s : Recorder}
    (hrun : run (step args start) (init start) its = some s) :
    s.rows = its.map Iteration.sample := by
  refine run_history (P := fun its s => s.rows = its.map Iteration.sample) rfl ?_ hrun
  intro its s i t hrows hstep
  obtain ⟨-, rfl⟩ := step_eq_some hstep
  rw [(iterate_takeSample args start s i).2.2, List.map_append, ← hrows, takeSample]
  split_ifs <;> rfl

/-- A run that ended has a record. -/
theorem Recorder.exists_record_of_reason {args : RecordArgs} {start : ℚ} {its : List Iteration}
    {s : Recorder} {reason : StopReason} (hrun : run (step args start) (init start) its = some s)
    (hreason : s.reason = some reason) :
    ∃ j ∈ its, s.best = some j.conns ∧ record its = some j.conns := by
  have hne : its ≠ [] := by
    rintro rfl
    obtain rfl := Option.some.inj hrun
    cases hreason
  obtain ⟨j, after, hlast⟩ : ∃ j after, LastRaise its j after := exists_lastRaise hne
  exact ⟨j, hlast.mem, (best_eq_record hrun).trans hlast.record_eq, hlast.record_eq⟩

open Recorder in
/-- **The peak of the summary is the record of the run**, give or take half a percent, if every
positive count came with a memory reading; and the summary is written. -/
theorem peak_agrees {args : RecordArgs} {start : ℚ} {its : List Iteration} {s : Recorder}
    {reason : StopReason} (idle : Option ℕ)
    (hwhole : ∀ i ∈ its, ∀ n, i.sample.serverConns = some n → ∃ k : ℕ, n = k)
    (hmemory : ∀ i ∈ its, 0 < i.conns → i.sample.cgMemory.isSome = true)
    (hrun : run (step args start) (init start) its = some s) (hreason : s.reason = some reason) :
    ∃ best summary, s.best = some best ∧ writeSummary idle s.rows reason = some summary ∧
      995 / 1000 * best ≤ summary.peakConnections ∧
      summary.peakConnections ≤ 1005 / 1000 * best ∧
      ∀ b P, reason = .noGrowth b P → b = best := by
  have hconns : ∀ i ∈ its, 0 ≤ i.conns := fun i hi => Iteration.conns_nonneg fun n hn => by
    obtain ⟨k, rfl⟩ := hwhole i hi n hn
    exact Nat.cast_nonneg k
  obtain ⟨j, hj, hbest, hrecord⟩ := exists_record_of_reason hrun hreason
  have hreported : ∀ b P, reason = .noGrowth b P → b = j.conns := by
    rintro b P rfl
    exact Option.some.inj ((exists_check_of_noGrowth hrun hreason).2.1.symm.trans hbest)
  have hrows := rows_of_run hrun
  have hmem {r : Sample} (hr : r ∈ s.rows) : ∃ i ∈ its, i.sample = r := by
    rwa [hrows, List.mem_map] at hr
  obtain ⟨p, hp, hpeak, hlow⟩ : ∃ p ∈ s.rows, Summary.peak s.rows = some p ∧
      995 / 1000 * j.conns ≤ p.conns := by
    refine Summary.exists_peak (fun r hr => ?_) (fun r hr => ?_) ?_
    · obtain ⟨i, hi, rfl⟩ := hmem hr
      exact hconns i hi
    · obtain ⟨i, hi, rfl⟩ := hmem hr
      exact hmemory i hi
    · rw [hrows]
      exact List.mem_map_of_mem hj
  obtain ⟨summary, hsummary, hpeakConns⟩ := writeSummary_of_peak idle reason hp hpeak
  obtain ⟨i, hi, rfl⟩ := hmem hp
  have hhigh : i.conns ≤ j.conns * margin :=
    le_record_mul (by norm_num [margin]) hconns hrecord hi
  have hexact : (truncate i.sample.conns : ℚ) = i.conns := truncate_conns (hwhole i hi)
  refine ⟨j.conns, summary, hbest, hsummary, ?_, ?_, hreported⟩
  · rw [hpeakConns, hexact]
    exact hlow
  · rw [hpeakConns, hexact, mul_comm]
    exact hhigh

open Recorder in
/-- A run that starts with a failed scrape and reports 1000; the peak is the last row, with
1004. -/
theorem peak_agrees_slow_growth : ∃ best summary,
    writeSummary (some 1) (slowGrowth.map Iteration.sample) (.noGrowth 1000 90) = some summary ∧
      995 / 1000 * best ≤ (summary.peakConnections : ℚ) ∧ best = (1000 : ℚ) := by
  have hrun : (run (step ⟨60, 90, 1800⟩ 100) (init 100) slowGrowth).any
      (fun s => s.reason = some (.noGrowth 1000 90)) = true := by decide +kernel
  obtain ⟨s, hs, hreason⟩ := (Option.any_eq_true _ _).mp hrun
  have hwhole : ∀ i ∈ slowGrowth, ∀ n, i.sample.serverConns = some n → ∃ k : ℕ, n = k := by
    intro i hi n hn
    simp only [slowGrowth, List.mem_cons, List.not_mem_nil, or_false] at hi
    rcases hi with rfl | rfl | rfl
    · cases hn
    · exact ⟨1000, (Option.some.inj hn).symm⟩
    · exact ⟨1004, (Option.some.inj hn).symm⟩
  obtain ⟨best, summary, -, hsummary, hlow, -, hreported⟩ :=
    peak_agrees (some 1) hwhole (by decide +kernel) hs (of_decide_eq_true hreason)
  rw [rows_of_run hs] at hsummary
  exact ⟨best, summary, hsummary, hlow, (hreported 1000 90 rfl).symm⟩

end Millionws
