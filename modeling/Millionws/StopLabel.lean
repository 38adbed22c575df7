import Millionws.Summary
import Millionws.Strconv

/-!
# Why a benchmark ended, as published

A run is recorded, summarized and then compared with others, and on the way its stop reason becomes
a text in `summary.json` and the text becomes a label in the table. `stop_label` replaces some of
the texts: a run whose container was killed for its memory is an `OOM kill` whatever the loop
thought, and a plateau becomes `stopped growing, server still up`.

The last of these says more than the plateau rule does. It is true all the same: the loop looks at
the state of the container before it looks at the plateau, so a plateau can only be reported when
the last sample found it running. `stop_label_truthful` says so for every run, and what the other
labels mean. That there is a label at all takes the time limit: `benchmark_ends`.

## What is deliberately absent

`summary.json` between the two programs, which is written and read by the same library.

## Main definitions

* `StopReason.text` — the reason as `cmd_run` words it
* `stopLabel` — `stop_label`

## Main results

* `benchmark_ends` — every run ends within the time limit, and is summarized
* `stop_label_truthful` — what the label says about the run
-/

namespace Millionws

open Transition

/-! ### Texts -/

/-- Digits with a comma before every three. -/
def grouped : List Char → List Char
  | [] => []
  | c :: cs => if cs.length % 3 = 0 ∧ cs ≠ [] then c :: ',' :: grouped cs else c :: grouped cs

/-- The sign of a number that is printed with a fixed number of decimals. -/
def printedSign (v : ℚ) : List Char := if v < 0 then ['-'] else []

/-- `f"{v:,.0f}"`. -/
def formatCount (v : ℚ) : List Char :=
  printedSign v ++ grouped (Strconv.itoa (roundHalfEven |v|))

/-- `reason`, as `cmd_run` words it. -/
def StopReason.text : StopReason → List Char
  | .stopped state => "server container stopped (".toList ++ state ++ ")".toList
  | .held target hold => "target of ".toList ++ formatCount target ++
      " connections reached and held for ".toList ++ Strconv.itoa hold ++ "s".toList
  | .noGrowth best plateau => "no growth above ".toList ++ formatCount best ++
      " connections for ".toList ++ Strconv.itoa plateau ++ "s".toList
  | .timeLimit max => "time limit of ".toList ++ Strconv.itoa max ++ "s reached".toList

/-- `stop_label`, of `oom_killed` and `stop_reason`. -/
def stopLabel (oomKilled : Bool) (reason : List Char) : List Char :=
  if oomKilled then "OOM kill".toList
  else if "no growth".toList.isPrefixOf reason then "stopped growing, server still up".toList
  else reason

/-- A reason starts with these words if it is a plateau. -/
def StopReason.isNoGrowth : StopReason → Bool
  | .noGrowth _ _ => true
  | _ => false

theorem isPrefixOf_text (reason : StopReason) :
    "no growth".toList.isPrefixOf reason.text = reason.isNoGrowth := by
  cases reason <;> rfl

theorem stopLabel_text (oomKilled : Bool) (reason : StopReason) :
    stopLabel oomKilled reason.text = if oomKilled then "OOM kill".toList
      else if reason.isNoGrowth then "stopped growing, server still up".toList
      else reason.text := by
  rw [stopLabel, isPrefixOf_text]

/-- The words of a reason are none of the two labels. -/
theorem text_ne (reason : StopReason) :
    reason.text ≠ "OOM kill".toList ∧ reason.text ≠ "stopped growing, server still up".toList := by
  have hkill : "OOM kill".toList.isPrefixOf reason.text = false := by cases reason <;> rfl
  have hgrowing : "stopped growing, server still up".toList.isPrefixOf reason.text = false := by
    cases reason <;> rfl
  constructor <;> intro h
  · rw [h] at hkill
    exact absurd hkill (by decide)
  · rw [h] at hgrowing
    exact absurd hgrowing (by decide)

/-! ### The last turn -/

namespace Recorder

variable {args : RecordArgs} {start : ℚ}

theorem checkLimits_reason_isSome {s : Recorder} {i : Iteration}
    (hmax : (args.max : ℚ) ≤ i.maxClock - start) :
    (s.checkLimits args start i).reason.isSome = true := by
  rw [checkLimits]
  split_ifs
  · rfl
  · rfl

/-- **After the time limit** no turn leaves the loop without a reason. -/
theorem iterate_reason_isSome (s : Recorder) {i : Iteration}
    (hmax : (args.max : ℚ) ≤ i.maxClock - start) :
    (s.iterate args start i).reason.isSome = true := by
  rw [iterate]
  split_ifs
  · rfl
  · rw [checkTarget]
    cases i.sample.metTarget with
    | none => exact checkLimits_reason_isSome hmax
    | some target =>
      simp only
      split_ifs
      · rfl
      · exact checkLimits_reason_isSome hmax

/-- **The state comes first.** A turn reports that the container stopped exactly if its sample says
so. -/
theorem iterate_running {s : Recorder} (hreason : s.reason = none) {i : Iteration}
    {reason : StopReason} (h : (s.iterate args start i).reason = some reason) :
    (reason = .stopped i.sample.state ∧ i.sample.running = false) ∨
      ((∀ state, reason ≠ .stopped state) ∧ i.sample.running = true) := by
  have hlimits {s : Recorder} (hs : s.reason = none)
      (h : (s.checkLimits args start i).reason = some reason) :
      ∀ state, reason ≠ .stopped state := by
    rintro state rfl
    rw [checkLimits] at h
    split_ifs at h <;> simp_all
  rw [iterate] at h
  split_ifs at h with hrunning
  · exact .inl ⟨(Option.some.inj h).symm, by simpa using hrunning⟩
  · refine .inr ⟨?_, by simpa using hrunning⟩
    have hnone : (s.takeSample i).reason = none := by rw [takeSample_reason, hreason]
    rw [checkTarget] at h
    cases hmet : i.sample.metTarget with
    | none =>
      rw [hmet] at h
      exact hlimits hnone h
    | some target =>
      rw [hmet] at h
      simp only at h
      split_ifs at h
      · rintro state rfl
        cases h
      · exact hlimits (by exact hnone) h

/-- A run that ended, ended with its last turn. -/
theorem exists_last_turn {its : List Iteration} {s : Recorder} {reason : StopReason}
    (hrun : run (step args start) (init start) its = some s) (hreason : s.reason = some reason) :
    ∃ before last u, its = before ++ [last] ∧
      run (step args start) (init start) before = some u ∧ u.reason = none ∧
      u.iterate args start last = s := by
  rcases List.eq_nil_or_concat its with rfl | ⟨before, last, rfl⟩
  · obtain rfl := Option.some.inj hrun
    cases hreason
  · rw [List.concat_eq_append] at hrun
    obtain ⟨u, hu, hlast⟩ := run_append_eq_some.mp hrun
    obtain ⟨v, hv, hend⟩ := run_cons_eq_some.mp hlast
    obtain rfl := Option.some.inj hend
    obtain ⟨hnone, hiterate⟩ := step_eq_some hv
    exact ⟨before, last, u, List.concat_eq_append, hu, hnone, hiterate⟩

end Recorder

/-- What the summary takes over from the run. -/
theorem writeSummary_eq_some {idle : Option ℕ} {rows : List Sample} {reason : StopReason}
    {summary : Summary} (h : writeSummary idle rows reason = some summary) :
    summary.stopReason = reason ∧ ∃ last, rows.getLast? = some last ∧
      summary.oomKilled = decide (" true ".toList <:+: ' ' :: last.state ++ [' ']) := by
  rw [writeSummary] at h
  obtain ⟨peak, -, h⟩ := Option.bind_eq_some_iff.mp h
  obtain ⟨last, hlast, h⟩ := Option.bind_eq_some_iff.mp h
  obtain rfl := Option.some.inj h
  exact ⟨rfl, last, hlast, rfl⟩

/-- **The summary is written** whenever there is a row, whatever could be read. -/
theorem exists_summary (idle : Option ℕ) {rows : List Sample} (reason : StopReason)
    (hrows : rows ≠ []) (hcounts : ∀ r ∈ rows, 0 ≤ r.conns) :
    ∃ summary, writeSummary idle rows reason = some summary := by
  obtain ⟨p, hp, hpeak⟩ : ∃ p ∈ rows, Summary.peak rows = some p := by
    by_cases hlive : Summary.live rows = []
    · refine ⟨rows.getLast hrows, List.getLast_mem hrows, ?_⟩
      rw [Summary.peak, if_pos hlive, List.getLast?_eq_some_getLast hrows]
    · obtain ⟨p, hp, hpeak, -⟩ := Summary.peak_of_live hlive hcounts
      exact ⟨p, (Summary.mem_live_iff.mp hp).1, hpeak⟩
  obtain ⟨summary, hsummary, -⟩ := writeSummary_of_peak idle reason hp hpeak
  exact ⟨summary, hsummary⟩

/-! ### Every run ends -/

namespace Recorder

variable {args : RecordArgs} {start : ℚ}

/-- A run either has ended after `n` turns or earlier, or is still going. -/
theorem ended_or_going (args : RecordArgs) (start : ℚ) (its : ℕ → Iteration) (n : ℕ) :
    (∃ m ≤ n, ∃ s, run (step args start) (init start) ((List.range m).map its) = some s ∧
      s.reason.isSome = true) ∨
    ∃ s, run (step args start) (init start) ((List.range n).map its) = some s ∧
      s.reason = none := by
  induction n with
  | zero => exact .inr ⟨init start, rfl, rfl⟩
  | succ n ih =>
    rcases ih with ⟨m, hm, hended⟩ | ⟨s, hs, hgoing⟩
    · exact .inl ⟨m, hm.trans n.le_succ, hended⟩
    · have hrun : run (step args start) (init start) ((List.range (n + 1)).map its) =
          some (s.iterate args start (its n)) := by
        rw [List.range_succ, List.map_append]
        refine run_append_eq_some.mpr ⟨s, hs, run_cons_eq_some.mpr ⟨_, ?_, rfl⟩⟩
        rw [step, hgoing, Option.isSome_none, if_neg Bool.false_ne_true]
      cases hreason : (s.iterate args start (its n)).reason with
      | none => exact .inr ⟨_, hrun, hreason⟩
      | some reason => exact .inl ⟨n + 1, le_rfl, _, hrun, by rw [hreason]; rfl⟩

end Recorder

/-- `STEP`: the seconds that `cmd_run` sleeps before each sample. -/
def sampleStep : ℚ := 2

open Recorder in
/-- **Every benchmark ends.** Whatever the samples are, with no negative count among them, if each
turn takes the two seconds that the loop sleeps, or longer, then the loop stops with a reason after
at most half as many turns as the time limit has seconds, rounded up, or after the one turn that it
takes without any time, and its summary is written. -/
theorem benchmark_ends {args : RecordArgs} {start : ℚ} {n : ℕ} (idle : Option ℕ)
    (hmax : (args.max : ℚ) ≤ sampleStep * (n + 1)) (its : ℕ → Iteration)
    (hclock : ∀ k ≤ n, start + sampleStep * (k + 1) ≤ (its k).maxClock)
    (hcounts : ∀ k, 0 ≤ (its k).sample.conns) :
    ∃ m ≤ n + 1, ∃ s reason summary,
      run (step args start) (init start) ((List.range m).map its) = some s ∧
      s.reason = some reason ∧ writeSummary idle s.rows reason = some summary := by
  obtain ⟨m, hm, s, hrun, hended⟩ : ∃ m ≤ n + 1, ∃ s,
      run (step args start) (init start) ((List.range m).map its) = some s ∧
      s.reason.isSome = true := by
    rcases ended_or_going args start its (n + 1) with hended | ⟨s, hrun, hgoing⟩
    · exact hended
    · -- the last turn came after the time limit
      rw [List.range_succ, List.map_append] at hrun
      obtain ⟨u, hu, hlast⟩ := run_append_eq_some.mp hrun
      obtain ⟨v, hv, hend⟩ := run_cons_eq_some.mp hlast
      obtain rfl := Option.some.inj hend
      obtain ⟨-, rfl⟩ := step_eq_some hv
      have hlate := hclock n le_rfl
      have hsome : (u.iterate args start (its n)).reason.isSome = true :=
        iterate_reason_isSome u (by linarith)
      rw [hgoing] at hsome
      cases hsome
  obtain ⟨reason, hreason⟩ := Option.isSome_iff_exists.mp hended
  have hrows := rows_of_run hrun
  obtain ⟨before, last, -, hits, -⟩ := exists_last_turn hrun hreason
  obtain ⟨summary, hsummary⟩ : ∃ summary, writeSummary idle s.rows reason = some summary := by
    refine exists_summary idle reason ?_ ?_
    · rw [hrows, hits]
      simp
    · intro r hr
      rw [hrows, List.map_map] at hr
      obtain ⟨k, -, rfl⟩ := List.mem_map.mp hr
      exact hcounts k
  exact ⟨m, hm, s, reason, summary, hrun, hreason, hsummary⟩

/-- A server that takes on a thousand connections between two samples. -/
def ramp (k : ℕ) : Iteration :=
  ⟨⟨"running false 0".toList, some (1000 * (k + 1)), none, some 1⟩, 2 * (k + 1), 2 * (k + 1),
    2 * (k + 1), 2 * (k + 1), 2 * (k + 1)⟩

/-- With a time limit of three seconds, two samples are taken. -/
theorem benchmark_ends_ramp : ∃ m ≤ 2, ∃ s reason summary,
    run (Recorder.step ⟨60, 90, 3⟩ 0) (.init 0) ((List.range m).map ramp) = some s ∧
    s.reason = some reason ∧ writeSummary none s.rows reason = some summary := by
  have hmax : (((⟨60, 90, 3⟩ : RecordArgs).max : ℤ) : ℚ) ≤ sampleStep * ((1 : ℕ) + 1) := by
    norm_num [sampleStep]
  have hclock : ∀ k : ℕ, k ≤ 1 → 0 + sampleStep * ((k : ℚ) + 1) ≤ (ramp k).maxClock := by
    intro k _
    rw [zero_add]
    exact le_rfl
  have hcounts (k : ℕ) : 0 ≤ (ramp k).sample.conns := by
    rw [Sample.conns_eq_getD]
    exact (by positivity : (0 : ℚ) ≤ 1000 * (k + 1))
  exact benchmark_ends none hmax ramp hclock hcounts

/-! ### The label -/

open Recorder in
/-- **The label is true.** For every run that ended and was summarized: it is labelled an OOM kill
exactly if the last sample's state says that the container was killed for its memory; it is
labelled `stopped growing, server still up` exactly if that is not so and the plateau rule ended it,
and then the container was indeed still running at the last sample; and a container that was not
running then is never labelled in any way but as killed or stopped. -/
theorem stop_label_truthful {args : RecordArgs} {start : ℚ} {its : List Iteration} {s : Recorder}
    {reason : StopReason} {idle : Option ℕ} {summary : Summary}
    (hrun : run (step args start) (init start) its = some s) (hreason : s.reason = some reason)
    (hsummary : writeSummary idle s.rows reason = some summary) :
    ∃ last, its.getLast? = some last ∧
      (stopLabel summary.oomKilled summary.stopReason.text = "OOM kill".toList ↔
        " true ".toList <:+: ' ' :: last.sample.state ++ [' ']) ∧
      (stopLabel summary.oomKilled summary.stopReason.text =
          "stopped growing, server still up".toList ↔
        summary.oomKilled = false ∧ reason.isNoGrowth = true) ∧
      (stopLabel summary.oomKilled summary.stopReason.text =
          "stopped growing, server still up".toList → last.sample.running = true) ∧
      (last.sample.running = false → summary.oomKilled = false →
        stopLabel summary.oomKilled summary.stopReason.text =
          (StopReason.stopped last.sample.state).text) := by
  obtain ⟨before, last, u, rfl, -, hnone, rfl⟩ := exists_last_turn hrun hreason
  obtain ⟨rfl, row, hrow, hkilled⟩ := writeSummary_eq_some hsummary
  obtain rfl : last.sample = row := by
    rw [rows_of_run hrun] at hrow
    simpa using hrow
  obtain ⟨hne_kill, hne_growing⟩ := text_ne summary.stopReason
  have hgrowing : stopLabel summary.oomKilled summary.stopReason.text =
      "stopped growing, server still up".toList ↔
        summary.oomKilled = false ∧ summary.stopReason.isNoGrowth = true := by
    rw [stopLabel_text]
    split_ifs with hoom hplateau
    · exact iff_of_false (by decide) fun h => Bool.false_ne_true (h.1.symm.trans hoom)
    · exact iff_of_true rfl ⟨Bool.eq_false_of_not_eq_true hoom, hplateau⟩
    · exact iff_of_false hne_growing fun h => hplateau h.2
  have hstate := iterate_running hnone hreason
  refine ⟨last, by simp, ?_, hgrowing, ?_, ?_⟩
  · have hoomKilled : summary.oomKilled = true ↔
        " true ".toList <:+: ' ' :: last.sample.state ++ [' '] := hkilled ▸ decide_eq_true_iff
    rw [stopLabel_text, ← hoomKilled]
    split_ifs with hoom hplateau
    · exact iff_of_true rfl hoom
    · exact iff_of_false (by decide) hoom
    · exact iff_of_false hne_kill hoom
  · intro hlabel
    rcases hstate with ⟨hstopped, -⟩ | ⟨-, hrunning⟩
    · rw [hgrowing, hstopped] at hlabel
      exact absurd hlabel.2 Bool.false_ne_true
    · exact hrunning
  · intro hdown hoom
    rcases hstate with ⟨hstopped, -⟩ | ⟨-, hrunning⟩
    · rw [stopLabel_text, hoom, hstopped]
      rfl
    · rw [hdown] at hrunning
      cases hrunning

/-- The container is killed while the loop sleeps. -/
theorem stop_label_truthful_killed : ∃ s summary,
    run (Recorder.step ⟨60, 90, 1800⟩ 0) (.init 0)
      [⟨⟨"exited true 137".toList, none, none, none⟩, 2, 2, 2, 2, 2⟩] = some s ∧
    writeSummary none s.rows (.stopped "exited true 137".toList) = some summary ∧
    stopLabel summary.oomKilled summary.stopReason.text = "OOM kill".toList := by
  have hrun : (run (Recorder.step ⟨60, 90, 1800⟩ 0) (.init 0)
      [⟨⟨"exited true 137".toList, none, none, none⟩, 2, 2, 2, 2, 2⟩]).any (fun s =>
      s.reason = some (.stopped "exited true 137".toList) &&
      (writeSummary none s.rows (.stopped "exited true 137".toList)).isSome) = true := by
    decide +kernel
  obtain ⟨s, hs, hend⟩ := (Option.any_eq_true _ _).mp hrun
  obtain ⟨hreason, hsome⟩ := Bool.and_eq_true_iff.mp hend
  obtain ⟨summary, hsummary⟩ := Option.isSome_iff_exists.mp hsome
  obtain ⟨last, hlast, hkill, -⟩ := stop_label_truthful hs (of_decide_eq_true hreason) hsummary
  obtain rfl := Option.some.inj hlast
  exact ⟨s, summary, hs, hsummary, hkill.mpr (by decide)⟩

end Millionws
