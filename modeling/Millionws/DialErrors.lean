import Millionws.DialMetrics
import Millionws.Strconv

/-!
# How failed dials are reported

When `Dial` returns an error, its goroutine labels the error, counts it under the label and, if it
has no label for it, writes it to the log, but only the first ten of those. Any number of goroutines
do so at the same time, in several steps each, before they give their slot back.

The counters hold what is true all the same. Under every label there are never more errors than
happened, and once all dials are through exactly those: none is lost between the labels, so that
they add up to the failed dials. The label of an error number that has no name of its own names the
number. The log has at most ten lines, exactly one for each of the first ten errors without a label,
because the goroutine that counted to ten or less is the one that writes.

## What is deliberately absent

The errors themselves, which come from `net` and from the WebSocket library. A `DialError` is what
`classify` can see of one: the error number that `errors.As` finds in it, whether it is a timeout,
and its text.

## Main definitions

* `classify` — the label of an error
* `Reporter`, `Reporter.step` — the dials, and the reports of those that failed

## Main results

* `classify_eq_errno_iff` — which errors are labelled with their number
* `dial_errors_reported` — what the counters and the log say
-/

namespace Millionws

open Strconv Transition

/-! ### Labels -/

/-- What `classify` sees of an error. -/
structure DialError where
  /-- The `syscall.Errno` that `errors.As` finds. -/
  errno : Option ℕ
  /-- `errors.As(err, &nerr) && nerr.Timeout()`. -/
  timeout : Bool
  /-- `errors.Is(err, context.DeadlineExceeded)`. -/
  deadlineExceeded : Bool
  /-- `err.Error()`. -/
  msg : List Char
  deriving DecidableEq

/-- The cases of the `switch errno`, with the numbers of Linux on amd64: `EADDRNOTAVAIL`, `EMFILE`,
`ENFILE`, `ECONNREFUSED`, `ECONNRESET`, `EPIPE` and `ETIMEDOUT`. -/
def errnoLabels : List (ℕ × List Char) :=
  [(99, "source_ports_exhausted".toList), (24, "fd_limit".toList), (23, "fd_limit".toList),
    (111, "refused".toList), (104, "reset".toList), (32, "reset".toList), (110, "timeout".toList)]

/-- The cases of the last `switch`, in their order. -/
def msgLabels : List (List Char × List Char) :=
  [("timeout".toList, "timeout".toList), ("reset".toList, "reset".toList),
    ("EOF".toList, "reset".toList), ("closed".toList, "reset".toList),
    ("refused".toList, "refused".toList), ("bad handshake".toList, "handshake".toList),
    ("status".toList, "handshake".toList)]

/-- The label of an error that no case is about. -/
def otherLabel : List Char := "other".toList

/-- `"errno_" + strconv.Itoa(int(errno))`. -/
def errnoLabel (n : ℕ) : List Char := "errno_".toList ++ itoa n

/-- `classify`. -/
def classify (err : DialError) : List Char :=
  match err.errno with
  | some errno => (errnoLabels.lookup errno).getD (errnoLabel errno)
  | none =>
    if err.timeout || err.deadlineExceeded then "timeout".toList
    else ((msgLabels.find? fun c => c.1 <:+: err.msg).map Prod.snd).getD otherLabel

theorem errnoLabel_injective : Function.Injective errnoLabel := by
  intro m n h
  exact Int.ofNat_inj.mp (itoa_injective (List.append_cancel_left h))

/-- No label of the two tables could be taken for the number of an error. -/
theorem errnoLabel_ne {label : List Char} (h : label.head? ≠ some 'e') (n : ℕ) :
    label ≠ errnoLabel n := by
  rintro rfl
  exact h rfl

/-- **Error numbers without a name** are their own label, and nobody else's. -/
theorem classify_eq_errno_iff {err : DialError} {n : ℕ} (hn : errnoLabels.lookup n = none) :
    classify err = errnoLabel n ↔ err.errno = some n := by
  rw [classify]
  cases err.errno with
  | some m =>
    simp only [Option.some.injEq]
    constructor
    · intro h
      cases hm : errnoLabels.lookup m with
      | none =>
        rw [hm, Option.getD_none] at h
        exact errnoLabel_injective h
      | some label =>
        rw [hm, Option.getD_some] at h
        have hlabels : ∀ c ∈ errnoLabels, c.2.head? ≠ some 'e' := by decide
        obtain ⟨before, after, hsplit, -⟩ := List.lookup_eq_some_iff.mp hm
        have hmem : (m, label) ∈ errnoLabels := by simp [hsplit]
        exact absurd h (errnoLabel_ne (hlabels _ hmem) n)
    · rintro rfl
      rw [hn, Option.getD_none]
  | none =>
    simp only [reduceCtorEq, iff_false]
    split_ifs
    · exact errnoLabel_ne (by decide) n
    · cases hfind : msgLabels.find? fun c => c.1 <:+: err.msg with
      | none => exact errnoLabel_ne (by decide) n
      | some c =>
        have hlabels : ∀ c ∈ msgLabels, c.2.head? ≠ some 'e' := by decide
        exact errnoLabel_ne (hlabels c (List.mem_of_find?_eq_some hfind)) n

/-! ### Reports -/

/-- Where the report of a failed dial is. -/
inductive ReportPc where
  /-- Next is `dialErrors.WithLabelValues(reason).Inc()`. -/
  | counting
  /-- There was no label; next is `loggedOther.Add(1)`. -/
  | adding
  /-- `loggedOther.Add(1)` returned 10 or less; next is `log.Printf`. -/
  | logging
  | done
  deriving DecidableEq

/-- The report of a failed dial. -/
structure Report where
  dial : ℕ
  err : DialError
  pc : ReportPc
  deriving DecidableEq

namespace Report

def label (r : Report) : List Char := classify r.err

/-- The report is about an error with this label. -/
def labelled (label : List Char) (r : Report) : Bool := r.label = label

/-- It is, and the error is not counted yet. -/
def uncounted (label : List Char) (r : Report) : Bool := r.label = label && r.pc = .counting

/-- The error has no label, and is not counted among those for the log. -/
def unnumbered (r : Report) : Bool :=
  r.label = otherLabel && (r.pc = .counting || r.pc = .adding)

/-- The goroutine is about to write to the log. -/
def isLogging (r : Report) : Bool := r.pc = .logging

/-- Only errors without a label are on their way to the log. -/
def wf (r : Report) : Bool := r.pc = .counting || r.pc = .done || r.label = otherLabel

end Report

/-- The dials, the reports, the counters and the log. -/
structure Reporter where
  shared : Shared
  reports : List Report
  /-- `dialErrors`, for each label. -/
  dialErrors : List Char → ℕ
  loggedOther : ℕ
  logged : List DialError

/-- A step of a dial goroutine, of its report or of anyone else. -/
inductive ReportAct where
  | other (a : Act)
  /-- `Dial` returns this error. -/
  | fail (d : ℕ) (err : DialError)
  /-- The next step of a report. -/
  | report (i : ℕ)
  deriving DecidableEq

namespace Reporter

def start (capacity : ℕ) : Reporter := ⟨Shared.init capacity, [], fun _ => 0, 0, []⟩

/-- A goroutine returns, and gives its slot back, only when its report is done. -/
def allows (s : Reporter) : Act → Bool
  | .fail _ => false
  | .release d => s.reports.all fun r => r.dial ≠ d || r.pc = .done
  | _ => true

/-- Replace report `i`. -/
def put (s : Reporter) (i : ℕ) (r : Report) : Reporter := { s with reports := s.reports.set i r }

/-- The next step of report `i`, which is `r`. -/
def report (s : Reporter) (i : ℕ) (r : Report) : Option Reporter :=
  match r.pc with
  | .counting => some { s.put i
        { r with pc := if r.label = otherLabel then .adding else .done } with
      dialErrors := Function.update s.dialErrors r.label (s.dialErrors r.label + 1) }
  | .adding => some { s.put i
        { r with pc := if s.loggedOther + 1 ≤ 10 then .logging else .done } with
      loggedOther := s.loggedOther + 1 }
  | .logging => some { s.put i { r with pc := .done } with logged := s.logged ++ [r.err] }
  | .done => none

/-- One step of anyone. -/
def step (inflight : ℕ) (s : Reporter) : ReportAct → Option Reporter
  | .other a =>
    if s.allows a then (s.shared.step inflight a).map fun shared => { s with shared := shared }
    else none
  | .fail d err => (s.shared.step inflight (.fail d)).map fun shared =>
      { s with shared := shared, reports := s.reports ++ [⟨d, err, .counting⟩] }
  | .report i => s.reports[i]?.bind (s.report i)

theorem step_other_eq_some {inflight : ℕ} {s t : Reporter} {a : Act} :
    s.step inflight (.other a) = some t ↔
      s.allows a = true ∧ ∃ u, s.shared.step inflight a = some u ∧ t = { s with shared := u } := by
  rw [step]
  split_ifs with h
  · simp [h, eq_comm]
  · simp [h]

theorem step_fail_eq_some {inflight d : ℕ} {s t : Reporter} {err : DialError} :
    s.step inflight (.fail d err) = some t ↔ ∃ u, s.shared.step inflight (.fail d) = some u ∧
      t = { s with shared := u, reports := s.reports ++ [⟨d, err, .counting⟩] } := by
  simp [step, eq_comm]

/-- **What a report does.** It counts the error, takes a number for the log or writes to it. -/
theorem step_report_cases {inflight i : ℕ} {s t : Reporter}
    (h : s.step inflight (.report i) = some t) :
    ∃ r, s.reports[i]? = some r ∧
      (r.pc = .counting ∧ t = { s.put i { r with
          pc := if r.label = otherLabel then .adding else .done } with
        dialErrors := Function.update s.dialErrors r.label (s.dialErrors r.label + 1) } ∨
      r.pc = .adding ∧ t = { s.put i { r with
          pc := if s.loggedOther + 1 ≤ 10 then .logging else .done } with
        loggedOther := s.loggedOther + 1 } ∨
      r.pc = .logging ∧ t = { s.put i { r with pc := .done } with
        logged := s.logged ++ [r.err] }) := by
  obtain ⟨r, hr, hreport⟩ := Option.bind_eq_some_iff.mp h
  refine ⟨r, hr, ?_⟩
  rw [report] at hreport
  cases hpc : r.pc with
  | counting =>
    rw [hpc] at hreport
    exact .inl ⟨rfl, (Option.some.inj hreport).symm⟩
  | adding =>
    rw [hpc] at hreport
    exact .inr (.inl ⟨rfl, (Option.some.inj hreport).symm⟩)
  | logging =>
    rw [hpc] at hreport
    exact .inr (.inr ⟨rfl, (Option.some.inj hreport).symm⟩)
  | done => rw [hpc] at hreport; cases hreport

end Reporter

/-! ### The dials underneath -/

namespace Shared

/-- The dials that have failed, read off the counters that any state could have. -/
theorem tally_failed_step {inflight : ℕ} {s t : Shared} {a : Act} (hinv : s.Inv inflight)
    (ht : step inflight s a = some t) : t.tally Dial.failed =
      ((⟨0, s.tally Dial.failed, 0, 0, 0, 0⟩ : Metrics).watch s a).dialErrors := by
  have hcounted : Counted s ⟨s.dials.length, s.tally Dial.failed, s.tally Dial.connected, s.active,
      s.tally Dial.gone, 0⟩ := ⟨rfl, rfl, rfl, rfl, rfl⟩
  rw [← (hcounted.step hinv ht).errors]
  cases a <;> rfl

/-- A goroutine that is about to return is where it was, unless it gives its slot back. -/
theorem leaving_step {inflight : ℕ} {s t : Shared} {a : Act} (ht : step inflight s a = some t)
    {e : ℕ} (ha : a ≠ .release e) {x : Dial} (hx : s.dials[e]? = some x) (hpc : x.pc = .leaving) :
    ∃ y, t.dials[e]? = some y ∧ y.pc = .leaving := by
  have hput {d : ℕ} {g g' : Dial} (hg : s.dials[d]? = some g)
      (hkeep : d = e → g.pc = .leaving → g'.pc = .leaving) :
      ∃ y, (s.dials.set d g')[e]? = some y ∧ y.pc = .leaving := by
    by_cases hed : d = e
    · subst hed
      rw [hg] at hx
      obtain rfl := Option.some.inj hx
      exact ⟨g', List.getElem?_set_self (List.getElem?_eq_some_iff.mp hg).1, hkeep rfl hpc⟩
    · exact ⟨x, by rwa [List.getElem?_set_ne hed], hpc⟩
  match a with
  | .start url =>
    obtain ⟨-, rfl⟩ := step_start_eq_some.mp ht
    exact ⟨x, by rw [List.getElem?_append_left (List.getElem?_eq_some_iff.mp hx).1, hx], hpc⟩
  | .fail d | .connect d | .add d | .count d | .finish d =>
    obtain ⟨g, hg, hready, rfl⟩ := onDial_eq_some.mp ht
    exact hput hg fun _ hg => by simp [hg] at hready
  | .release d =>
    obtain ⟨g, hg, -, rfl⟩ := onDial_eq_some.mp ht
    exact hput hg fun hd => absurd (congrArg Act.release hd) ha
  | .closeRemove d | .closeCount d =>
    obtain ⟨g, hg, -, rfl⟩ := onDial_eq_some.mp ht
    exact hput hg fun _ hg => hg

end Shared

/-! ### What the counters and the log say -/

namespace Reporter

/-- The counters and the log, beside the reports that are not done. -/
structure Reported (inflight : ℕ) (s : Reporter) : Prop where
  shared : s.shared.Inv inflight
  failed : s.reports.length = s.shared.tally Dial.failed
  leaving : ∀ r ∈ s.reports, r.pc ≠ .done → ∃ g, s.shared.dials[r.dial]? = some g ∧ g.pc = .leaving
  wf : ∀ r ∈ s.reports, r.wf = true
  errors : ∀ label, s.dialErrors label + s.reports.countP (Report.uncounted label) =
    s.reports.countP (Report.labelled label)
  numbered : s.loggedOther + s.reports.countP Report.unnumbered =
    s.reports.countP (Report.labelled otherLabel)
  logged : s.logged.length + s.reports.countP Report.isLogging = min 10 s.loggedOther
  texts : ∀ err ∈ s.logged, classify err = otherLabel

theorem reported_start (capacity inflight : ℕ) : Reported inflight (start capacity) where
  shared := Shared.inv_init capacity inflight
  failed := rfl
  leaving _ hr := absurd hr List.not_mem_nil
  wf _ hr := absurd hr List.not_mem_nil
  errors _ := rfl
  numbered := rfl
  logged := rfl
  texts _ herr := absurd herr List.not_mem_nil

/-- **A report moves.** Each counter moves by what the counts of reports do. -/
theorem Reported.update {inflight i : ℕ} {s t : Reporter} {r : Report} (h : Reported inflight s)
    (r' : Report) (hr : s.reports[i]? = some r) (hpc : r.pc ≠ .done) (hshared : t.shared = s.shared)
    (hreports : t.reports = s.reports.set i r') (hdial : r'.dial = r.dial) (herr : r'.err = r.err)
    (hwf : r'.wf = true)
    (herrors : ∀ label, t.dialErrors label + (r'.uncounted label).toNat =
      s.dialErrors label + (r.uncounted label).toNat)
    (hnumbered : t.loggedOther + r'.unnumbered.toNat = s.loggedOther + r.unnumbered.toNat)
    (hlogged : t.logged.length + r'.isLogging.toNat + min 10 s.loggedOther =
      s.logged.length + r.isLogging.toNat + min 10 t.loggedOther)
    (htexts : ∀ err ∈ t.logged, classify err = otherLabel) : Reported inflight t := by
  have hcount := Population.countP_set hr r'
  have hlabelled (label : List Char) :
      t.reports.countP (Report.labelled label) = s.reports.countP (Report.labelled label) := by
    have hsame : r'.labelled label = r.labelled label := by
      rw [Report.labelled, Report.labelled, Report.label, Report.label, herr]
    have := hcount (Report.labelled label)
    rw [hsame] at this
    rw [hreports]
    exact Nat.add_right_cancel this
  constructor
  · exact hshared ▸ h.shared
  · rw [hreports, List.length_set, h.failed, hshared]
  · rw [hreports, hshared]
    refine Population.forall_mem_set h.leaving fun _ => ?_
    rw [hdial]
    exact h.leaving r (List.mem_of_getElem? hr) hpc
  · rw [hreports]
    exact Population.forall_mem_set h.wf hwf
  · intro label
    have hmove := hcount (Report.uncounted label)
    have hbefore := h.errors label
    have hafter := herrors label
    rw [hlabelled, hreports]
    omega
  · have hmove := hcount Report.unnumbered
    have hbefore := h.numbered
    rw [hlabelled, hreports]
    omega
  · have hmove := hcount Report.isLogging
    have hbefore := h.logged
    rw [hreports]
    omega
  · exact htexts

theorem Reported.report {inflight i : ℕ} {s t : Reporter} (h : Reported inflight s)
    (ht : s.step inflight (.report i) = some t) : Reported inflight t := by
  obtain ⟨⟨d, err, pc⟩, hr, hcases⟩ := step_report_cases ht
  have hwf := h.wf _ (List.mem_of_getElem? hr)
  obtain ⟨hpc, rfl⟩ | ⟨hpc, rfl⟩ | ⟨hpc, rfl⟩ := hcases
  · -- the error is counted under its label, and is on its way to the log if it has none
    obtain rfl : pc = .counting := hpc
    by_cases hother : classify err = otherLabel
    · refine h.update ⟨d, err, .adding⟩ hr (by simp) rfl ?_ rfl rfl ?_ ?_ ?_ rfl h.texts
      · simp [put, Report.label, hother]
      · simp [Report.wf, Report.label, hother]
      · intro label
        rcases eq_or_ne label otherLabel with rfl | hlabel
        · simp [Report.uncounted, Report.label, hother]
        · simp [Report.uncounted, Report.label, hother, hlabel, hlabel.symm]
      · simp [Report.unnumbered, Report.label, hother, put]
    · refine h.update ⟨d, err, .done⟩ hr (by simp) rfl ?_ rfl rfl rfl ?_ ?_ rfl h.texts
      · simp [put, Report.label, hother]
      · intro label
        rcases eq_or_ne label (classify err) with rfl | hlabel
        · simp [Report.uncounted, Report.label]
        · simp [Report.uncounted, Report.label, hlabel, hlabel.symm]
      · simp [Report.unnumbered, Report.label, hother, put]
  · -- whoever counts to ten or less writes to the log
    obtain rfl : pc = .adding := hpc
    have hother : classify err = otherLabel := of_decide_eq_true hwf
    have hnumbered (pc : ReportPc) (hpc : pc = .logging ∨ pc = .done) :
        s.loggedOther + 1 + (Report.unnumbered ⟨d, err, pc⟩).toNat =
          s.loggedOther + (Report.unnumbered ⟨d, err, .adding⟩).toNat := by
      rcases hpc with rfl | rfl <;> simp [Report.unnumbered, Report.label, hother]
    rcases Nat.lt_or_ge s.loggedOther 10 with hten | hten
    · refine h.update ⟨d, err, .logging⟩ hr (by simp) rfl ?_ rfl rfl ?_ ?_
        (hnumbered _ (.inl rfl)) ?_ h.texts
      · simp [put, Nat.succ_le_of_lt hten]
      · simp [Report.wf, Report.label, hother]
      · intro label
        simp [Report.uncounted, put]
      · simp only [Report.isLogging, put, decide_true, reduceCtorEq, decide_false, Bool.toNat_true,
          Bool.toNat_false]
        omega
    · refine h.update ⟨d, err, .done⟩ hr (by simp) rfl ?_ rfl rfl rfl ?_
        (hnumbered _ (.inr rfl)) ?_ h.texts
      · simp [put, Nat.not_le.mpr (Nat.lt_succ_of_le hten)]
      · intro label
        simp [Report.uncounted, put]
      · simp only [Report.isLogging, put, reduceCtorEq, decide_false, Bool.toNat_false]
        omega
  · obtain rfl : pc = .logging := hpc
    have hother : classify err = otherLabel := of_decide_eq_true hwf
    refine h.update ⟨d, err, .done⟩ hr (by simp) rfl rfl rfl rfl rfl ?_ ?_ ?_ ?_
    · intro label
      simp [Report.uncounted, put]
    · simp [Report.unnumbered, Report.label, hother, put]
    · simp [Report.isLogging, put]
    · intro e he
      rcases List.mem_append.mp he with he | he
      · exact h.texts e he
      · exact (List.mem_singleton.mp he) ▸ hother

/-- **One step of anyone.** -/
theorem Reported.step {inflight : ℕ} {s t : Reporter} {a : ReportAct} (h : Reported inflight s)
    (ht : s.step inflight a = some t) : Reported inflight t := by
  cases a with
  | report i => exact h.report ht
  | other a =>
    obtain ⟨hallows, u, hu, rfl⟩ := step_other_eq_some.mp ht
    have hfailed := Shared.tally_failed_step h.shared hu
    refine ⟨h.shared.step hu, ?_, ?_, h.wf, h.errors, h.numbered, h.logged, h.texts⟩
    · rw [h.failed]
      cases a <;> first | exact hfailed.symm | cases hallows
    · intro r hr hpc
      obtain ⟨g, hg, hleaving⟩ := h.leaving r hr hpc
      refine Shared.leaving_step hu ?_ hg hleaving
      rintro rfl
      have hdone := List.all_eq_true.mp hallows r hr
      simp [hpc] at hdone
  | fail d err =>
    obtain ⟨u, hu, rfl⟩ := step_fail_eq_some.mp ht
    have hfailed := Shared.tally_failed_step h.shared hu
    refine ⟨h.shared.step hu, ?_, ?_, ?_, ?_, ?_, ?_, h.texts⟩
    · rw [List.length_append, h.failed]
      exact hfailed.symm
    · intro r hr hpc
      rcases List.mem_append.mp hr with hr | hr
      · obtain ⟨g, hg, hleaving⟩ := h.leaving r hr hpc
        exact Shared.leaving_step hu (by simp) hg hleaving
      · obtain rfl := List.mem_singleton.mp hr
        obtain ⟨g, hg, -, rfl⟩ := Shared.onDial_eq_some.mp hu
        exact ⟨_, List.getElem?_set_self (List.getElem?_eq_some_iff.mp hg).1, rfl⟩
    · intro r hr
      rcases List.mem_append.mp hr with hr | hr
      · exact h.wf r hr
      · exact (List.mem_singleton.mp hr) ▸ rfl
    · intro label
      have hnew : Report.uncounted label ⟨d, err, .counting⟩ =
          Report.labelled label ⟨d, err, .counting⟩ := Bool.and_true _
      rw [List.countP_append, List.countP_append, List.countP_singleton, List.countP_singleton,
        hnew, ← Nat.add_assoc, h.errors]
    · have hnew : Report.unnumbered ⟨d, err, .counting⟩ =
          Report.labelled otherLabel ⟨d, err, .counting⟩ := Bool.and_true _
      rw [List.countP_append, List.countP_append, List.countP_singleton, List.countP_singleton,
        hnew, ← Nat.add_assoc, h.numbered]
    · rw [List.countP_append]
      exact h.logged

theorem reported_of_run {inflight capacity : ℕ} {acts : List ReportAct} {s : Reporter}
    (h : run (step inflight) (start capacity) acts = some s) : Reported inflight s :=
  run_invariant (fun _ _ _ h ht => h.step ht) (reported_start capacity inflight) h

/-- Once all dials are through, all reports are done. -/
theorem Reported.done {inflight : ℕ} {s : Reporter} (h : Reported inflight s)
    (hquiet : s.shared.Quiet) : ∀ r ∈ s.reports, r.pc = .done := by
  intro r hr
  by_contra hpc
  obtain ⟨g, hg, hleaving⟩ := h.leaving r hr hpc
  rw [(hquiet g (List.mem_of_getElem? hg)).1] at hleaving
  cases hleaving

end Reporter

open Reporter

/-- **Every failed dial is reported.** In every run of any number of dials, however their steps and
those of their reports interleave: no label ever counts more errors than there were, and the log
has at most ten lines, all of them about errors without a label. Once all dials are through, every
label counts exactly its errors, the labels with a number those with that number, and all labels
together the failed dials; and the log has a line for each error without a label, up to ten. -/
theorem dial_errors_reported (inflight capacity : ℕ) {acts : List ReportAct} {s : Reporter}
    (hrun : run (Reporter.step inflight) (Reporter.start capacity) acts = some s) :
    (∀ label, s.dialErrors label ≤ s.reports.countP fun r => classify r.err = label) ∧
    s.logged.length ≤ 10 ∧ (∀ err ∈ s.logged, classify err = otherLabel) ∧
    (s.shared.Quiet →
      (∀ label, s.dialErrors label = s.reports.countP fun r => classify r.err = label) ∧
      (∀ n, errnoLabels.lookup n = none →
        s.dialErrors (errnoLabel n) = s.reports.countP fun r => r.err.errno = some n) ∧
      ∑ label ∈ (s.reports.map Report.label).toFinset, s.dialErrors label =
        s.shared.tally Dial.failed ∧
      s.logged.length = min 10 (s.dialErrors otherLabel)) := by
  have h := reported_of_run hrun
  refine ⟨fun label => Nat.le.intro (h.errors label), ?_, h.texts, ?_⟩
  · have hlogged := h.logged
    omega
  · intro hquiet
    have hdone := h.done hquiet
    have hnone {p : Report → Bool} (hp : ∀ r : Report, r.pc = .done → p r = false) :
        s.reports.countP p = 0 :=
      List.countP_eq_zero.mpr fun r hr => Bool.eq_false_iff.mp (hp r (hdone r hr))
    have herrors (label : List Char) :
        s.dialErrors label = s.reports.countP fun r => classify r.err = label := by
      have hlabel := h.errors label
      rw [hnone fun r hr => by simp [Report.uncounted, hr], Nat.add_zero] at hlabel
      exact hlabel
    refine ⟨herrors, ?_, ?_, ?_⟩
    · intro n hn
      rw [herrors]
      exact List.countP_congr fun r _ => by simp [classify_eq_errno_iff hn]
    · rw [← h.failed, ← Population.sum_countP_fibers s.reports Report.label]
      exact Finset.sum_congr rfl fun label _ => herrors label
    · have hnumbered := h.numbered
      have hlogged := h.logged
      rw [hnone fun r hr => by simp [Report.unnumbered, hr], Nat.add_zero] at hnumbered
      rw [hnone fun r hr => by simp [Report.isLogging, hr], Nat.add_zero, hnumbered] at hlogged
      rw [hlogged, herrors]
      rfl

/-- Two dials fail, one with an error number that has no name and one without a label. -/
theorem dial_errors_reported_two : ∃ s : Reporter, s.reports.length = 2 ∧
    s.dialErrors (errnoLabel 113) = 1 ∧ s.logged.length = 1 := by
  let noRoute : DialError := ⟨some 113, false, false, "connect: no route to host".toList⟩
  let unknown : DialError := ⟨none, false, false, "unexpected".toList⟩
  have hrun : (run (Reporter.step 2) (Reporter.start 2)
      [.other (.start "ws://a"), .other (.start "ws://b"), .fail 1 unknown, .fail 0 noRoute,
        .report 0, .report 0, .report 1, .other (.release 0), .report 0, .other (.release 1),
        .other (.finish 0), .other (.finish 1)]).any
      (fun s => (∀ g ∈ s.shared.dials, g.pc = .finished ∧ g.close ≠ .removed) ∧
        s.reports.length = 2 ∧ (s.reports.countP fun r => r.err.errno = some 113) = 1 ∧
        s.dialErrors otherLabel = 1) = true := by decide +kernel
  obtain ⟨s, hs, hend⟩ := (Option.any_eq_true _ _).mp hrun
  obtain ⟨hquiet, hlength, hnumber, hother⟩ := of_decide_eq_true hend
  obtain ⟨-, herrno, -, hlogged⟩ := (dial_errors_reported 2 2 hs).2.2.2 hquiet
  refine ⟨s, hlength, (herrno 113 rfl).trans hnumber, ?_⟩
  rw [hlogged, hother]
  rfl

end Millionws
