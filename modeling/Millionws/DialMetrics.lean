import Mathlib.Data.List.Perm.Basic
import Mathlib.Data.List.NodupEquivFin
import Millionws.DialAccounting

/-!
# What the load generator reports

The counters of `cmd/loadgen/main.go` that are exported and never read back: how many dials were
made and how many of them failed, how many connections are open and how many were lost. `Shared`
does without them, so here they are a monitor beside it, one increment for each place in the source
that makes one.

Everyone who looks at them adds them up: what was dialed and did not fail should be open or lost.
That is not quite so. When the server closes a connection before its dialer has added it, `OnClose`
finds nothing to remove and counts nothing, and then `add` refuses it and counts nothing either. The
connection has been dialed, and shows up nowhere else. `metrics_balance` has it as `unreported`, and
says that nothing else is missing.

## What is deliberately absent

The values of the two histograms, and the reasons in `dialErrors`: what is kept is how many
observations and errors there are. `dialsTotal.Inc()` is the first thing a dial goroutine does, and
belongs to `start` here; other increments belong to the step they stand next to.

## Main definitions

* `Metrics`, `Metrics.watch` — the exported counters

## Main results

* `Shared.Inv.len_eq_tally` — the size of the registry, counted in dials
* `metrics_balance` — how the counters add up
-/

namespace Millionws

open Transition

namespace Dial

/-- `Dial` returned an error. -/
def failed (g : Dial) : Bool := g.pc ≠ .dialing && g.close = .noConn

/-- `Dial` returned a connection. -/
def connected (g : Dial) : Bool := g.close ≠ .noConn

/-- The connection is closed, and `OnClose` is through with it. -/
def gone (g : Dial) : Bool := g.close = .closed

/-- `Dial` has not returned. -/
def dialing (g : Dial) : Bool := g.pc = .dialing

/-- `OnClose` has not run for the connection. -/
def isOpen (g : Dial) : Bool := g.close = .opened

/-- The registry has the connection. -/
def stored (g : Dial) : Bool := g.life = .stored

end Dial

/-- The exported counters, and one that is not exported. -/
structure Metrics where
  dialsTotal : ℕ
  dialErrors : ℕ
  /-- The observations of `dialLatency`. -/
  dialLatency : ℕ
  connsActive : ℤ
  disconnects : ℕ
  /-- The connections for which `OnClose` found nothing to remove. -/
  unreported : ℕ
  deriving DecidableEq

namespace Metrics

/-- Nothing counted. -/
def zero : Metrics := ⟨0, 0, 0, 0, 0, 0⟩

/-- The increments of one step. -/
def watch (m : Metrics) (s : Shared) : Act → Metrics
  | .start _ => { m with dialsTotal := m.dialsTotal + 1 }
  | .fail _ => { m with dialErrors := m.dialErrors + 1 }
  | .connect _ => { m with dialLatency := m.dialLatency + 1 }
  | .count _ => { m with connsActive := m.connsActive + 1 }
  | .closeCount _ => { m with
      connsActive := m.connsActive - 1
      disconnects := m.disconnects + 1 }
  | .closeRemove d => { m with unreported := m.unreported + (!(s.reg.remove d).1).toNat }
  | _ => m

end Metrics

namespace Shared

/-- **The size of the registry** is the number of dials whose connection it has. -/
theorem Inv.len_eq_tally {inflight : ℕ} {s : Shared} (h : s.Inv inflight) :
    s.reg.len = s.tally Dial.stored := by
  have hperm : s.reg.conns.Perm ((List.range s.dials.length).filter fun d =>
      (s.dials[d]?).any Dial.stored) := by
    refine (List.perm_ext_iff_of_nodup s.reg.inv.nodup (List.nodup_range.filter _)).mpr ?_
    intro d
    rw [h.mem_conns_iff, List.mem_filter, List.mem_range]
    constructor
    · rintro ⟨g, hg, hlife⟩
      exact ⟨(List.getElem?_eq_some_iff.mp hg).1, by simp [hg, Dial.stored, hlife]⟩
    · rintro ⟨hlt, hd⟩
      exact ⟨s.dials[d], List.getElem?_eq_getElem hlt, by simpa [hlt, Dial.stored] using hd⟩
  rw [Registry.len, hperm.length_eq, ← List.countP_eq_length_filter, tally]
  exact Population.countP_range_getElem? s.dials Dial.stored

/-! ### How the counters add up -/

/-- Every dial is in one of the counters, or on its way. -/
structure Counted (s : Shared) (m : Metrics) : Prop where
  dials : m.dialsTotal = s.dials.length
  errors : m.dialErrors = s.tally Dial.failed
  latency : m.dialLatency = s.tally Dial.connected
  gone : m.disconnects + m.unreported = s.tally Dial.gone
  active : m.connsActive = s.active

theorem counted_init (capacity : ℕ) : Counted (init capacity) Metrics.zero :=
  ⟨rfl, rfl, rfl, rfl, rfl⟩

/-- **One dial changes**, and each counter moves by what the dial's tallies do. -/
theorem Counted.update {d : ℕ} {s t : Shared} {m m' : Metrics} {g g' : Dial} (h : Counted s m)
    (hg : s.dials[d]? = some g) (ht : t.dials = s.dials.set d g')
    (hdials : m'.dialsTotal = m.dialsTotal)
    (herrors : m'.dialErrors + g.failed.toNat = m.dialErrors + g'.failed.toNat)
    (hlatency : m'.dialLatency + g.connected.toNat = m.dialLatency + g'.connected.toNat)
    (hgone : m'.disconnects + m'.unreported + g.gone.toNat =
      m.disconnects + m.unreported + g'.gone.toNat)
    (hactive : m'.connsActive - t.active = m.connsActive - s.active) : Counted t m' := by
  have hcount := Population.countP_set hg g'
  obtain ⟨hd, he, hl, hgo, ha⟩ := h
  constructor
  · rw [hdials, hd, ht, List.length_set]
  · have := hcount Dial.failed
    simp only [tally, ht] at *
    omega
  · have := hcount Dial.connected
    simp only [tally, ht] at *
    omega
  · have := hcount Dial.gone
    simp only [tally, ht] at *
    omega
  · omega

/-- A dial that has returned moves on, and no tally notices. -/
theorem Counted.advance {d : ℕ} {s t : Shared} {m : Metrics} {g : Dial} (h : Counted s m)
    (hg : s.dials[d]? = some g) (hpc : g.pc ≠ .dialing) {pc : DialPc} (hpc' : pc ≠ .dialing)
    (ht : t.dials = s.dials.set d { g with pc := pc }) {n : ℤ}
    (hactive : n - t.active = m.connsActive - s.active) : Counted t { m with connsActive := n } :=
  h.update hg ht rfl (by simp [Dial.failed, hpc, hpc']) rfl rfl hactive

/-- **One step** of a dial or of `OnClose`. -/
theorem Counted.step {inflight : ℕ} {s t : Shared} {m : Metrics} {a : Act} (h : Counted s m)
    (hinv : s.Inv inflight) (ht : step inflight s a = some t) : Counted t (m.watch s a) := by
  match a with
  | .start url =>
    obtain ⟨-, rfl⟩ := step_start_eq_some.mp ht
    obtain ⟨hd, he, hl, hgo, ha⟩ := h
    constructor
    · rw [List.length_append, ← hd]
      rfl
    all_goals simpa [Metrics.watch, tally, Dial.failed, Dial.connected, Dial.gone]
  | .fail d | .connect d =>
    obtain ⟨⟨url, pc, close⟩, hg, hpc, rfl⟩ := onDial_eq_some.mp ht
    obtain rfl : pc = .dialing := by simpa using hpc
    obtain rfl : close = .noConn := by
      simpa [Dial.wf] using hinv.wf _ (List.mem_of_getElem? hg)
    exact h.update hg rfl rfl rfl rfl rfl rfl
  | .add d =>
    obtain ⟨g, hg, hpc, rfl⟩ := onDial_eq_some.mp ht
    obtain hpc : g.pc = .dialed := by simpa using hpc
    refine h.advance hg (by simp [hpc]) ?_ rfl rfl
    split_ifs <;> simp
  | .count d =>
    obtain ⟨g, hg, hpc, rfl⟩ := onDial_eq_some.mp ht
    obtain hpc : g.pc = .added := by simpa using hpc
    exact h.advance hg (by simp [hpc]) (by simp) rfl (by simp only; omega)
  | .release d =>
    obtain ⟨g, hg, hpc, rfl⟩ := onDial_eq_some.mp ht
    obtain ⟨hpc, -⟩ : g.pc = .leaving ∧ 0 < s.sem := by simpa using hpc
    exact h.advance hg (by simp [hpc]) (by simp) rfl rfl
  | .finish d =>
    obtain ⟨g, hg, hpc, rfl⟩ := onDial_eq_some.mp ht
    obtain hpc : g.pc = .released := by simpa using hpc
    exact h.advance hg (by simp [hpc]) (by simp) rfl rfl
  | .closeRemove d =>
    obtain ⟨⟨url, pc, close⟩, hg, hclose, rfl⟩ := onDial_eq_some.mp ht
    obtain rfl : close = .opened := by simpa using hclose
    -- if the registry did not have it, the connection is gone at once and nobody counts it
    cases hb : (s.reg.remove d).1 with
    | true =>
      refine h.update hg rfl rfl ?_ ?_ ?_ rfl <;>
        simp [Metrics.watch, Dial.failed, Dial.connected, Dial.gone, hb]
    | false =>
      refine h.update hg rfl rfl ?_ ?_ ?_ rfl <;>
        simp [Metrics.watch, Dial.failed, Dial.connected, Dial.gone, hb, Nat.add_assoc]
  | .closeCount d =>
    obtain ⟨⟨url, pc, close⟩, hg, hclose, rfl⟩ := onDial_eq_some.mp ht
    obtain rfl : close = .removed := by simpa using hclose
    refine h.update hg rfl rfl ?_ ?_ ?_ ?_
    · simp [Metrics.watch, Dial.failed]
    · simp [Metrics.watch, Dial.connected]
    · simp [Metrics.watch, Dial.gone, Nat.add_right_comm]
    · simp only [Metrics.watch]
      omega

/-- A dial has not returned, has failed or has connected. -/
theorem Inv.length_dials {inflight : ℕ} {s : Shared} (h : s.Inv inflight) :
    s.dials.length = s.tally Dial.dialing + (s.tally Dial.failed + s.tally Dial.connected) := by
  have hreturned : (s.dials.countP fun g => !g.dialing) =
      s.tally Dial.failed + s.tally Dial.connected := by
    refine Population.countP_split ?_
    rintro ⟨url, pc, close⟩ hg
    have hwf := h.wf _ hg
    cases pc <;> cases close <;> first | rfl | cases hwf
  rw [← hreturned, ← List.countP_true]
  refine Population.countP_split ?_
  rintro ⟨url, pc, close⟩ -
  cases pc <;> rfl

/-- A connection is open, about to be counted out, or gone. -/
theorem tally_connected (s : Shared) : s.tally Dial.connected =
    s.tally Dial.isOpen + (s.tally Dial.stillCounted + s.tally Dial.gone) := by
  have hclosed : (s.dials.countP fun g => g.connected && !g.isOpen) =
      s.tally Dial.stillCounted + s.tally Dial.gone := by
    refine Population.countP_split ?_
    rintro ⟨url, pc, close⟩ -
    cases close <;> rfl
  rw [← hclosed]
  refine Population.countP_split ?_
  rintro ⟨url, pc, close⟩ -
  cases close <;> rfl

theorem counted_of_run {inflight capacity : ℕ} {acts : List Act} {p : Shared × Metrics}
    (h : run (withMonitor (step inflight) Metrics.watch) (init capacity, Metrics.zero) acts =
      some p) : p.1.Inv inflight ∧ Counted p.1 p.2 := by
  refine run_invariant (P := fun p : Shared × Metrics => p.1.Inv inflight ∧ Counted p.1 p.2) ?_
    ⟨inv_init capacity inflight, counted_init capacity⟩ h
  rintro p a q ⟨hinv, hcounted⟩ hq
  obtain ⟨ht, hm⟩ := withMonitor_eq_some.mp hq
  exact ⟨hinv.step ht, hm ▸ hcounted.step hinv ht⟩

end Shared

open Shared

/-- **The balance.** In every state that any interleaving of dials and closes reaches, a dial that
was made is still in `Dial`, or an error, or a connection, and a connection is open, on its way out
of the counters, lost, or unreported. When nothing is part-way the dials are the errors, the open
connections, the disconnects and the unreported, and the gauge is the size of the registry. -/
theorem metrics_balance (inflight capacity : ℕ) {acts : List Act} {s : Shared} {m : Metrics}
    (hrun : run (withMonitor (Shared.step inflight) Metrics.watch)
      (init capacity, Metrics.zero) acts = some (s, m)) :
    m.dialsTotal = s.tally Dial.dialing + m.dialErrors + m.dialLatency ∧
    m.dialLatency = s.tally Dial.isOpen + s.tally Dial.stillCounted + m.disconnects +
      m.unreported ∧
    m.connsActive = s.active ∧
    (s.Quiet → m.connsActive = s.reg.len ∧
      (m.dialsTotal : ℤ) = m.dialErrors + m.connsActive + m.disconnects + m.unreported) := by
  obtain ⟨hinv, hd, he, hl, hg, ha⟩ := counted_of_run hrun
  simp only at hinv hd he hl hg ha
  have hlength := hinv.length_dials
  have hconnected := s.tally_connected
  refine ⟨by omega, by omega, ha, ?_⟩
  intro hquiet
  have huncounted : s.tally Dial.uncounted = 0 := hquiet.tally_eq_zero fun _ _ _ => rfl
  have hdialing : s.tally Dial.dialing = 0 := hquiet.tally_eq_zero fun _ _ _ => rfl
  have hstill : s.tally Dial.stillCounted = 0 :=
    hquiet.tally_eq_zero fun _ _ hclose => decide_eq_false hclose
  have hopen : s.tally Dial.isOpen = s.tally Dial.stored := by
    refine List.countP_congr ?_
    rintro ⟨url, pc, close⟩ hg
    obtain ⟨rfl, -⟩ := hquiet _ hg
    cases close <;> rfl
  have hlen := hinv.len_eq_tally
  have hactive := hinv.active
  omega

/-- Three dials: one fails, one is closed by the server before it is added, and one stays. -/
theorem metrics_balance_three : ∃ s m,
    run (withMonitor (Shared.step 3) Metrics.watch) (init 3, Metrics.zero)
      [.start "ws://a", .start "ws://a", .start "ws://a", .fail 0, .connect 1, .connect 2,
        .closeRemove 1, .add 2, .add 1, .count 2, .release 0, .release 1, .release 2, .finish 0,
        .finish 1, .finish 2] = some (s, m) ∧ m.dialsTotal = 3 ∧ m.unreported = 1 ∧
    (m.dialsTotal : ℤ) = m.dialErrors + m.connsActive + m.disconnects + m.unreported := by
  have hrun : (run (withMonitor (Shared.step 3) Metrics.watch) (init 3, Metrics.zero)
      [.start "ws://a", .start "ws://a", .start "ws://a", .fail 0, .connect 1, .connect 2,
        .closeRemove 1, .add 2, .add 1, .count 2, .release 0, .release 1, .release 2, .finish 0,
        .finish 1, .finish 2]).any (fun p => p.2.dialsTotal = 3 ∧ p.2.unreported = 1 ∧
          ∀ g ∈ p.1.dials, g.pc = .finished ∧ g.close ≠ .removed) = true := by decide
  obtain ⟨⟨s, m⟩, hs, hm⟩ := (Option.any_eq_true _ _).mp hrun
  obtain ⟨htotal, hunreported, hquiet⟩ := of_decide_eq_true hm
  exact ⟨s, m, hs, htotal, hunreported, ((metrics_balance 3 3 hs).2.2.2 hquiet).2⟩

end Millionws
