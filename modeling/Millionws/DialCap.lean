import Millionws.DialLoop

/-!
# How many connections the dial loop leaves

`dialLoop` compares `active.Load() + pending.Load()` with the target. By `accounting` the sum of
the two counters covers every stored connection and every dial on its way there, but the loop
reads them one after the other. A dial that adds itself to `active` after the first read and
takes itself out of `pending` before the second is in neither number, and its connection is
stored all the same: the check is torn.

A check that passes without its torn dials is sound, since everything else that happens between
the two reads only makes the sum too large. So the target can be exceeded by one connection for
each check that passed because of torn dials and by no more, which is `claimed_le`. One is enough:
nothing closes the surplus connection again.

## Main definitions

* `Shared.claimed` — the stored connections and the dials that have not reached `add`
* `Reads`, `watchReads` — a monitor: the dials counted since `active` was read, and how many
  checks passed because of torn dials

## Main results

* `Shared.claimed_step` — only the loop claims connections
* `DialLoop.claimed_le` — the target is exceeded by at most the number of torn checks
* `DialLoop.claimed_le_target` — so without torn checks it is never exceeded
* `DialLoop.target_exceeded` — and with one it is
-/

namespace Millionws

open Transition

/-! ### What is claimed -/

namespace Shared

/-- The connections stored in the registry and the dials that have not reached `reg.add`. -/
def claimed (s : Shared) : ℕ := s.reg.len + s.tally Dial.early

theorem claimed_init (capacity : ℕ) : (init capacity).claimed = 0 := rfl

/-- Dial goroutines and `OnClose` claim nothing new. -/
theorem claimed_step {inflight : ℕ} {s t : Shared} {a : Act} (h : step inflight s a = some t)
    (ha : a.isStart = false) : t.claimed ≤ s.claimed := by
  obtain ⟨d, g, g', hg, hdials, -, hle, -⟩ := step_cases h ha
  have hcount := Population.countP_set hg g' Dial.early
  simp only [claimed, tally, hdials]
  omega

theorem claimed_start {inflight : ℕ} {s t : Shared} {url : String}
    (h : step inflight s (.start url) = some t) : t.claimed = s.claimed + 1 := by
  obtain ⟨-, rfl⟩ := step_start_eq_some.mp h
  simp [claimed, tally, Dial.early, Nat.add_assoc]

/-- A set of dials that are all `q` and none of them `p`, beside everything that is `p`. -/
theorem card_add_tally_le (s : Shared) {p q : Dial → Bool} (hpq : ∀ g, p g = true → q g = true)
    (S : Finset ℕ) (hS : ∀ d ∈ S, ∃ g, s.dials[d]? = some g ∧ q g = true ∧ p g = false) :
    S.card + s.tally p ≤ s.tally q := by
  rw [tally, tally]
  generalize s.dials = l at hS
  induction l using List.reverseRecOn generalizing S with
  | nil =>
    have hempty : S = ∅ := Finset.eq_empty_of_forall_notMem fun d hd => by simpa using hS d hd
    simp [hempty]
  | append_singleton l g ih =>
    have hrest := ih (S.erase l.length) fun d hd => by
      obtain ⟨hne, hd⟩ := Finset.mem_erase.mp hd
      obtain ⟨g', hg', hq, hp⟩ := hS d hd
      refine ⟨g', ?_, hq, hp⟩
      have hlt := (List.getElem?_eq_some_iff.mp hg').1
      rw [List.length_append, List.length_singleton] at hlt
      rwa [List.getElem?_append_left (by omega)] at hg'
    rw [List.countP_append, List.countP_append, List.countP_singleton, List.countP_singleton]
    by_cases hmem : l.length ∈ S
    · obtain ⟨g', hg', hq, hp⟩ := hS _ hmem
      rw [List.getElem?_concat_length] at hg'
      obtain rfl := Option.some.inj hg'
      rw [Finset.card_erase_of_mem hmem] at hrest
      have hpos := Finset.card_pos.mpr ⟨_, hmem⟩
      simp only [hq, hp, if_true, Bool.false_eq_true, if_false]
      omega
    · rw [Finset.erase_eq_of_notMem hmem] at hrest
      have hg : (if p g = true then 1 else 0) ≤ if q g = true then 1 else 0 := by
        split_ifs with hp hq
        · exact Nat.le_refl _
        · exact absurd (hpq g hp) hq
        · exact Nat.zero_le _
        · exact Nat.le_refl _
      omega

end Shared

/-! ### The two reads -/

/-- What the monitor remembers. -/
structure Reads where
  /-- The dials that added themselves to `active` since the loop last read it. -/
  since : Finset ℕ
  /-- How many checks passed because of torn dials. -/
  tears : ℕ
  deriving DecidableEq

/-- The dials that are counted in neither read: added to `active` after it was read, and gone from
`pending`. -/
def Reads.torn (m : Reads) (s : Shared) : ℕ :=
  (m.since.filter fun d => (s.dials[d]?).any fun g => g.pc = .finished).card

/-- The monitor of the two reads. -/
def watchReads (cfg : DialConfig) (m : Reads) (s : DialLoop) : LoopAct → Reads
  | .loop =>
    match s.pc with
    | .checking _ => { m with since := ∅ }
    | .loaded _ a =>
      if a + s.shared.pending < cfg.target ∧ cfg.target ≤ a + s.shared.pending + m.torn s.shared
      then { m with tears := m.tears + 1 } else m
    | _ => m
  | .env (.count d) => { m with since := insert d m.since }
  | _ => m

namespace DialLoop

variable {cfg : DialConfig}

/-- Between the reads the monitor knows every dial that raised `active`, and a check that passed
leaves room for one connection. -/
structure Capped (cfg : DialConfig) (s : DialLoop) (m : Reads) : Prop where
  shared : s.shared.Inv cfg.inflight
  claimed : (s.shared.claimed : ℤ) ≤ cfg.target + m.tears
  room : ∀ i, s.pc = .acquiring i → (s.shared.claimed : ℤ) < cfg.target + m.tears
  active : ∀ i a, s.pc = .loaded i a → s.shared.active ≤ a + m.since.card
  since : ∀ i a, s.pc = .loaded i a → ∀ d ∈ m.since,
    ∃ g, s.shared.dials[d]? = some g ∧ g.settled = true

/-- **The second read.** Together with the torn dials the two numbers cover what is claimed. -/
theorem Capped.claimed_le_reads {s : DialLoop} {m : Reads} {i : ℕ} {a : ℤ}
    (h : Capped cfg s m) (hpc : s.pc = .loaded i a) :
    (s.shared.claimed : ℤ) ≤ a + s.shared.pending + m.torn s.shared := by
  have hactive := h.active i a hpc
  have hinv := h.shared.active
  have hpending := h.shared.pending
  have hsplit := s.shared.tally_early_add_uncounted
  -- the dials since the first read that are still pending, beside those that are not settled
  have hcard := Finset.card_filter_add_card_filter_not (s := m.since)
    fun d => ((s.shared.dials[d]?).any fun g => g.pc = .finished) = true
  have hle := s.shared.card_add_tally_le (p := fun g => !g.settled) (q := Dial.unfinished)
    (fun g hg => by
      obtain ⟨url, pc, close⟩ := g
      cases pc <;> simp_all [Dial.settled, Dial.unfinished])
    (m.since.filter fun d => ¬ ((s.shared.dials[d]?).any fun g => g.pc = .finished) = true)
    (fun d hd => by
      obtain ⟨hd, hpend⟩ := Finset.mem_filter.mp hd
      obtain ⟨g, hg, hsettled⟩ := h.since i a hpc d hd
      exact ⟨g, hg, by simpa [hg, Dial.unfinished] using hpend, by simp [hsettled]⟩)
  rw [Shared.claimed, Reads.torn]
  omega

theorem capped_start (htarget : 0 ≤ cfg.target) (capacity : ℕ) :
    Capped cfg (start capacity) ⟨∅, 0⟩ where
  shared := Shared.inv_init capacity cfg.inflight
  claimed := by simpa [start, Shared.claimed_init] using htarget
  room i hi := by simp [start] at hi
  active i a hi := by simp [start] at hi
  since i a hi := by simp [start] at hi

/-- A step of the loop. Only the second read needs an argument, and only the dial it leads to
claims anything. -/
theorem Capped.loop {s t : DialLoop} {m : Reads} (h : Capped cfg s m)
    (ht : s.loop cfg = some t) : Capped cfg t (watchReads cfg m s .loop) := by
  obtain ⟨i, hpc, -, rfl⟩ | ⟨i, hpc, -, rfl⟩ | ⟨i, a, hpc, hreached, rfl⟩ | ⟨i, a, hpc, hlt, rfl⟩ |
    ⟨i, u, hpc, hu, rfl⟩ | ⟨i, hpc, -, rfl⟩ := loop_cases ht
  · simp only [watchReads, hpc]
    refine ⟨h.shared, h.claimed, by simp, ?_, ?_⟩
    · rintro i a ⟨⟩
      simp
    · rintro i a ⟨⟩
      simp
  · simp only [watchReads, hpc]
    exact ⟨h.shared, h.claimed, by simp, by simp, by simp⟩
  · have hfail : ¬ (a + s.shared.pending < cfg.target ∧
        cfg.target ≤ a + s.shared.pending + m.torn s.shared) := by omega
    simp only [watchReads, hpc, if_neg hfail]
    exact ⟨h.shared, h.claimed, by simp, by simp, by simp⟩
  · have hreads := h.claimed_le_reads hpc
    have hclaimed := h.claimed
    simp only [watchReads, hpc]
    split_ifs with htorn
    · refine ⟨h.shared, ?_, ?_, by simp, by simp⟩
      · push_cast
        omega
      · intro _ _
        push_cast
        omega
    · have huntorn : a + s.shared.pending + m.torn s.shared < cfg.target :=
        Int.not_le.mp fun hle => htorn ⟨hlt, hle⟩
      refine ⟨h.shared, hclaimed, ?_, by simp, by simp⟩
      intro _ _
      simp only
      omega
  · have hroom := h.room i hpc
    have hone := Shared.claimed_start hu
    simp only [watchReads, hpc]
    refine ⟨h.shared.step hu, ?_, by simp, by simp, by simp⟩
    simp only
    omega
  · simp only [watchReads, hpc]
    exact ⟨h.shared, h.claimed, by simp, by simp, by simp⟩

/-- A step of anyone else claims nothing, and raises `active` only by a dial the monitor sees. -/
theorem Capped.env {s : DialLoop} {m : Reads} {a : Act} {u : Shared} (h : Capped cfg s m)
    (hu : s.shared.step cfg.inflight a = some u) (ha : a.isStart = false) :
    Capped cfg { s with shared := u } (watchReads cfg m s (.env a)) := by
  have hclaimed := Shared.claimed_step hu ha
  obtain ⟨d, g, g', hg, hdials, hsettled, -, hactive⟩ := Shared.step_cases hu ha
  have hlt := (List.getElem?_eq_some_iff.mp hg).1
  have hkeep (e : ℕ) (he : ∃ x, s.shared.dials[e]? = some x ∧ x.settled = true) :
      ∃ x, u.dials[e]? = some x ∧ x.settled = true := by
    obtain ⟨x, hx, hxs⟩ := he
    rw [hdials]
    by_cases hed : e = d
    · subst hed
      rw [hg] at hx
      exact ⟨g', List.getElem?_set_self hlt, hsettled (Option.some.inj hx ▸ hxs)⟩
    · exact ⟨x, by rwa [List.getElem?_set_ne (Ne.symm hed)], hxs⟩
  rcases hactive with ⟨hcount, hdown⟩ | ⟨rfl, hns, hs, hup⟩
  · have hwatch : watchReads cfg m s (.env a) = m := by
      cases a <;> first | rfl | exact absurd rfl (hcount _)
    rw [hwatch]
    refine ⟨h.shared.step hu, ?_, ?_, ?_, ?_⟩
    · exact le_trans (Int.ofNat_le.mpr hclaimed) h.claimed
    · intro i hi
      exact lt_of_le_of_lt (Int.ofNat_le.mpr hclaimed) (h.room i hi)
    · intro i b hi
      exact le_trans hdown (h.active i b hi)
    · intro i b hi e he
      exact hkeep e (h.since i b hi e he)
  · simp only [watchReads]
    refine ⟨h.shared.step hu, ?_, ?_, ?_, ?_⟩
    · exact le_trans (Int.ofNat_le.mpr hclaimed) h.claimed
    · intro i hi
      exact lt_of_le_of_lt (Int.ofNat_le.mpr hclaimed) (h.room i hi)
    · intro i b hi
      -- the dial was not settled, so the monitor had not seen it
      have hnew : d ∉ m.since := fun hd => by
        obtain ⟨x, hx, hxs⟩ := h.since i b hi d hd
        rw [hg] at hx
        rw [Option.some.inj hx, hxs] at hns
        cases hns
      have hle := h.active i b hi
      rw [Finset.card_insert_of_notMem hnew]
      push_cast
      omega
    · intro i b hi e he
      rcases Finset.mem_insert.mp he with rfl | he
      · exact ⟨g', by rw [hdials, List.getElem?_set_self hlt], hs⟩
      · exact hkeep e (h.since i b hi e he)

/-- One step of anyone, beside the monitor. -/
theorem Capped.step {s t : DialLoop × Reads} {a : LoopAct} (h : Capped cfg s.1 s.2)
    (ht : withMonitor (step cfg) (watchReads cfg) s a = some t) : Capped cfg t.1 t.2 := by
  obtain ⟨hstep, hwatch⟩ := withMonitor_eq_some.mp ht
  rw [hwatch]
  cases a with
  | tick =>
    obtain ⟨-, hu⟩ := step_tick_eq_some.mp hstep
    rw [hu]
    exact ⟨h.shared, h.claimed, by simp, by simp, by simp⟩
  | done =>
    obtain ⟨-, hdone⟩ := step_done_eq_some.mp hstep
    rw [hdone]
    exact ⟨h.shared, h.claimed, by simp, by simp, by simp⟩
  | loop => exact h.loop hstep
  | env a =>
    obtain ⟨ha, u, hu, ht⟩ := step_env_eq_some.mp hstep
    rw [ht]
    exact h.env hu ha

/-- **How far the target is exceeded.** By one connection for each torn check at most. -/
theorem claimed_le {capacity : ℕ} {s : DialLoop} {m : Reads} {acts : List LoopAct}
    (htarget : 0 ≤ cfg.target)
    (h : run (withMonitor (step cfg) (watchReads cfg)) (start capacity, ⟨∅, 0⟩) acts =
      some (s, m)) : (s.shared.claimed : ℤ) ≤ cfg.target + m.tears :=
  (run_invariant (P := fun p => Capped cfg p.1 p.2) (fun _ _ _ h ht => h.step ht)
    (capped_start htarget capacity) h).claimed

/-- **The cap.** In a run without a torn check, the connections stored and the dials in progress
never exceed the target. -/
theorem claimed_le_target {capacity : ℕ} {s : DialLoop} {m : Reads} {acts : List LoopAct}
    (htarget : 0 ≤ cfg.target)
    (h : run (withMonitor (step cfg) (watchReads cfg)) (start capacity, ⟨∅, 0⟩) acts =
      some (s, m)) (htears : m.tears = 0) : (s.shared.claimed : ℤ) ≤ cfg.target := by
  have hle := claimed_le htarget h
  rw [htears] at hle
  simpa using hle

/-- A single connection and a single slot. -/
def single : DialConfig := ⟨["ws://a"], by decide, 1, 100, 1⟩

/-- One connection is asked for. The dial finishes between two ticks, and the next check sees it
in `active`. -/
theorem claimed_le_target_one : ∃ s m,
    run (withMonitor (step single) (watchReads single)) (start 1, ⟨∅, 0⟩)
      [.tick, .loop, .loop, .loop, .loop, .env (.connect 0), .env (.add 0), .env (.count 0),
        .env (.release 0), .env (.finish 0), .tick, .loop, .loop] = some (s, m) ∧
    (s.shared.claimed : ℤ) ≤ 1 := by
  have hrun : (run (withMonitor (step single) (watchReads single)) (start 1, ⟨∅, 0⟩)
      [.tick, .loop, .loop, .loop, .loop, .env (.connect 0), .env (.add 0), .env (.count 0),
        .env (.release 0), .env (.finish 0), .tick, .loop, .loop]).any (fun p => p.2.tears = 0) =
      true := by decide
  obtain ⟨⟨s, m⟩, hs, htears⟩ := (Option.any_eq_true _ _).mp hrun
  exact ⟨s, m, hs, claimed_le_target (by decide) hs (by simpa using htears)⟩

/-- **One too many.** A single connection is asked for. Its dial is counted and finishes between
the two reads of the next tick's check, which sees neither and dials again. -/
theorem target_exceeded : ¬ ∀ (cfg : DialConfig) (capacity : ℕ) (s : DialLoop), 0 ≤ cfg.target →
    1 ≤ cfg.inflight → Reachable (step cfg) (start capacity) s →
    (s.shared.claimed : ℤ) ≤ cfg.target := by
  intro h
  have hrun : (run (step single) (start 1)
    [.tick, .loop, .loop, .loop, .loop, .tick, .loop, .env (.connect 0), .env (.add 0),
      .env (.count 0), .env (.release 0), .env (.finish 0), .loop, .loop]).any
      (fun s => s.shared.claimed = 2) = true := by decide
  obtain ⟨s, hs, hclaimed⟩ := (Option.any_eq_true _ _).mp hrun
  have hle := h single 1 s (by decide) (by decide) ⟨_, hs⟩
  rw [of_decide_eq_true hclaimed] at hle
  exact absurd hle (by decide)

end DialLoop

end Millionws
