import Millionws.DialCap
import Millionws.Sender

/-!
# The load generator

`main` of `cmd/loadgen` starts `dialLoop` and `sendLoop` over one registry, and they know nothing
of each other: the dial goroutines and the `OnClose` callbacks decide what the sender finds, and
the sender decides nothing for them. Here the two models are put side by side, with every step of
either at any time, and every run of the whole is at once a run of `DialLoop` and a run of `Sender`
on what happens to the registry.

So whatever holds of either holds of the whole, and some things need both. What the dial loop lets
into the registry bounds what the sender counts, so that the flags `-conns` and `-interval` bound
the messages; and it bounds the rounds in which the sender comes by, so that a connection that stays
open is reached within a number of ticks.

The carry of the sender is exact here, as in `SendLoop`, and `interval` is any positive number of
nanoseconds. A ticker drops ticks that nobody waits for, so both results count the ticks that the
sender takes and say nothing about how much time went by.

## What is deliberately absent

`-interval 0`, which starts no `sendLoop` at all; `progress`, which only prints a counter; the
engine behind the connections.

## Main definitions

* `Loadgen`, `Loadgen.step` — both loops, interleaved with the dials and the closes
* `Loadgen.watch` — the monitors of both, side by side

## Main results

* `Loadgen.run_dialLoop`, `Loadgen.run_sender` — a run of the whole is a run of each
* `Loadgen.messages_le` — what the flags allow the sender to send
* `Loadgen.reached_of_due` — a connection that stays open is reached within a number of ticks
-/

namespace Millionws

open Transition

/-- Both loops and what they share. -/
structure Loadgen where
  dialLoop : DialLoop
  pc : SendPc ℕ
  vars : SendLoop.State ℕ
  messagesSent : ℕ

/-- Whose turn it is. -/
inductive LoadgenAct where
  /-- `dialLoop`, a dial goroutine or an `OnClose`. -/
  | dial (a : LoopAct)
  /-- `sendLoop`. -/
  | send (a : SendAct ℕ)
  deriving DecidableEq

/-- A call of the registry that is not the sender's own. -/
def SendAct.isCall {C : Type} : SendAct C → Bool
  | .add _ | .remove _ => true
  | _ => false

/-- What a step of a dial or of `OnClose` does to the registry. -/
def Act.call? : Act → Option (SendAct ℕ)
  | .add d => some (.add d)
  | .closeRemove d => some (.remove d)
  | _ => none

/-- What the sender sees of a step. -/
def LoadgenAct.send? : LoadgenAct → Option (SendAct ℕ)
  | .dial (.env a) => a.call?
  | .dial _ => none
  | .send a => some a

/-- What the dial loop sees of a step. -/
def LoadgenAct.dial? : LoadgenAct → Option LoopAct
  | .dial a => some a
  | .send _ => none

namespace Loadgen

/-- Nothing dialed and nothing sent. -/
def start (capacity : ℕ) : Loadgen :=
  ⟨DialLoop.start capacity, .sending [], SendLoop.init, 0⟩

/-- What the sender works on. -/
def sender (s : Loadgen) : Sender ℕ :=
  ⟨s.dialLoop.shared.reg.toRegistry, s.pc, s.vars, s.messagesSent⟩

/-- One step of anyone. -/
def step (cfg : DialConfig) (interval : ℕ) (s : Loadgen) : LoadgenAct → Option Loadgen
  | .dial a => (s.dialLoop.step cfg a).map fun l => { s with dialLoop := l }
  | .send a =>
    if a.isCall then none
    else (s.sender.step interval a).map fun t =>
      { s with pc := t.pc, vars := t.vars, messagesSent := t.messagesSent }

variable {cfg : DialConfig} {interval : ℕ}

/-! ### The two loops in it -/

theorem step_dial_eq_some {s t : Loadgen} {a : LoopAct} :
    s.step cfg interval (.dial a) = some t ↔
      ∃ l, s.dialLoop.step cfg a = some l ∧ t = { s with dialLoop := l } := by
  rw [step, Option.map_eq_some_iff]
  exact exists_congr fun l => and_congr_right fun _ => eq_comm

/-- The sender's own steps leave the registry alone. -/
theorem step_send_eq_some {s t : Loadgen} {a : SendAct ℕ}
    (h : s.step cfg interval (.send a) = some t) :
    a.isCall = false ∧ s.sender.step interval a = some t.sender ∧ t.dialLoop = s.dialLoop := by
  rw [step] at h
  split_ifs at h with hcall
  obtain ⟨u, hu, rfl⟩ := Option.map_eq_some_iff.mp h
  refine ⟨by simpa using hcall, ?_, rfl⟩
  have hreg : u.reg = s.sender.reg := by
    match a with
    | .tick => rw [(Sender.step_tick_eq_some hu).2]
    | .take =>
      obtain ⟨_, _, _, -, -, rfl⟩ := Sender.step_take_eq_some hu
      rfl
    | .write ok =>
      obtain ⟨_, _, -, rfl⟩ := Sender.step_write_eq_some hu
      rfl
    | .add _ | .remove _ => exact absurd rfl hcall
  rw [hu]
  exact congrArg some (by cases u; cases hreg; rfl)

/-- A step of a dial or of `OnClose` is its call of the registry, if it makes one. -/
theorem run_call {inflight : ℕ} {u : Sender ℕ} {v w : Shared} {a : Act}
    (h : v.step inflight a = some w) (hu : u.reg = v.reg.toRegistry) :
    run (Sender.step interval) u a.call?.toList = some { u with reg := w.reg.toRegistry } := by
  have hkeep (hreg : w.reg = v.reg) : { u with reg := w.reg.toRegistry } = u := by
    rw [hreg, ← hu]
  match a with
  | .start url =>
    obtain ⟨-, rfl⟩ := Shared.step_start_eq_some.mp h
    exact congrArg some (hkeep rfl).symm
  | .fail d | .connect d | .count d | .release d | .finish d | .closeCount d =>
    obtain ⟨g, -, -, rfl⟩ := Shared.onDial_eq_some.mp h
    exact congrArg some (hkeep rfl).symm
  | .add d =>
    obtain ⟨g, -, -, rfl⟩ := Shared.onDial_eq_some.mp h
    rw [Act.call?, Option.toList_some, run_cons, Sender.step, hu]
    rfl
  | .closeRemove d =>
    obtain ⟨g, -, -, rfl⟩ := Shared.onDial_eq_some.mp h
    rw [Act.call?, Option.toList_some, run_cons, Sender.step, hu, v.reg.remove_eq]
    rfl

/-- **One step** of anyone is a step of the sender on the registry, or none. -/
theorem step_sender {s t : Loadgen} {a : LoadgenAct} (h : s.step cfg interval a = some t) :
    run (Sender.step interval) s.sender a.send?.toList = some t.sender := by
  match a with
  | .send a =>
    obtain ⟨-, hu, -⟩ := step_send_eq_some h
    exact run_cons_eq_some.mpr ⟨_, hu, rfl⟩
  | .dial .tick =>
    obtain ⟨l, hl, rfl⟩ := step_dial_eq_some.mp h
    obtain ⟨-, rfl⟩ := DialLoop.step_tick_eq_some.mp hl
    rfl
  | .dial .done =>
    obtain ⟨l, hl, rfl⟩ := step_dial_eq_some.mp h
    obtain ⟨-, rfl⟩ := DialLoop.step_done_eq_some.mp hl
    rfl
  | .dial .loop =>
    obtain ⟨l, hl, rfl⟩ := step_dial_eq_some.mp h
    obtain ⟨i, -, -, rfl⟩ | ⟨i, -, -, rfl⟩ | ⟨i, a, -, -, rfl⟩ | ⟨i, a, -, -, rfl⟩ |
      ⟨i, u, -, hu, rfl⟩ | ⟨i, -, -, rfl⟩ := DialLoop.loop_cases hl
    case inr.inr.inr.inr.inl =>
      obtain ⟨-, rfl⟩ := Shared.step_start_eq_some.mp hu
      rfl
    all_goals rfl
  | .dial (.env a) =>
    obtain ⟨l, hl, rfl⟩ := step_dial_eq_some.mp h
    obtain ⟨-, u, hu, rfl⟩ := DialLoop.step_env_eq_some.mp hl
    exact run_call hu rfl

theorem step_dialLoop {s t : Loadgen} {a : LoadgenAct} (h : s.step cfg interval a = some t) :
    run (DialLoop.step cfg) s.dialLoop a.dial?.toList = some t.dialLoop := by
  match a with
  | .send a => exact congrArg some (step_send_eq_some h).2.2.symm
  | .dial a =>
    obtain ⟨l, hl, rfl⟩ := step_dial_eq_some.mp h
    exact run_cons_eq_some.mpr ⟨l, hl, rfl⟩

/-- **The dial loop in it.** Every run of the whole is a run of `DialLoop`. -/
theorem run_dialLoop {s t : Loadgen} {as : List LoadgenAct}
    (h : run (step cfg interval) s as = some t) :
    run (DialLoop.step cfg) s.dialLoop
      (trace (step cfg interval) (fun _ => LoadgenAct.dial?) s as) = some t.dialLoop :=
  run_trace dialLoop (fun _ _ _ => step_dialLoop) h

/-- **The sender in it.** Every run of the whole is a run of `Sender`. -/
theorem run_sender {s t : Loadgen} {as : List LoadgenAct}
    (h : run (step cfg interval) s as = some t) :
    run (Sender.step interval) s.sender
      (trace (step cfg interval) (fun _ => LoadgenAct.send?) s as) = some t.sender :=
  run_trace sender (fun _ _ _ => step_sender) h

/-! ### Both monitors -/

/-- The monitors of the two reads and of the pace. -/
structure Gauges where
  reads : Reads
  pace : Sender.Pace ℕ

/-- Each monitor sees what its loop sees. -/
def watch (cfg : DialConfig) (interval x : ℕ) (m : Gauges) (s : Loadgen) (a : LoadgenAct) :
    Gauges where
  reads := a.dial?.elim m.reads (watchReads cfg m.reads s.dialLoop)
  pace := a.send?.elim m.pace (Sender.watchPace interval x m.pace s.sender)

/-- Nothing read and nothing sent. -/
def Gauges.start (capacity : ℕ) : Gauges := ⟨⟨∅, 0⟩, Sender.Pace.start (Sender.start capacity)⟩

theorem step_pace {x : ℕ} {p q : Loadgen × Gauges} {a : LoadgenAct}
    (h : withMonitor (step cfg interval) (watch cfg interval x) p a = some q) :
    run (withMonitor (Sender.step interval) (Sender.watchPace interval x))
      (p.1.sender, p.2.pace) a.send?.toList = some (q.1.sender, q.2.pace) := by
  obtain ⟨ht, hm⟩ := withMonitor_eq_some.mp h
  exact run_label_withMonitor (step_sender ht) (congrArg Gauges.pace hm)

/-! ### What the sender counts -/

/-- The dial loop caps what is claimed, and so what the sender counted. With no target it never
dials at all. -/
structure Bounded (cfg : DialConfig) (s : Loadgen) (m : Gauges) : Prop where
  shared : s.dialLoop.shared.Inv cfg.inflight
  capped : 0 ≤ cfg.target → DialLoop.Capped cfg s.dialLoop m.reads
  untouched : cfg.target ≤ 0 → DialLoop.Untouched s.dialLoop
  total : ∀ n, s.pc = .counted n → (n : ℤ) ≤ max cfg.target 0 + m.reads.tears
  counted : (m.pace.counted : ℤ) ≤ m.pace.batches * (max cfg.target 0 + m.reads.tears)

theorem bounded_start (cfg : DialConfig) (capacity : ℕ) :
    Bounded cfg (start capacity) (Gauges.start capacity) where
  shared := Shared.inv_init capacity cfg.inflight
  capped htarget := DialLoop.capped_start htarget capacity
  untouched _ := DialLoop.untouched_start capacity
  total n hn := by simp [start] at hn
  counted := by simp [Gauges.start, Sender.Pace.start]

theorem Bounded.conns_eq_nil {s : Loadgen} {m : Gauges} (h : Bounded cfg s m)
    (htarget : cfg.target ≤ 0) : s.dialLoop.shared.reg.conns = [] := by
  refine List.eq_nil_iff_forall_not_mem.mpr ?_
  intro d hd
  obtain ⟨g, hg, -⟩ := (h.shared.mem_conns_iff d).mp hd
  simp [(h.untouched htarget).shared.1] at hg

/-- What is stored is claimed. -/
theorem Bounded.len_le {s : Loadgen} {m : Gauges} (h : Bounded cfg s m) :
    (s.dialLoop.shared.reg.len : ℤ) ≤ max cfg.target 0 + m.reads.tears := by
  rcases le_total cfg.target 0 with htarget | htarget
  · rw [Registry.len, h.conns_eq_nil htarget, List.length_nil]
    omega
  · have hclaimed := (h.capped htarget).claimed
    rw [Shared.claimed] at hclaimed
    push_cast at hclaimed
    omega

/-- Tears are counted up. -/
theorem tears_le (cfg : DialConfig) (m : Reads) (s : DialLoop) (a : LoopAct) :
    m.tears ≤ (watchReads cfg m s a).tears := by
  match a with
  | .tick | .done => exact Nat.le_refl _
  | .loop =>
    rw [watchReads]
    split
    · exact Nat.le_refl _
    · split_ifs
      · exact Nat.le_succ _
      · exact Nat.le_refl _
    · exact Nat.le_refl _
  | .env a =>
    rw [watchReads.eq_def]
    split <;> first | exact Nat.le_refl _ | contradiction

/-- A call of someone else is neither a count nor a batch. -/
theorem counted_watchPace {x : ℕ} {m : Sender.Pace ℕ} {s : Sender ℕ} {b : SendAct ℕ}
    (hb : b.isCall = true) : (Sender.watchPace interval x m s b).counted = m.counted ∧
      (Sender.watchPace interval x m s b).batches = m.batches := by
  match b with
  | .add c | .remove c => cases hpc : s.pc <;> simp [Sender.watchPace, hpc]
  | .tick | .take | .write _ => cases hb

theorem isCall_of_call? {a : Act} {b : SendAct ℕ} (h : a.call? = some b) : b.isCall = true := by
  match a with
  | .add d | .closeRemove d => exact Option.some.inj h ▸ rfl
  | .start _ | .fail _ | .connect _ | .count _ | .release _ | .finish _ | .closeCount _ => cases h

/-- A dial step is none of the sender's batches. -/
theorem counted_watch_dial {x : ℕ} {m : Gauges} {s : Loadgen} (a : LoopAct) :
    (watch cfg interval x m s (.dial a)).pace.counted = m.pace.counted ∧
      (watch cfg interval x m s (.dial a)).pace.batches = m.pace.batches := by
  match a with
  | .tick | .done | .loop => exact ⟨rfl, rfl⟩
  | .env a =>
    rw [watch, LoadgenAct.send?]
    cases hcall : a.call? with
    | none => exact ⟨rfl, rfl⟩
    | some b => exact counted_watchPace (isCall_of_call? hcall)

/-- The dial loop and the dials keep the bound: they only count tears up. -/
theorem Bounded.dial {x : ℕ} {s : Loadgen} {m : Gauges} {a : LoopAct} {l : DialLoop}
    (h : Bounded cfg s m) (hl : s.dialLoop.step cfg a = some l) :
    Bounded cfg { s with dialLoop := l } (watch cfg interval x m s (.dial a)) := by
  have htears := tears_le cfg m.reads s.dialLoop a
  have hcapped (htarget : 0 ≤ cfg.target) :
      DialLoop.Capped cfg l (watchReads cfg m.reads s.dialLoop a) :=
    DialLoop.Capped.step (s := (s.dialLoop, m.reads))
      (t := (l, watchReads cfg m.reads s.dialLoop a)) (h.capped htarget)
      (withMonitor_eq_some.mpr ⟨hl, rfl⟩)
  refine ⟨(DialLoop.step_shared hl).invariant (fun _ _ _ h => h.step) h.shared, hcapped,
    fun htarget => (h.untouched htarget).step htarget hl, ?_, ?_⟩
  · intro n hn
    have htotal := h.total n hn
    simp only [watch, LoadgenAct.dial?, Option.elim_some]
    omega
  · rw [(counted_watch_dial a).1, (counted_watch_dial a).2]
    refine h.counted.trans (mul_le_mul_of_nonneg_left ?_ (by positivity))
    simp only [watch, LoadgenAct.dial?, Option.elim_some]
    omega

/-- So does the sender: what it counts is what is stored. -/
theorem Bounded.send {x : ℕ} {s t : Loadgen} {m : Gauges} {a : SendAct ℕ} (h : Bounded cfg s m)
    (ht : s.step cfg interval (.send a) = some t) :
    Bounded cfg t (watch cfg interval x m s (.send a)) := by
  obtain ⟨hcall, hu, hl⟩ := step_send_eq_some ht
  have hshared : t.dialLoop.shared.Inv cfg.inflight := hl ▸ h.shared
  have hcapped : 0 ≤ cfg.target → DialLoop.Capped cfg t.dialLoop m.reads := hl ▸ h.capped
  have huntouched : cfg.target ≤ 0 → DialLoop.Untouched t.dialLoop := hl ▸ h.untouched
  match a with
  | .add _ | .remove _ => cases hcall
  | .tick =>
    have hpc : t.pc = .counted s.dialLoop.shared.reg.len :=
      congrArg Sender.pc (Sender.step_tick_eq_some hu).2
    refine ⟨hshared, hcapped, huntouched, ?_, h.counted⟩
    intro n hn
    obtain rfl : s.dialLoop.shared.reg.len = n := by simpa [hpc] using hn
    exact h.len_le
  | .take =>
    obtain ⟨total, batch, cursor, hcount, hbatch, hend⟩ := Sender.step_take_eq_some hu
    have hpc : t.pc = .sending batch := congrArg Sender.pc hend
    refine ⟨hshared, hcapped, huntouched, fun n hn => by simp [hpc] at hn, ?_⟩
    have htotal := h.total total hcount
    have hcounted := h.counted
    simp only [watch, LoadgenAct.send?, LoadgenAct.dial?, Option.elim_some, Option.elim_none,
      Sender.watchPace_take hcount hbatch]
    push_cast
    rw [add_mul, one_mul]
    omega
  | .write ok =>
    obtain ⟨c, rest, -, hend⟩ := Sender.step_write_eq_some hu
    have hpc : t.pc = .sending rest := congrArg Sender.pc hend
    exact ⟨hshared, hcapped, huntouched, fun n hn => by simp [hpc] at hn, h.counted⟩

theorem Bounded.step {x : ℕ} {p q : Loadgen × Gauges} {a : LoadgenAct}
    (h : Bounded cfg p.1 p.2)
    (hq : withMonitor (step cfg interval) (watch cfg interval x) p a = some q) :
    Bounded cfg q.1 q.2 ∧ p.2.reads.tears ≤ q.2.reads.tears := by
  obtain ⟨ht, hm⟩ := withMonitor_eq_some.mp hq
  rw [hm]
  match a with
  | .dial a =>
    obtain ⟨l, hl, hend⟩ := step_dial_eq_some.mp ht
    rw [hend]
    exact ⟨h.dial hl, tears_le cfg p.2.reads p.1.dialLoop a⟩
  | .send a => exact ⟨h.send ht, Nat.le_refl _⟩

/-- A run keeps the bound, and counts tears up. -/
theorem Bounded.run {x : ℕ} {p q : Loadgen × Gauges} {as : List LoadgenAct}
    (h : Bounded cfg p.1 p.2)
    (hq : run (withMonitor (Loadgen.step cfg interval) (watch cfg interval x)) p as = some q) :
    Bounded cfg q.1 q.2 ∧ p.2.reads.tears ≤ q.2.reads.tears := by
  refine run_invariant (P := fun r : Loadgen × Gauges =>
    Bounded cfg r.1 r.2 ∧ p.2.reads.tears ≤ r.2.reads.tears) ?_ ⟨h, Nat.le_refl _⟩ hq
  rintro r a r' ⟨hr, hle⟩ hstep
  obtain ⟨hr', hle'⟩ := hr.step hstep
  exact ⟨hr', hle.trans hle'⟩

/-- **What the flags allow.** In every run, whatever is dialed, closed and written when, the sender
has sent no more than what is due to `-conns` connections at every tick, with one connection more
for each torn check of the dial loop. -/
theorem messages_le {capacity x : ℕ} {s : Loadgen} {m : Gauges} {as : List LoadgenAct}
    (hrun : run (withMonitor (step cfg interval) (watch cfg interval x))
      (start capacity, Gauges.start capacity) as = some (s, m)) :
    (s.messagesSent : ℚ) ≤
      m.pace.batches * (max cfg.target 0 + m.reads.tears : ℤ) * SendLoop.step / interval := by
  have hpace := run_trace (fun p : Loadgen × Gauges => (p.1.sender, p.2.pace))
    (fun _ _ _ => step_pace) hrun
  have honpace : Sender.OnPace interval 0 0 s.sender m.pace :=
    (Sender.onPace_init capacity).run hpace
  obtain ⟨-, hcarry, -, hasked, hserved, hsent⟩ := honpace
  have hcounted := ((bounded_start cfg capacity).run hrun).1.counted
  have hle : s.sender.messagesSent ≤ m.pace.asked := by omega
  have hdue : (m.pace.counted : ℚ) * SendLoop.step / interval ≤
      m.pace.batches * (max cfg.target 0 + m.reads.tears : ℤ) * SendLoop.step / interval := by
    have hcast : (m.pace.counted : ℚ) ≤
        m.pace.batches * (max cfg.target 0 + m.reads.tears : ℤ) := by
      exact_mod_cast hcounted
    gcongr
  calc (s.messagesSent : ℚ)
      ≤ m.pace.asked := by exact_mod_cast hle
    _ ≤ m.pace.counted * SendLoop.step / interval := by linarith
    _ ≤ _ := hdue

/-- Two connections, dialed in one tick. -/
def pair : DialConfig := ⟨["ws://c"], by decide, 2, 200, 2⟩

/-- Both dials of a tick, one after the other. -/
def dialPair : List LoadgenAct :=
  [.tick, .loop, .loop, .loop, .loop, .loop, .loop, .loop, .env (.connect 0), .env (.connect 1),
    .env (.add 1), .env (.add 0), .env (.count 0), .env (.release 0), .env (.finish 0),
    .env (.count 1), .env (.release 1), .env (.finish 1)].map .dial

/-- Two connections at the interval of a tick. The batch of the first tick is taken after one of
them has left. -/
theorem messages_le_pair : ∃ s m, run (withMonitor (step pair 100000000) (watch pair 100000000 0))
    (start 2, Gauges.start 2)
    (dialPair ++ [.send .tick, .dial (.env (.closeRemove 1)), .send .take, .send (.write true)]) =
      some (s, m) ∧
    (s.messagesSent : ℚ) ≤ m.pace.batches * (max pair.target 0 + m.reads.tears : ℤ) *
      SendLoop.step / (100000000 : ℕ) := by
  have hrun : (run (withMonitor (step pair 100000000) (watch pair 100000000 0))
    (start 2, Gauges.start 2)
    (dialPair ++ [.send .tick, .dial (.env (.closeRemove 1)), .send .take,
      .send (.write true)])).isSome = true := by decide +kernel
  obtain ⟨⟨s, m⟩, hs⟩ := Option.isSome_iff_exists.mp hrun
  have hle := messages_le hs
  exact ⟨s, m, hs, hle⟩

/-! ### Whom the sender reaches -/

/-- The registry never grew beyond what may be claimed at the end. -/
theorem Bounded.peak_le {x : ℕ} {p q : Loadgen × Gauges} {as : List LoadgenAct}
    (h : Bounded cfg p.1 p.2)
    (hq : Transition.run (withMonitor (Loadgen.step cfg interval) (watch cfg interval x)) p as =
      some q) :
    (p.1.sender.peak interval (trace (Loadgen.step cfg interval) (fun _ => LoadgenAct.send?)
      p.1 as) : ℤ) ≤ max cfg.target 0 + q.2.reads.tears := by
  induction as generalizing p with
  | nil =>
    obtain rfl := Option.some.inj hq
    exact h.len_le
  | cons a as ih =>
    obtain ⟨u, hu, hrest⟩ := run_cons_eq_some.mp hq
    obtain ⟨hbounded, htears⟩ := h.step hu
    have hnext := ih hbounded hrest
    have hlen := h.len_le
    have hend := (hbounded.run hrest).2
    have hsender := step_sender (withMonitor_eq_some.mp hu).1
    rw [trace, (withMonitor_eq_some.mp hu).1, Option.elim_some]
    cases hsend : a.send? with
    | none =>
      rw [hsend] at hsender
      rw [Option.some.inj hsender]
      exact hnext
    | some b =>
      rw [hsend, Option.toList_some, run_cons_eq_some] at hsender
      obtain ⟨v, hv, hend'⟩ := hsender
      obtain rfl := Option.some.inj hend'
      have hpeak := Sender.peak_cons_le hv
        (trace (Loadgen.step cfg interval) (fun _ => LoadgenAct.send?) u.1 as)
      have hlen' : (p.1.sender.reg.len : ℤ) ≤ max cfg.target 0 + p.2.reads.tears := hlen
      rw [Option.toList_some, List.singleton_append]
      omega

theorem eq_of_send?_eq_remove {a : LoadgenAct} {x : ℕ} (h : a.send? = some (.remove x)) :
    a = .dial (.env (.closeRemove x)) ∨ a = .send (.remove x) := by
  rcases a with (_ | _ | _ | a) | b
  · cases h
  · cases h
  · cases h
  · cases a <;> simp_all [LoadgenAct.send?, Act.call?]
  · exact Or.inr (congrArg _ (Option.some.inj h))

/-- **Whom the flags reach.** A connection that stays open is handed a message within every stretch
of the run in which enough falls due at the ticks that the loop takes: with the lengths that it
counted there, `counted * 100ms / interval`, against one round of at most `-conns` connections for
each setback and one more, and one connection more in each for a torn check. -/
theorem reached_of_due {capacity x : ℕ} {before as : List LoadgenAct} {s t : Loadgen}
    {m₀ m : Gauges} (hint : 0 < interval)
    (hbefore : run (withMonitor (step cfg interval) (watch cfg interval x))
      (start capacity, Gauges.start capacity) before = some (s, m₀))
    (hx : x ∈ s.dialLoop.shared.reg.conns) (has : .dial (.env (.closeRemove x)) ∉ as)
    (hrun : run (withMonitor (step cfg interval) (watch cfg interval x))
      (s, ⟨m₀.reads, Sender.Pace.start s.sender⟩) as = some (t, m))
    (hmargin : ((m.pace.setbacks + 1) * (cfg.target + m.reads.tears - 1) + 1) * interval ≤
      (m.pace.counted * SendLoop.step : ℤ)) : x ∈ m.pace.served := by
  have hs : Bounded cfg s m₀ := ((bounded_start cfg capacity).run hbefore).1
  have htarget : 0 < cfg.target := by
    by_contra hle
    simp [hs.conns_eq_nil (not_lt.mp hle)] at hx
  have hbounded : Bounded cfg s ⟨m₀.reads, Sender.Pace.start s.sender⟩ :=
    ⟨hs.shared, hs.capped, hs.untouched, hs.total, by simp [Sender.Pace.start]⟩
  have hpeak : (s.sender.peak interval (trace (step cfg interval)
      (fun _ => LoadgenAct.send?) s as) : ℤ) ≤ max cfg.target 0 + m.reads.tears :=
    Bounded.peak_le (p := (s, _)) hbounded hrun
  have hreach : run (Sender.step interval) (Sender.start capacity) _ = some s.sender :=
    run_sender (run_of_run_withMonitor hbefore)
  have hpace := run_trace (fun p : Loadgen × Gauges => (p.1.sender, p.2.pace))
    (fun _ _ _ => step_pace) hrun
  rw [trace_withMonitor (fun _ => LoadgenAct.send?)] at hpace
  refine Sender.mem_served_of_due hint hreach hx ?_ hpace ?_
  · intro hmem
    obtain ⟨u, a, ha, v, hv, hsend⟩ := mem_trace (run_of_run_withMonitor hrun) hmem
    obtain rfl | rfl := eq_of_send?_eq_remove hsend
    · exact has ha
    · exact absurd (step_send_eq_some hv).1 (by simp [SendAct.isCall])
  · -- no round is longer than the target and what it was exceeded by
    have hround : ((s.sender.peak interval (trace (step cfg interval)
        (fun _ => LoadgenAct.send?) s as) - 1 : ℕ) : ℤ) ≤ cfg.target + m.reads.tears - 1 := by
      omega
    zify
    refine le_trans ?_ hmargin
    gcongr

/-- Two connections at the interval of a tick, and a message for both at the next tick. -/
theorem reached_of_due_pair : ∃ s m₀ t m,
    run (withMonitor (step pair 100000000) (watch pair 100000000 1)) (start 2, Gauges.start 2)
      dialPair = some (s, m₀) ∧
    run (withMonitor (step pair 100000000) (watch pair 100000000 1))
      (s, ⟨m₀.reads, Sender.Pace.start s.sender⟩)
      [.send .tick, .dial .tick, .send .take, .dial .loop, .send (.write true)] = some (t, m) ∧
    1 ∈ m.pace.served := by
  have hrun : (run (withMonitor (step pair 100000000) (watch pair 100000000 1))
      (start 2, Gauges.start 2) dialPair).any (fun p => 1 ∈ p.1.dialLoop.shared.reg.conns ∧
        (run (withMonitor (step pair 100000000) (watch pair 100000000 1))
          (p.1, ⟨p.2.reads, Sender.Pace.start p.1.sender⟩)
          [.send .tick, .dial .tick, .send .take, .dial .loop, .send (.write true)]).any
          (fun q => q.2.pace.counted = 2 ∧ q.2.pace.setbacks = 0 ∧ q.2.reads.tears = 0) = true) =
        true := by decide +kernel
  obtain ⟨⟨s, m₀⟩, hs, hnext⟩ := (Option.any_eq_true _ _).mp hrun
  obtain ⟨hmem, hnext⟩ := of_decide_eq_true hnext
  obtain ⟨⟨t, m⟩, ht, hm⟩ := (Option.any_eq_true _ _).mp hnext
  obtain ⟨hcounted, hsetbacks, htears⟩ := of_decide_eq_true hm
  refine ⟨s, m₀, t, m, hs, ht, reached_of_due (by decide) hs hmem (by decide) ht ?_⟩
  rw [hcounted, hsetbacks, htears]
  decide

end Loadgen

end Millionws
