import Millionws.Transition
import Millionws.Population
import Millionws.RegistryRefinement

/-!
# Who counts which connection

The part of `cmd/loadgen/main.go` that several goroutines share: the registry, the counters
`active` and `pending` and the slots of `sem`. A dial goroutine and the `OnClose` callback of the
same connection touch all four, in steps that anything may come between, and a close can arrive
before the dialer's `add`, between the `add` and the increment of `active`, or after both.

## The state of a dial

Every dial has two program counters: where its goroutine is, and how far the `OnClose` of its
connection has come. Together they determine what the registry knows about the connection —
`Dial.life` — and that is the whole invariant: the registry stores a connection exactly when its
two program counters say so. Everything about the counters then follows by counting dials.

A connection is named by the number of the dial that opened it, since every successful `Dial`
returns a new one. Acquiring a slot and adding one to `pending` is a single step: no other
goroutine reads `pending`, so nothing can tell when between the two it happens.

## What is deliberately absent

The Prometheus counters, which nothing reads back, and what the dialed URL means.

## Main definitions

* `DialPc`, `CloseState`, `Dial` — one dial and its connection
* `Shared`, `Shared.step` — the shared state, and every atomic step
* `Shared.Inv` — the invariant

## Main results

* `Shared.Inv.step` — one step keeps it
* `accounting` — what the counters say in every reachable state, and when nothing is part-way
-/

namespace Millionws

open Transition

/-! ### One dial -/

/-- Where a dial goroutine is. -/
inductive DialPc where
  /-- In `d.Dial`. -/
  | dialing
  /-- `Dial` returned a connection; next is `reg.add(c)`. -/
  | dialed
  /-- `add` returned true; next is `active.Add(1)`. -/
  | added
  /-- The deferred function is next: `<-sem`. -/
  | leaving
  /-- Then `pending.Add(-1)`. -/
  | released
  | finished
  deriving DecidableEq

/-- How far the connection of a dial is closed. -/
inductive CloseState where
  /-- There is no connection. -/
  | noConn
  /-- `OnClose` has not run. -/
  | opened
  /-- `reg.remove(c)` returned true; next is `active.Add(-1)`. -/
  | removed
  | closed
  deriving DecidableEq

/-- One dial: the URL it was started with, its goroutine and its connection. -/
structure Dial where
  url : String
  pc : DialPc
  close : CloseState
  deriving DecidableEq

namespace Dial

/-- The dial has not reached `reg.add` yet. -/
def early (g : Dial) : Bool := g.pc = .dialing || g.pc = .dialed

/-- `add` returned true and the connection is not counted yet. -/
def uncounted (g : Dial) : Bool := g.pc = .added

/-- `remove` returned true and the connection is not uncounted yet. -/
def stillCounted (g : Dial) : Bool := g.close = .removed

/-- The goroutine has not subtracted itself from `pending`. -/
def unfinished (g : Dial) : Bool := g.pc ≠ .finished

/-- The goroutine holds a slot of `sem`. -/
def holdsSlot (g : Dial) : Bool := g.pc ≠ .released && g.pc ≠ .finished

/-- What the registry knows about the connection of a dial. -/
def life (g : Dial) : Life :=
  match g.pc, g.close with
  | .dialing, _ => .absent
  | .dialed, .closed => .closedEarly
  | .dialed, _ => .absent
  | _, .opened => .stored
  | _, _ => .absent

/-- The goroutine is past counting its connection. -/
def settled (g : Dial) : Bool := g.pc = .leaving || g.pc = .released || g.pc = .finished

/-- The combinations of program counters that occur. -/
def wf (g : Dial) : Bool :=
  match g.pc, g.close with
  | .dialing, close => close = .noConn
  | .dialed, close => close = .opened || close = .closed
  | .added, close => close ≠ .noConn
  | _, _ => true

end Dial

/-! ### The shared state -/

/-- What `dialLoop`, the dial goroutines and the `OnClose` callbacks share. -/
structure Shared where
  reg : ValidRegistry ℕ
  active : ℤ
  pending : ℤ
  sem : ℕ
  dials : List Dial

/-- An atomic step of a goroutine or a callback. -/
inductive Act where
  /-- `dialLoop`: `sem <- struct{}{}`, `pending.Add(1)`, `go func() …`. -/
  | start (url : String)
  /-- `Dial` returns an error. -/
  | fail (d : ℕ)
  /-- `Dial` returns a new connection. -/
  | connect (d : ℕ)
  /-- `reg.add(c)`. -/
  | add (d : ℕ)
  /-- `active.Add(1)`. -/
  | count (d : ℕ)
  /-- `<-sem`. -/
  | release (d : ℕ)
  /-- `pending.Add(-1)`. -/
  | finish (d : ℕ)
  /-- `OnClose`: `reg.remove(c)`. -/
  | closeRemove (d : ℕ)
  /-- `OnClose`: `active.Add(-1)`. -/
  | closeCount (d : ℕ)
  deriving DecidableEq

/-- Only `dialLoop` starts dials. -/
def Act.isStart : Act → Bool
  | .start _ => true
  | _ => false

namespace Shared

/-- Nothing dialed yet. -/
def init (capacity : ℕ) : Shared := ⟨.empty capacity, 0, 0, 0, []⟩

/-- Replace dial `d`. -/
def put (s : Shared) (d : ℕ) (g : Dial) : Shared := { s with dials := s.dials.set d g }

/-- A step of dial `d`, enabled when `ready` holds of it. -/
def onDial (s : Shared) (d : ℕ) (ready : Dial → Bool) (next : Dial → Shared) : Option Shared :=
  match s.dials[d]? with
  | some g => if ready g then some (next g) else none
  | none => none

/-- One atomic step, with `inflight` slots. -/
def step (inflight : ℕ) (s : Shared) : Act → Option Shared
  | .start url =>
    if s.sem < inflight then
      some { s with
        sem := s.sem + 1
        pending := s.pending + 1
        dials := s.dials ++ [⟨url, .dialing, .noConn⟩] }
    else none
  | .fail d => s.onDial d (·.pc = .dialing) fun g => s.put d { g with pc := .leaving }
  | .connect d => s.onDial d (·.pc = .dialing) fun g =>
      s.put d { g with pc := .dialed, close := .opened }
  | .add d => s.onDial d (·.pc = .dialed) fun g =>
      { s.put d { g with pc := if (s.reg.add d).1 then .added else .leaving } with
        reg := (s.reg.add d).2 }
  | .count d => s.onDial d (·.pc = .added) fun g =>
      { s.put d { g with pc := .leaving } with active := s.active + 1 }
  | .release d => s.onDial d (fun g => g.pc = .leaving && 0 < s.sem) fun g =>
      { s.put d { g with pc := .released } with sem := s.sem - 1 }
  | .finish d => s.onDial d (·.pc = .released) fun g =>
      { s.put d { g with pc := .finished } with pending := s.pending - 1 }
  | .closeRemove d => s.onDial d (·.close = .opened) fun g =>
      { s.put d { g with close := if (s.reg.remove d).1 then .removed else .closed } with
        reg := (s.reg.remove d).2 }
  | .closeCount d => s.onDial d (·.close = .removed) fun g =>
      { s.put d { g with close := .closed } with active := s.active - 1 }

/-- How many dials satisfy `p`. -/
def tally (s : Shared) (p : Dial → Bool) : ℕ := s.dials.countP p

theorem onDial_eq_some {s t : Shared} {d : ℕ} {ready : Dial → Bool} {next : Dial → Shared} :
    s.onDial d ready next = some t ↔
      ∃ g, s.dials[d]? = some g ∧ ready g = true ∧ next g = t := by
  rw [onDial]
  cases s.dials[d]? with
  | none => simp
  | some g => simp

/-- **What a step of a dial or of `OnClose` can do.** It replaces one dial, takes its place among
the stored connections at most out of the dials on their way there, and only the increment
itself raises `active`. -/
theorem step_cases {inflight : ℕ} {s t : Shared} {a : Act} (h : step inflight s a = some t)
    (ha : a.isStart = false) :
    ∃ d g g', s.dials[d]? = some g ∧ t.dials = s.dials.set d g' ∧
      (g.settled = true → g'.settled = true) ∧
      t.reg.len + g'.early.toNat ≤ s.reg.len + g.early.toNat ∧
      ((∀ e, a ≠ .count e) ∧ t.active ≤ s.active ∨
        a = .count d ∧ g.settled = false ∧ g'.settled = true ∧ t.active = s.active + 1) := by
  cases a with
  | start url => cases ha
  | fail d =>
    obtain ⟨g, hg, hpc, rfl⟩ := onDial_eq_some.mp h
    refine ⟨d, g, _, hg, rfl, fun _ => rfl, ?_, Or.inl ⟨nofun, Int.le_refl _⟩⟩
    exact Nat.add_le_add_left (Nat.zero_le _) _
  | connect d =>
    obtain ⟨g, hg, hpc, rfl⟩ := onDial_eq_some.mp h
    obtain hpc : g.pc = .dialing := by simpa using hpc
    refine ⟨d, g, _, hg, rfl, ?_, ?_, Or.inl ⟨nofun, Int.le_refl _⟩⟩
    · simp [Dial.settled, hpc]
    · simp [Dial.early, hpc, put]
  | add d =>
    obtain ⟨g, hg, hpc, rfl⟩ := onDial_eq_some.mp h
    obtain hpc : g.pc = .dialed := by simpa using hpc
    have hlen : (s.reg.add d).2.len = s.reg.len + (s.reg.add d).1.toNat := s.reg.inv.len_add d
    refine ⟨d, g, _, hg, rfl, ?_, ?_, Or.inl ⟨nofun, Int.le_refl _⟩⟩
    · simp [Dial.settled, hpc]
    · cases hb : (s.reg.add d).1 <;> simp [hb] at hlen <;> simp [Dial.early, hpc, hlen]
  | count d =>
    obtain ⟨g, hg, hpc, rfl⟩ := onDial_eq_some.mp h
    obtain hpc : g.pc = .added := by simpa using hpc
    refine ⟨d, g, _, hg, rfl, fun _ => rfl, ?_, Or.inr ⟨rfl, by simp [Dial.settled, hpc], rfl, rfl⟩⟩
    exact Nat.add_le_add_left (Nat.zero_le _) _
  | release d =>
    obtain ⟨g, hg, hpc, rfl⟩ := onDial_eq_some.mp h
    refine ⟨d, g, _, hg, rfl, fun _ => rfl, ?_, Or.inl ⟨nofun, Int.le_refl _⟩⟩
    exact Nat.add_le_add_left (Nat.zero_le _) _
  | finish d =>
    obtain ⟨g, hg, hpc, rfl⟩ := onDial_eq_some.mp h
    refine ⟨d, g, _, hg, rfl, fun _ => rfl, ?_, Or.inl ⟨nofun, Int.le_refl _⟩⟩
    exact Nat.add_le_add_left (Nat.zero_le _) _
  | closeRemove d =>
    obtain ⟨g, hg, hpc, rfl⟩ := onDial_eq_some.mp h
    have hlen := s.reg.inv.len_remove (s.reg.remove_eq d)
    refine ⟨d, g, _, hg, rfl, id, ?_, Or.inl ⟨nofun, Int.le_refl _⟩⟩
    exact Nat.add_le_add_right (by simp only; omega) _
  | closeCount d =>
    obtain ⟨g, hg, hpc, rfl⟩ := onDial_eq_some.mp h
    refine ⟨d, g, _, hg, rfl, id, Nat.le_refl _, Or.inl ⟨nofun, ?_⟩⟩
    exact Int.sub_le_self _ Int.one_nonneg

/-- A dial keeps the URL it was started with. -/
theorem map_url_of_step {inflight : ℕ} {s t : Shared} {a : Act} (h : step inflight s a = some t)
    (ha : a.isStart = false) : t.dials.map Dial.url = s.dials.map Dial.url := by
  have hset {d : ℕ} {g g' : Dial} (hg : s.dials[d]? = some g) (hurl : g'.url = g.url) :
      (s.dials.set d g').map Dial.url = s.dials.map Dial.url := by
    obtain ⟨hlt, rfl⟩ := List.getElem?_eq_some_iff.mp hg
    rw [List.map_set, hurl, ← List.map_set, List.set_getElem_self]
  cases a with
  | start url => cases ha
  | fail d | connect d | add d | count d | release d | finish d | closeRemove d | closeCount d =>
    obtain ⟨g, hg, -, rfl⟩ := onDial_eq_some.mp h
    exact hset hg rfl

theorem length_dials_of_step {inflight : ℕ} {s t : Shared} {a : Act}
    (h : step inflight s a = some t) (ha : a.isStart = false) :
    t.dials.length = s.dials.length := by
  obtain ⟨d, g, g', -, hdials, -⟩ := step_cases h ha
  rw [hdials, List.length_set]

theorem step_start_eq_some {inflight : ℕ} {s t : Shared} {url : String} :
    step inflight s (.start url) = some t ↔ s.sem < inflight ∧ t = { s with
      sem := s.sem + 1
      pending := s.pending + 1
      dials := s.dials ++ [⟨url, .dialing, .noConn⟩] } := by
  rw [step]
  split_ifs with h <;> simp [h, eq_comm]

/-! ### The invariant -/

/-- The registry knows about each connection what its dial says, and the counters count. -/
structure Inv (inflight : ℕ) (s : Shared) : Prop where
  life : ∀ d, s.reg.life d = (s.dials[d]?).elim .absent Dial.life
  wf : ∀ g ∈ s.dials, g.wf = true
  active : s.active = s.reg.len - s.tally Dial.uncounted + s.tally Dial.stillCounted
  pending : s.pending = s.tally Dial.unfinished
  sem : s.sem = s.tally Dial.holdsSlot
  sem_le : s.sem ≤ inflight

theorem inv_init (capacity inflight : ℕ) : (init capacity).Inv inflight where
  life d := congrFun (Registry.life_newRegistry capacity) d
  wf g hg := absurd hg (by simp [init])
  active := rfl
  pending := rfl
  sem := rfl
  sem_le := Nat.zero_le _

/-- **One dial changes.** The obligations of a step that replaces dial `d`: the registry moves
the life of `d` along, and each counter moves by what the dial's tallies do. -/
theorem Inv.update {inflight d : ℕ} {s t : Shared} {g g' : Dial} (h : s.Inv inflight)
    (hg : s.dials[d]? = some g) (ht : t.dials = s.dials.set d g') (hwf : g'.wf = true)
    (hlife : t.reg.life = Function.update s.reg.life d g'.life)
    (hactive : t.active + g'.uncounted.toNat + g.stillCounted.toNat - t.reg.len =
      s.active + g.uncounted.toNat + g'.stillCounted.toNat - s.reg.len)
    (hpending : t.pending + g.unfinished.toNat = s.pending + g'.unfinished.toNat)
    (hsem : t.sem + g.holdsSlot.toNat = s.sem + g'.holdsSlot.toNat)
    (hsem_le : t.sem ≤ s.sem) : t.Inv inflight := by
  have hcount := Population.countP_set hg g'
  have hlt := (List.getElem?_eq_some_iff.mp hg).1
  constructor
  · intro e
    rw [hlife, ht]
    by_cases hed : e = d
    · subst hed
      rw [Function.update_self, List.getElem?_set_self hlt, Option.elim_some]
    · rw [Function.update_of_ne hed, List.getElem?_set_ne (Ne.symm hed), h.life]
  · rw [ht]
    exact Population.forall_mem_set h.wf hwf
  · have hu := hcount Dial.uncounted
    have hc := hcount Dial.stillCounted
    have ha := h.active
    simp only [tally, ht] at *
    omega
  · have hu := hcount Dial.unfinished
    have hp := h.pending
    simp only [tally, ht] at *
    omega
  · have hu := hcount Dial.holdsSlot
    have hs := h.sem
    simp only [tally, ht] at *
    omega
  · exact hsem_le.trans h.sem_le

/-- A step that does not touch the registry keeps the life of its dial. -/
theorem Inv.life_eq_update {inflight d : ℕ} {s : Shared} {g g' : Dial} (h : s.Inv inflight)
    (hg : s.dials[d]? = some g) (hlife : g'.life = g.life) :
    s.reg.life = Function.update s.reg.life d g'.life := by
  have hd : s.reg.life d = g.life := by rw [h.life, hg, Option.elim_some]
  rw [hlife, ← hd, Function.update_eq_self]

theorem Inv.start {inflight : ℕ} {s : Shared} (h : s.Inv inflight) (url : String)
    (hsem : s.sem < inflight) :
    Shared.Inv inflight { s with
      sem := s.sem + 1
      pending := s.pending + 1
      dials := s.dials ++ [⟨url, .dialing, .noConn⟩] } := by
  constructor
  · intro d
    rw [h.life]
    rcases Nat.lt_trichotomy d s.dials.length with hd | rfl | hd
    · rw [List.getElem?_append_left hd]
    · simp [Dial.life]
    · rw [List.getElem?_eq_none (by omega), List.getElem?_eq_none (by simp; omega)]
  · intro g hg
    rcases List.mem_append.mp hg with hg | hg
    · exact h.wf g hg
    · rw [List.mem_singleton.mp hg]
      rfl
  · have ha := h.active
    simp_all [tally, Dial.uncounted, Dial.stillCounted]
  · have hp := h.pending
    simp_all [tally, Dial.unfinished]
  · have hs := h.sem
    simp_all [tally, Dial.holdsSlot]
  · exact hsem

theorem Inv.add {inflight d : ℕ} {s : Shared} {g : Dial} (h : s.Inv inflight)
    (hg : s.dials[d]? = some g) (hpc : g.pc = .dialed) :
    Shared.Inv inflight
      { s.put d { g with pc := if (s.reg.add d).1 then .added else .leaving } with
        reg := (s.reg.add d).2 } := by
  obtain ⟨url, pc, close⟩ := g
  obtain rfl : pc = .dialed := hpc
  have hwf := h.wf _ (List.mem_of_getElem? hg)
  have hd : s.reg.life d = Dial.life ⟨url, .dialed, close⟩ := by rw [h.life, hg, Option.elim_some]
  obtain ⟨hb, hlife⟩ := s.reg.inv.life_add d
  have hlen := s.reg.inv.len_add d
  rw [hd] at hb hlife
  have hadd : (s.reg.add d).1 = (Dial.life ⟨url, .dialed, close⟩ |>.step .add).1 := hb
  -- a connection that is still open is stored, one that was closed early is refused
  cases close with
  | opened | closed =>
    rw [hb] at hlen
    rw [hadd]
    refine h.update hg rfl rfl hlife ?_ rfl rfl (Nat.le_refl _)
    simp [Dial.uncounted, Dial.stillCounted, ValidRegistry.add, hlen, Dial.life, Life.step, put]
  | noConn => exact absurd hwf (by simp [Dial.wf])
  | removed => exact absurd hwf (by simp [Dial.wf])

theorem Inv.closeRemove {inflight d : ℕ} {s : Shared} {g : Dial} (h : s.Inv inflight)
    (hg : s.dials[d]? = some g) (hclose : g.close = .opened) :
    Shared.Inv inflight
      { s.put d { g with close := if (s.reg.remove d).1 then .removed else .closed } with
        reg := (s.reg.remove d).2 } := by
  obtain ⟨url, pc, close⟩ := g
  obtain rfl : close = .opened := hclose
  have hwf := h.wf _ (List.mem_of_getElem? hg)
  have hd : s.reg.life d = Dial.life ⟨url, pc, .opened⟩ := by rw [h.life, hg, Option.elim_some]
  obtain ⟨hb, hlife⟩ := s.reg.inv.life_remove (s.reg.remove_eq d)
  have hlen := s.reg.inv.len_remove (s.reg.remove_eq d)
  rw [hd] at hb hlife
  rw [hb] at hlen ⊢
  -- before `add` the close is remembered, afterwards it takes the connection out
  cases pc with
  | dialing => exact absurd hwf (by simp [Dial.wf])
  | dialed | added | leaving | released | finished =>
    refine h.update hg rfl rfl hlife ?_ rfl rfl (Nat.le_refl _)
    simp [Dial.uncounted, Dial.stillCounted, Dial.life, Life.step, put] at hlen ⊢
    omega

/-- **One step keeps the invariant**, whichever goroutine or callback takes it. -/
theorem Inv.step {inflight : ℕ} {s t : Shared} {a : Act} (h : s.Inv inflight)
    (ht : step inflight s a = some t) : t.Inv inflight := by
  have hwf {d : ℕ} {g : Dial} (hg : s.dials[d]? = some g) := h.wf g (List.mem_of_getElem? hg)
  cases a with
  | start url =>
    obtain ⟨hsem, rfl⟩ := step_start_eq_some.mp ht
    exact h.start url hsem
  | fail d | connect d =>
    obtain ⟨⟨url, pc, close⟩, hg, hpc, rfl⟩ := onDial_eq_some.mp ht
    obtain rfl : pc = .dialing := by simpa using hpc
    obtain rfl : close = .noConn := by simpa [Dial.wf] using hwf hg
    exact h.update hg rfl rfl (h.life_eq_update hg rfl) rfl rfl rfl (Nat.le_refl _)
  | add d =>
    obtain ⟨g, hg, hpc, rfl⟩ := onDial_eq_some.mp ht
    exact h.add hg (by simpa using hpc)
  | count d =>
    obtain ⟨⟨url, pc, close⟩, hg, hpc, rfl⟩ := onDial_eq_some.mp ht
    obtain rfl : pc = .added := by simpa using hpc
    refine h.update hg rfl ?_ (h.life_eq_update hg ?_) ?_ rfl rfl (Nat.le_refl _)
    · cases close <;> rfl
    · cases close <;> rfl
    · simp [Dial.uncounted, Dial.stillCounted, put]
  | release d =>
    obtain ⟨⟨url, pc, close⟩, hg, hpc, rfl⟩ := onDial_eq_some.mp ht
    obtain ⟨rfl, hsem⟩ : pc = .leaving ∧ 0 < s.sem := by simpa using hpc
    refine h.update hg rfl ?_ (h.life_eq_update hg ?_) ?_ rfl ?_ (Nat.sub_le _ _)
    · cases close <;> rfl
    · cases close <;> rfl
    · simp [Dial.uncounted, Dial.stillCounted, put]
    · simp [Dial.holdsSlot]
      omega
  | finish d =>
    obtain ⟨⟨url, pc, close⟩, hg, hpc, rfl⟩ := onDial_eq_some.mp ht
    obtain rfl : pc = .released := by simpa using hpc
    refine h.update hg rfl ?_ (h.life_eq_update hg ?_) ?_ ?_ rfl (Nat.le_refl _)
    · cases close <;> rfl
    · cases close <;> rfl
    · simp [Dial.uncounted, Dial.stillCounted, put]
    · simp [Dial.unfinished]
  | closeRemove d =>
    obtain ⟨g, hg, hclose, rfl⟩ := onDial_eq_some.mp ht
    exact h.closeRemove hg (by simpa using hclose)
  | closeCount d =>
    obtain ⟨⟨url, pc, close⟩, hg, hclose, rfl⟩ := onDial_eq_some.mp ht
    obtain rfl : close = .removed := by simpa using hclose
    have hpc := hwf hg
    refine h.update hg rfl ?_ (h.life_eq_update hg ?_) ?_ rfl rfl (Nat.le_refl _)
    · cases pc <;> simp_all [Dial.wf]
    · cases pc <;> simp_all [Dial.wf, Dial.life]
    · simp [Dial.uncounted, Dial.stillCounted, put]
      omega

theorem Inv.of_reachable {inflight capacity : ℕ} {s : Shared}
    (h : Reachable (Shared.step inflight) (init capacity) s) : s.Inv inflight :=
  Reachable.invariant (fun _ _ _ hs => hs.step) (inv_init capacity inflight) h

/-! ### What follows -/

theorem Inv.mem_conns_iff {inflight : ℕ} {s : Shared} (h : s.Inv inflight) (d : ℕ) :
    d ∈ s.reg.conns ↔ ∃ g, s.dials[d]? = some g ∧ g.life = .stored := by
  rw [← Registry.life_eq_stored_iff, h.life]
  cases s.dials[d]? <;> simp

theorem Inv.mem_closed_iff {inflight : ℕ} {s : Shared} (h : s.Inv inflight) (d : ℕ) :
    d ∈ s.reg.closed ↔ ∃ g, s.dials[d]? = some g ∧ g.life = .closedEarly := by
  rw [← s.reg.inv.life_eq_closedEarly_iff, h.life]
  cases s.dials[d]? <;> simp

/-- The receive `<-sem` of a leaving dial never waits. -/
theorem Inv.sem_pos {inflight d : ℕ} {s : Shared} {g : Dial} (h : s.Inv inflight)
    (hg : s.dials[d]? = some g) (hpc : g.pc = .leaving) : 0 < s.sem := by
  rw [h.sem, tally, List.countP_pos_iff]
  exact ⟨g, List.mem_of_getElem? hg, by rw [Dial.holdsSlot, hpc]; rfl⟩

/-- A dial that is not settled is before `add` or between `add` and the increment. -/
theorem tally_early_add_uncounted (s : Shared) :
    s.tally Dial.early + s.tally Dial.uncounted = s.tally fun g => !g.settled := by
  rw [tally, tally, tally]
  induction s.dials with
  | nil => rfl
  | cons g l ih =>
    have hg : (if g.early then 1 else 0) + (if g.uncounted then 1 else 0) =
        if !g.settled then 1 else 0 := by
      obtain ⟨url, pc, close⟩ := g
      cases pc <;> rfl
    simp only [List.countP_cons]
    omega

theorem tally_not_settled_le (s : Shared) :
    (s.tally fun g => !g.settled) ≤ s.tally Dial.unfinished := by
  apply List.countP_mono_left
  intro g _ hg
  obtain ⟨url, pc, close⟩ := g
  cases pc <;> simp_all [Dial.settled, Dial.unfinished]

/-- No dial goroutine and no `OnClose` is part-way. -/
def Quiet (s : Shared) : Prop := ∀ g ∈ s.dials, g.pc = .finished ∧ g.close ≠ .removed

theorem Quiet.tally_eq_zero {s : Shared} (h : s.Quiet) {p : Dial → Bool}
    (hp : ∀ url close, close ≠ .removed → p ⟨url, .finished, close⟩ = false) :
    s.tally p = 0 := by
  rw [tally, List.countP_eq_zero]
  rintro ⟨url, pc, close⟩ hg
  obtain ⟨rfl, hclose⟩ := h _ hg
  rw [hp url close hclose]
  exact Bool.false_ne_true

end Shared

open Shared

/-- **The accounting.** In every state that any interleaving of dials and closes reaches,
`active` is the number of stored connections but for those whose counting is part-way, and
`active + pending` covers the stored connections and the dials still on their way to `add`. When
nothing is part-way the counters are exact and nothing is left behind. -/
theorem accounting (inflight capacity : ℕ) {s : Shared}
    (h : Reachable (Shared.step inflight) (init capacity) s) :
    (s.active = s.reg.len - s.tally Dial.uncounted + s.tally Dial.stillCounted ∧
      s.reg.len + s.tally Dial.early ≤ s.active + s.pending) ∧
    (s.Quiet →
      s.pending = 0 ∧ s.sem = 0 ∧ s.reg.closed = ∅ ∧
      (∀ d, d ∈ s.reg.conns ↔ ∃ g, s.dials[d]? = some g ∧ g.close = .opened) ∧
      s.active = s.reg.len) := by
  have hinv := Inv.of_reachable h
  refine ⟨⟨hinv.active, ?_⟩, fun hquiet => ⟨?_, ?_, ?_, ?_, ?_⟩⟩
  · have hactive := hinv.active
    have hpending := hinv.pending
    have hsplit := s.tally_early_add_uncounted
    have hle := s.tally_not_settled_le
    omega
  · rw [hinv.pending, hquiet.tally_eq_zero fun _ _ _ => rfl, Nat.cast_zero]
  · rw [hinv.sem, hquiet.tally_eq_zero fun _ _ _ => rfl]
  · apply Finset.eq_empty_of_forall_notMem
    intro d hd
    obtain ⟨⟨url, pc, close⟩, hg, hlife⟩ := (hinv.mem_closed_iff d).mp hd
    obtain ⟨rfl, -⟩ := hquiet _ (List.mem_of_getElem? hg)
    cases close <;> cases hlife
  · intro d
    rw [hinv.mem_conns_iff]
    refine exists_congr fun g => and_congr_right fun hg => ?_
    obtain ⟨url, pc, close⟩ := g
    obtain ⟨rfl, -⟩ := hquiet _ (List.mem_of_getElem? hg)
    cases close <;> simp [Dial.life]
  · rw [hinv.active, hquiet.tally_eq_zero fun _ _ _ => rfl,
      hquiet.tally_eq_zero fun _ close hclose => by cases close <;> simp_all [Dial.stillCounted]]
    simp

/-- Two dials; the server closes the first before its `add`. -/
theorem accounting_early_close : ∃ s, run (Shared.step 2) (init 2)
    [.start "ws://a", .start "ws://b", .connect 0, .connect 1, .closeRemove 0, .add 1, .add 0,
      .release 0, .count 1, .finish 0, .release 1, .finish 1] = some s ∧
    s.reg.conns = [1] ∧ s.pending = 0 ∧ s.sem = 0 ∧ s.reg.closed = ∅ ∧ s.active = s.reg.len := by
  have hrun : (run (Shared.step 2) (init 2)
      [.start "ws://a", .start "ws://b", .connect 0, .connect 1, .closeRemove 0, .add 1, .add 0,
        .release 0, .count 1, .finish 0, .release 1, .finish 1]).any (fun s =>
      s.reg.conns = [1] && s.dials.all fun g => g.pc = .finished && g.close ≠ .removed) = true := by
    decide
  obtain ⟨s, hs, hend⟩ := (Option.any_eq_true _ _).mp hrun
  simp only [Bool.and_eq_true, decide_eq_true_eq, List.all_eq_true] at hend
  obtain ⟨hpending, hsem, hclosed, -, hactive⟩ := (accounting 2 2 ⟨_, hs⟩).2 hend.2
  exact ⟨s, hs, hend.1, hpending, hsem, hclosed, hactive⟩

end Millionws
