import Mathlib.Algebra.BigOperators.Fin
import Mathlib.Data.Finset.Card
import Mathlib.Order.SymmDiff
import Millionws.Admission
import Millionws.DialMetrics

/-!
# One server and its load generators

A benchmark is one server and any number of load generator processes, and its dashboard shows
`millionws_connections_active` next to the sum of `loadgen_connections_active`. Here both sides
run together: the server of `Admission`, and for each process the dials of `DialAccounting` with
the counters of `DialMetrics`.

## What connects them

A dial sends at most one request to `/ws`, and its request may reach the handler at any time after
the dial was started, even after the dial was given up. `Dial` returns a connection only if the
server called `Upgrade` for that request: everything else that comes back, a 503 among it, is an
error. A connection has two ends, and either may close first; the other end notices later, or not
at all while the network is gone. So the two ends may disagree for a while, and nothing is said
about how long.

## The counts

`connections_active` is counted at one end and `loadgen_connections_active` at the other, each with
its own callbacks, and neither side sees the other's. What they count is the same set of
connections up to three things, each of which passes: an end inside its callback, a dial between
`Dial` and its increment, and a connection that is open at one end only. `counts_agree` bounds the
difference by these three, and `fleet_outcomes` compares the totals.

## What is deliberately absent

Clients of `/ws` other than load generators, which the network ACL keeps out, and which connections
an end closes.

## Main definitions

* `Fleet`, `Fleet.step` — the server, the processes and the requests between them
* `Fleet.named` — the dials whose requests are in a given phase

## Main results

* `Fleet.Inv.step` — one step of anyone keeps the invariant
* `counts_agree` — the two gauges
* `fleet_outcomes` — the totals
-/

namespace Millionws

open Transition

namespace Phase

/-- `Upgrade` was called. -/
def letIn (p : Phase) : Bool := Effect.upgrade ∈ p.log

/-- The flag was set. -/
def turnedAway (p : Phase) : Bool := Effect.load true ∈ p.log

/-- The request incremented the counter. -/
def did (c : Counter) (p : Phase) : Bool := Effect.inc c ∈ p.log

/-- In `OnOpen`, before the increment. -/
def isOpening (p : Phase) : Bool := p = .opening

theorem letIn_next {overloaded ok : Bool} {p p' : Phase} {effects : List Effect}
    (h : p.next overloaded ok = some (p', effects)) (hp : p.letIn = true) : p'.letIn = true := by
  have hmem : Effect.upgrade ∈ p.log := of_decide_eq_true hp
  rw [letIn, log_next h]
  exact decide_eq_true (List.mem_append_left _ hmem)

theorem turnedAway_eq_false {p : Phase} (hp : p.letIn = true) : p.turnedAway = false := by
  cases p <;> first | rfl | cases hp

end Phase

/-- `Dial` returned the connection and it is not counted yet, or it is being counted out. -/
def Dial.partWay (g : Dial) : Bool := g.pc = .dialed || g.pc = .added || g.close = .removed

/-- What one dial contributes to `active`, next to whether its connection is open. -/
theorem Dial.stored_near {g : Dial} (h : g.wf = true) :
    g.stored.toNat + g.stillCounted.toNat ≤
      g.isOpen.toNat + g.uncounted.toNat + g.partWay.toNat ∧
    g.isOpen.toNat + g.uncounted.toNat ≤
      g.stored.toNat + g.stillCounted.toNat + g.partWay.toNat := by
  obtain ⟨url, pc, close⟩ := g
  cases pc <;> cases close <;>
    first
    | exact ⟨Nat.le_of_ble_eq_true rfl, Nat.le_of_ble_eq_true rfl⟩
    | cases h

/-- A dial of a fleet: its process and its number. -/
abbrev FleetDial (n : ℕ) := (_ : Fin n) × ℕ

/-- The server, `n` load generators with what they export, and for each request to the server the
dial that made it. -/
structure Fleet (n : ℕ) where
  server : Server
  gens : Fin n → Shared × Metrics
  origin : List (FleetDial n)

/-- A step of anyone. -/
inductive FleetAct (n : ℕ) where
  /-- `guardMemory` wakes up. -/
  | guard (parsed : Option ℤ)
  /-- The request of dial `d` of process `i` reaches the handler. -/
  | arrive (i : Fin n) (d : ℕ)
  /-- The next step of the server with request `r`. -/
  | handle (r : ℕ) (ok : Bool)
  /-- A step of process `i`. -/
  | gen (i : Fin n) (a : Act)

namespace Fleet

variable {n : ℕ} {cgroupMax : ℤ} {inflight : Fin n → ℕ}

/-- Nothing dialed, nothing arrived. -/
def init (capacity : Fin n → ℕ) : Fleet n :=
  ⟨.init, fun i => (.init (capacity i), .zero), []⟩

/-- The dials whose requests are in such a phase. -/
def named (p : Phase → Bool) (s : Fleet n) : List (FleetDial n) :=
  ((s.origin.zip s.server.requests).filter fun x => p x.2.phase).map Prod.fst

/-- The dials of process `i`. -/
def dials (s : Fleet n) (i : Fin n) : List Dial := (s.gens i).1.dials

/-- `Dial` returns a connection only if the server called `Upgrade`. -/
def allows (s : Fleet n) (i : Fin n) : Act → Bool
  | .connect d => ⟨i, d⟩ ∈ s.named Phase.letIn
  | _ => true

/-- One step of anyone. -/
def step (cgroupMax : ℤ) (inflight : Fin n → ℕ) (s : Fleet n) : FleetAct n → Option (Fleet n)
  | .guard parsed =>
    (s.server.step cgroupMax (.tick parsed)).map fun server => { s with server := server }
  | .arrive i d =>
    if d < (s.dials i).length ∧ ⟨i, d⟩ ∉ s.origin then
      (s.server.step cgroupMax .arrive).map fun server =>
        { s with server := server, origin := s.origin ++ [⟨i, d⟩] }
    else none
  | .handle r ok =>
    (s.server.step cgroupMax (.request r ok)).map fun server => { s with server := server }
  | .gen i a =>
    if s.allows i a then
      (withMonitor (Shared.step (inflight i)) Metrics.watch (s.gens i) a).map fun g =>
        { s with gens := Function.update s.gens i g }
    else none

/-! ### Requests and their dials -/

/-- A request is where its dial is. -/
theorem mem_named_iff {p : Phase → Bool} {s : Fleet n} {x : FleetDial n} :
    x ∈ s.named p ↔
      ∃ (r : ℕ) (q : Request), s.origin[r]? = some x ∧ s.server.requests[r]? = some q ∧
        p q.phase = true := by
  rw [named, List.mem_map]
  constructor
  · rintro ⟨⟨y, q⟩, hmem, rfl⟩
    obtain ⟨hzip, hp⟩ := List.mem_filter.mp hmem
    obtain ⟨r, hr⟩ := List.mem_iff_getElem?.mp hzip
    obtain ⟨hy, hq⟩ := List.getElem?_zip_eq_some.mp hr
    exact ⟨r, q, hy, hq, hp⟩
  · rintro ⟨r, q, hx, hq, hp⟩
    refine ⟨(x, q), List.mem_filter.mpr ⟨?_, hp⟩, rfl⟩
    exact List.mem_iff_getElem?.mpr ⟨r, List.getElem?_zip_eq_some.mpr ⟨hx, hq⟩⟩

/-! ### The invariant -/

/-- Both sides keep their own invariants, every request has a dial of its own, and every connection
was let in. -/
structure Inv (inflight : Fin n → ℕ) (s : Fleet n) : Prop where
  server : s.server.Inv
  gens : ∀ i, (s.gens i).1.Inv (inflight i) ∧ Shared.Counted (s.gens i).1 (s.gens i).2
  length : s.origin.length = s.server.requests.length
  nodup : s.origin.Nodup
  dialed : ∀ x ∈ s.origin, x.2 < (s.dials x.1).length
  letIn : ∀ (i : Fin n) (d : ℕ) (g : Dial), (s.dials i)[d]? = some g → g.connected = true →
    ⟨i, d⟩ ∈ s.named Phase.letIn

theorem inv_init (capacity : Fin n → ℕ) : (init capacity).Inv inflight where
  server := Server.inv_init
  gens i := ⟨Shared.inv_init _ _, Shared.counted_init _⟩
  length := rfl
  nodup := List.nodup_nil
  dialed x hx := by cases hx
  letIn i d g hg := by simp [init, dials, Shared.init] at hg

end Fleet

namespace Shared

/-- **Only `connect` connects.** -/
theorem connected_of_step {inflight : ℕ} {s t : Shared} {a : Act} {e : ℕ} {g' : Dial}
    (h : step inflight s a = some t) (hg' : t.dials[e]? = some g') (hconn : g'.connected = true) :
    a = .connect e ∨ ∃ g, s.dials[e]? = some g ∧ g.connected = true := by
  have hset {d : ℕ} {g g₁ : Dial} (hg : s.dials[d]? = some g) (hdials : t.dials = s.dials.set d g₁)
      (hkeep : g₁.connected = true → g.connected = true ∨ a = .connect d) :
      a = .connect e ∨ ∃ g, s.dials[e]? = some g ∧ g.connected = true := by
    rw [hdials, List.getElem?_set] at hg'
    split_ifs at hg' with hd
    · subst hd
      obtain rfl := Option.some.inj hg'
      rcases hkeep hconn with hold | hnow
      · exact .inr ⟨g, hg, hold⟩
      · exact .inl hnow
    · exact .inr ⟨g', hg', hconn⟩
  cases a with
  | start url =>
    obtain ⟨-, rfl⟩ := step_start_eq_some.mp h
    simp only [List.getElem?_append] at hg'
    split_ifs at hg' with hlt
    · exact .inr ⟨g', hg', hconn⟩
    · obtain rfl := List.mem_singleton.mp (List.mem_of_getElem? hg')
      cases hconn
  | connect d =>
    obtain ⟨g, hg, -, rfl⟩ := onDial_eq_some.mp h
    exact hset hg rfl fun _ => .inr rfl
  | fail d | add d | count d | release d | finish d =>
    obtain ⟨g, hg, -, rfl⟩ := onDial_eq_some.mp h
    exact hset hg rfl .inl
  | closeRemove d | closeCount d =>
    obtain ⟨g, hg, hclose, rfl⟩ := onDial_eq_some.mp h
    refine hset hg rfl fun _ => .inl ?_
    rw [Dial.connected, of_decide_eq_true hclose]
    rfl

/-- A dial that was started stays. -/
theorem length_dials_le {inflight : ℕ} {s t : Shared} {a : Act}
    (h : step inflight s a = some t) : s.dials.length ≤ t.dials.length := by
  cases ha : a.isStart with
  | true =>
    cases a with
    | start url =>
      obtain ⟨-, rfl⟩ := step_start_eq_some.mp h
      simp
    | _ => cases ha
  | false => exact (length_dials_of_step h ha).ge

/-- **What is counted** is what is open, but for the dials that are part-way. -/
theorem Inv.active_near {inflight : ℕ} {s : Shared} (h : s.Inv inflight) :
    |s.active - s.tally Dial.isOpen| ≤ s.tally Dial.partWay := by
  have hle : s.tally Dial.stored + s.tally Dial.stillCounted ≤
      s.tally Dial.isOpen + s.tally Dial.uncounted + s.tally Dial.partWay := by
    simp only [tally, ← Population.sum_map_toNat, ← List.sum_map_add]
    exact List.sum_le_sum fun g hg => (Dial.stored_near (h.wf g hg)).1
  have hge : s.tally Dial.isOpen + s.tally Dial.uncounted ≤
      s.tally Dial.stored + s.tally Dial.stillCounted + s.tally Dial.partWay := by
    simp only [tally, ← Population.sum_map_toNat, ← List.sum_map_add]
    exact List.sum_le_sum fun g hg => (Dial.stored_near (h.wf g hg)).2
  have hactive := h.active
  have hlen := h.len_eq_tally
  rw [abs_le]
  constructor <;> omega

end Shared

namespace Server

/-- **What the server counts** is what is open, but for the connections whose `OnOpen` has only
begun. -/
theorem Inv.active_add_opening {s : Server} (h : s.Inv) :
    s.activeConnections + s.requests.countP (fun q => q.phase.isOpening) =
      s.requests.countP fun q => q.phase.isOpen := by
  rw [h.active]
  simp only [← Population.sum_map_toNat]
  rw [Nat.cast_list_sum, Nat.cast_list_sum, List.map_map, List.map_map, ← List.sum_map_add]
  refine congrArg List.sum (List.map_congr_left fun q hq => ?_)
  rw [h.log q hq]
  simp only [Function.comp]
  cases q.phase <;> decide

/-- A request that was let in stays one. -/
theorem letIn_of_step {cgroupMax : ℤ} {s t : Server} {a : ServerAct}
    (h : s.step cgroupMax a = some t) {r : ℕ} {q : Request} (hq : s.requests[r]? = some q)
    (hlet : q.phase.letIn = true) : ∃ q', t.requests[r]? = some q' ∧ q'.phase.letIn = true := by
  cases a with
  | tick parsed =>
    obtain rfl := Option.some.inj h
    exact ⟨q, hq, hlet⟩
  | arrive =>
    obtain rfl := Option.some.inj h
    exact ⟨q, List.getElem?_append_left (List.getElem?_eq_some_iff.mp hq).1 ▸ hq, hlet⟩
  | request r' ok =>
    obtain ⟨q', phase, effects, hq', hnext, rfl⟩ := step_request_eq_some.mp h
    simp only [List.getElem?_set]
    split_ifs with hr hlt
    · subst hr
      obtain rfl : q = q' := Option.some.inj (hq.symm.trans hq')
      exact ⟨_, rfl, Phase.letIn_next hnext hlet⟩
    · subst hr
      exact absurd (List.getElem?_eq_some_iff.mp hq).1 hlt
    · exact ⟨q, hq, hlet⟩

/-- Only `arrive` adds a request. -/
theorem length_requests_of_step {cgroupMax : ℤ} {s t : Server} {a : ServerAct}
    (h : s.step cgroupMax a = some t) :
    t.requests.length = s.requests.length + (match a with | .arrive => 1 | _ => 0) := by
  cases a with
  | tick parsed =>
    obtain rfl := Option.some.inj h
    rfl
  | arrive =>
    obtain rfl := Option.some.inj h
    exact List.length_append
  | request r ok =>
    obtain ⟨q, phase, effects, -, -, rfl⟩ := step_request_eq_some.mp h
    exact List.length_set

/-- A counter counts the requests that incremented it. -/
theorem Inv.counter_eq {s : Server} (h : s.Inv) (c : Counter) :
    s.counters c = s.requests.countP fun q => q.phase.did c := by
  rw [h.counters, ← Population.sum_map_toNat]
  refine congrArg List.sum (List.map_congr_left fun q hq => ?_)
  rw [h.log q hq]
  cases q.phase <;> cases c <;> rfl

end Server

namespace Fleet

variable {n : ℕ} {cgroupMax : ℤ} {inflight : Fin n → ℕ}

/-- The server takes a step, and perhaps a dial's request arrives by it. -/
theorem Inv.server_step {s t : Fleet n} {a : ServerAct} (h : s.Inv inflight)
    (ht : s.server.step cgroupMax a = some t.server) (hgens : t.gens = s.gens)
    (horigin : s.origin <+: t.origin) (hlength : t.origin.length = t.server.requests.length)
    (hnodup : t.origin.Nodup) (hdialed : ∀ x ∈ t.origin, x.2 < (s.dials x.1).length) :
    t.Inv inflight := by
  have hdials (i : Fin n) : t.dials i = s.dials i := by rw [dials, hgens, dials]
  refine ⟨h.server.step ht, hgens ▸ h.gens, hlength, hnodup, ?_, ?_⟩
  · intro x hx
    rw [hdials]
    exact hdialed x hx
  · intro i d g hg hconn
    rw [hdials] at hg
    obtain ⟨r, q, hx, hq, hlet⟩ := mem_named_iff.mp (h.letIn i d g hg hconn)
    obtain ⟨q', hq', hlet'⟩ := Server.letIn_of_step ht hq hlet
    obtain ⟨rest, hrest⟩ := horigin
    refine mem_named_iff.mpr ⟨r, q', ?_, hq', hlet'⟩
    rw [← hrest, List.getElem?_append_left (List.getElem?_eq_some_iff.mp hx).1, hx]

/-- **One step of anyone** keeps the invariant. -/
theorem Inv.step {s t : Fleet n} {a : FleetAct n} (h : s.Inv inflight)
    (ht : s.step cgroupMax inflight a = some t) : t.Inv inflight := by
  cases a with
  | guard parsed =>
    rw [Fleet.step] at ht
    obtain ⟨server, hserver, rfl⟩ := Option.map_eq_some_iff.mp ht
    refine h.server_step hserver rfl (List.prefix_refl _) ?_ h.nodup h.dialed
    exact h.length.trans (Server.length_requests_of_step hserver).symm
  | handle r ok =>
    rw [Fleet.step] at ht
    obtain ⟨server, hserver, rfl⟩ := Option.map_eq_some_iff.mp ht
    refine h.server_step hserver rfl (List.prefix_refl _) ?_ h.nodup h.dialed
    exact h.length.trans (Server.length_requests_of_step hserver).symm
  | arrive i d =>
    rw [Fleet.step] at ht
    split_ifs at ht with hnew
    obtain ⟨server, hserver, rfl⟩ := Option.map_eq_some_iff.mp ht
    refine h.server_step hserver rfl (List.prefix_append _ _) ?_ ?_ ?_
    · rw [List.length_append, h.length, Server.length_requests_of_step hserver]
      rfl
    · exact List.nodup_append'.mpr ⟨h.nodup, List.nodup_singleton _, by simpa using hnew.2⟩
    · intro x hx
      rcases List.mem_append.mp hx with hx | hx
      · exact h.dialed x hx
      · rw [List.mem_singleton.mp hx]
        exact hnew.1
  | gen i a =>
    rw [Fleet.step] at ht
    split_ifs at ht with hallow
    obtain ⟨g, hgen, rfl⟩ := Option.map_eq_some_iff.mp ht
    obtain ⟨hshared, hmetrics⟩ := withMonitor_eq_some.mp hgen
    obtain ⟨hinv, hcounted⟩ := h.gens i
    refine ⟨h.server, ?_, h.length, h.nodup, ?_, ?_⟩
    · intro j
      rcases eq_or_ne j i with rfl | hj
      · simp only [Function.update_self]
        exact ⟨hinv.step hshared, hmetrics ▸ hcounted.step hinv hshared⟩
      · simp only [Function.update_of_ne hj]
        exact h.gens j
    · intro x hx
      refine (h.dialed x hx).trans_le ?_
      rcases eq_or_ne x.1 i with hi | hi
      · simp only [dials, hi, Function.update_self]
        exact Shared.length_dials_le hshared
      · simp only [dials, Function.update_of_ne hi, le_refl]
    · intro j d g' hg' hconn
      rcases eq_or_ne j i with rfl | hj
      · simp only [dials, Function.update_self] at hg'
        rcases Shared.connected_of_step hshared hg' hconn with rfl | ⟨g₀, hg₀, hconn₀⟩
        · exact of_decide_eq_true hallow
        · exact h.letIn j d g₀ hg₀ hconn₀
      · simp only [dials, Function.update_of_ne hj] at hg'
        exact h.letIn j d g' hg' hconn

/-! ### Counting dials -/

/-- The dials of a fleet with a property. -/
def dialsWith (p : Dial → Bool) (s : Fleet n) : Finset (FleetDial n) :=
  Finset.univ.sigma fun i =>
    ((List.range (s.dials i).length).filter fun d => ((s.dials i)[d]?).any p).toFinset

theorem mem_dialsWith_iff {p : Dial → Bool} {s : Fleet n} {i : Fin n} {d : ℕ} :
    ⟨i, d⟩ ∈ s.dialsWith p ↔ ∃ g, (s.dials i)[d]? = some g ∧ p g = true := by
  simp only [dialsWith, Finset.mem_sigma, Finset.mem_univ, true_and, List.mem_toFinset,
    List.mem_filter, List.mem_range, Option.any_eq_true]
  constructor
  · exact fun h => h.2
  · rintro ⟨g, hg, hp⟩
    exact ⟨(List.getElem?_eq_some_iff.mp hg).1, g, hg, hp⟩

theorem card_dialsWith (p : Dial → Bool) (s : Fleet n) :
    (s.dialsWith p).card = ∑ i, (s.gens i).1.tally p := by
  rw [dialsWith, Finset.card_sigma]
  refine Finset.sum_congr rfl fun i _ => ?_
  rw [List.toFinset_card_of_nodup (List.nodup_range.filter _), ← List.countP_eq_length_filter]
  exact Population.countP_range_getElem? (s.dials i) p

theorem length_named {s : Fleet n} (h : s.Inv inflight) (p : Phase → Bool) :
    (s.named p).length = s.server.requests.countP fun q => p q.phase := by
  have hsnd : (s.origin.zip s.server.requests).map Prod.snd = s.server.requests :=
    List.map_snd_zip h.length.ge
  rw [named, List.length_map, ← List.countP_eq_length_filter]
  conv_rhs => rw [← hsnd, List.countP_map]
  rfl

theorem nodup_named {s : Fleet n} (h : s.Inv inflight) (p : Phase → Bool) :
    (s.named p).Nodup := by
  refine List.Nodup.sublist ?_ h.nodup
  have hfst : (s.origin.zip s.server.requests).map Prod.fst = s.origin :=
    List.map_fst_zip h.length.le
  conv_rhs => rw [← hfst]
  exact List.filter_sublist.map _

/-- The connections that are open at one end only. -/
def oneEnd (s : Fleet n) : Finset (FleetDial n) :=
  symmDiff (s.named Phase.isOpen).toFinset (s.dialsWith Dial.isOpen)

theorem inv_of_run {capacity : Fin n → ℕ} {acts : List (FleetAct n)} {s : Fleet n}
    (h : run (Fleet.step cgroupMax inflight) (init capacity) acts = some s) : s.Inv inflight :=
  run_invariant (fun _ _ _ hs ht => hs.step ht) (inv_init capacity) h

/-- A dial whose request was turned away is not connected. -/
theorem Inv.disjoint_turnedAway {s : Fleet n} (h : s.Inv inflight) :
    Disjoint (s.named Phase.turnedAway).toFinset (s.dialsWith Dial.connected) := by
  rw [Finset.disjoint_left]
  rintro ⟨i, d⟩ hturned hconn
  obtain ⟨g, hg, hp⟩ := mem_dialsWith_iff.mp hconn
  obtain ⟨r, q, hr, hq, hlet⟩ := mem_named_iff.mp (h.letIn i d g hg hp)
  obtain ⟨r', q', hr', hq', hturned⟩ := mem_named_iff.mp (List.mem_toFinset.mp hturned)
  -- a dial has one request
  obtain rfl : r = r' := (List.getElem?_inj (List.getElem?_eq_some_iff.mp hr).1 h.nodup).mp
    (hr.trans hr'.symm)
  obtain rfl : q = q' := Option.some.inj (hq.symm.trans hq')
  rw [Phase.turnedAway_eq_false hlet] at hturned
  cases hturned

/-- A connection has a request that was let in. -/
theorem Inv.connected_subset {s : Fleet n} (h : s.Inv inflight) :
    s.dialsWith Dial.connected ⊆ (s.named Phase.letIn).toFinset := by
  rintro ⟨i, d⟩ hconn
  obtain ⟨g, hg, hp⟩ := mem_dialsWith_iff.mp hconn
  exact List.mem_toFinset.mpr (h.letIn i d g hg hp)

/-- All dials. -/
theorem Inv.named_subset {s : Fleet n} (h : s.Inv inflight) (p : Phase → Bool) :
    (s.named p).toFinset ⊆ s.dialsWith fun _ => true := by
  rintro ⟨i, d⟩ hmem
  obtain ⟨r, q, hr, -, -⟩ := mem_named_iff.mp (List.mem_toFinset.mp hmem)
  have hlt := h.dialed _ (List.mem_of_getElem? hr)
  exact mem_dialsWith_iff.mpr ⟨_, List.getElem?_eq_getElem hlt, rfl⟩

theorem card_named {s : Fleet n} (h : s.Inv inflight) (p : Phase → Bool) :
    (s.named p).toFinset.card = s.server.requests.countP fun q => p q.phase := by
  rw [List.toFinset_card_of_nodup (nodup_named h p), length_named h]

/-- The exported totals, counted in dials. -/
theorem Inv.sum_dialsTotal {s : Fleet n} (h : s.Inv inflight) :
    ∑ i, (s.gens i).2.dialsTotal = (s.dialsWith fun _ => true).card := by
  rw [card_dialsWith]
  refine Finset.sum_congr rfl fun i _ => ?_
  rw [(h.gens i).2.dials, Shared.tally, List.countP_true]

theorem Inv.sum_dialLatency {s : Fleet n} (h : s.Inv inflight) :
    ∑ i, (s.gens i).2.dialLatency = (s.dialsWith Dial.connected).card := by
  rw [card_dialsWith]
  exact Finset.sum_congr rfl fun i _ => (h.gens i).2.latency

end Fleet

open Fleet

/-- **The two gauges.** In every state that any interleaving of the guard, the requests, the
callbacks at both ends and the dials of all processes reaches, a connection that is open at a load
generator was let in by the server; and `connections_active` differs from the sum of
`loadgen_connections_active` by no more than the callbacks of the server that have only begun, the
connections of the load generators that are being counted in or out, and the connections that are
open at one end only. Without these the two are equal. -/
theorem counts_agree {n : ℕ} (cgroupMax : ℤ) (inflight capacity : Fin n → ℕ)
    {acts : List (FleetAct n)} {s : Fleet n}
    (hrun : run (Fleet.step cgroupMax inflight) (Fleet.init capacity) acts = some s) :
    s.dialsWith Dial.isOpen ⊆ (s.named Phase.letIn).toFinset ∧
    |s.server.activeConnections - ∑ i, (s.gens i).2.connsActive| ≤
      s.server.requests.countP (fun q => q.phase.isOpening) +
        ∑ i, ((s.gens i).1.tally Dial.partWay : ℤ) + s.oneEnd.card := by
  have h := inv_of_run hrun
  constructor
  · rintro ⟨i, d⟩ hopen
    obtain ⟨g, hg, hp⟩ := mem_dialsWith_iff.mp hopen
    refine List.mem_toFinset.mpr (h.letIn i d g hg ?_)
    rw [Dial.connected, of_decide_eq_true hp]
    rfl
  · have hserver := h.server.active_add_opening
    have hnamed := card_named h Phase.isOpen
    have hclients : |∑ i, (s.gens i).2.connsActive - (s.dialsWith Dial.isOpen).card| ≤
        ∑ i, ((s.gens i).1.tally Dial.partWay : ℤ) := by
      rw [card_dialsWith, Nat.cast_sum, ← Finset.sum_sub_distrib]
      refine (Finset.abs_sum_le_sum_abs _ _).trans (Finset.sum_le_sum fun i _ => ?_)
      rw [(h.gens i).2.active]
      exact (h.gens i).1.active_near
    have hleft : (s.named Phase.isOpen).toFinset.card ≤
        s.oneEnd.card + (s.dialsWith Dial.isOpen).card :=
      (Finset.card_le_card_sdiff_add_card).trans
        (Nat.add_le_add_right (Finset.card_le_card le_sup_left) _)
    have hright : (s.dialsWith Dial.isOpen).card ≤
        s.oneEnd.card + (s.named Phase.isOpen).toFinset.card :=
      (Finset.card_le_card_sdiff_add_card).trans
        (Nat.add_le_add_right (Finset.card_le_card le_sup_right) _)
    rw [abs_le] at hclients ⊢
    constructor <;> omega

/-- Two processes with a dial each: the first is let in, and then the guard turns the second
away. -/
def twoProcesses : List (FleetAct 2) :=
  [.gen 0 (.start "ws://d"), .arrive 0 0, .handle 0 true, .handle 0 true, .handle 0 true,
    .gen 0 (.connect 0), .handle 0 true, .handle 0 true, .gen 0 (.add 0), .gen 0 (.count 0),
    .guard (some 950), .gen 1 (.start "ws://d"), .arrive 1 0, .handle 1 true, .handle 1 true,
    .handle 1 true, .gen 1 (.fail 0)]

/-- Nothing is part-way and no connection is open at one end only. -/
theorem counts_agree_two_processes : ∃ s : Fleet 2,
    run (Fleet.step 1000 fun _ => 1) (Fleet.init fun _ => 1) twoProcesses = some s ∧
    s.server.activeConnections - ∑ i, (s.gens i).2.connsActive = 0 := by
  have hrun : (run (Fleet.step 1000 fun _ => 1) (Fleet.init fun _ => 1) twoProcesses).any
      (fun s => s.server.requests.countP (fun q => q.phase.isOpening) = 0 ∧
        (∀ i, (s.gens i).1.tally Dial.partWay = 0) ∧ s.oneEnd.card = 0) = true := by decide
  obtain ⟨s, hs, hend⟩ := (Option.any_eq_true _ _).mp hrun
  obtain ⟨hopening, hpart, hone⟩ := of_decide_eq_true hend
  refine ⟨s, hs, abs_nonpos_iff.mp ?_⟩
  have hbound := (counts_agree 1000 (fun _ => 1) (fun _ => 1) hs).2
  rw [hopening, hone] at hbound
  simpa [hpart] using hbound

/-- **The totals.** In every state that any interleaving reaches, the server has seen no more
requests than dials were made, and a request that was answered 503 is a dial that is still waiting
or an error: together with the successful dials they are never more than the dials. Once the
server is through with every request, each successful dial is one of its connections or of its
upgrade errors. -/
theorem fleet_outcomes {n : ℕ} (cgroupMax : ℤ) (inflight capacity : Fin n → ℕ)
    {acts : List (FleetAct n)} {s : Fleet n}
    (hrun : run (Fleet.step cgroupMax inflight) (Fleet.init capacity) acts = some s) :
    s.server.counters .rejectedConnections + s.server.counters .upgradeErrors +
      s.server.counters .totalConnections ≤ ∑ i, (s.gens i).2.dialsTotal ∧
    s.server.counters .rejectedConnections + ∑ i, (s.gens i).2.dialLatency ≤
      ∑ i, (s.gens i).2.dialsTotal ∧
    s.server.counters .rejectedConnections ≤
      ∑ i, (s.gens i).1.tally Dial.dialing + ∑ i, (s.gens i).2.dialErrors ∧
    ((∀ q ∈ s.server.requests, q.phase.handled = true) →
      ∑ i, (s.gens i).2.dialLatency ≤
        s.server.counters .totalConnections + s.server.counters .upgradeErrors) := by
  have h := inv_of_run hrun
  have htotal := h.sum_dialsTotal
  have hlatency := h.sum_dialLatency
  have hrequests : s.server.counters .rejectedConnections + s.server.counters .upgradeErrors +
      s.server.counters .totalConnections ≤ ∑ i, (s.gens i).2.dialsTotal := by
    have hall : (s.named fun _ => true).toFinset.card ≤ (s.dialsWith fun _ => true).card :=
      Finset.card_le_card (h.named_subset _)
    rw [htotal, h.server.counter_eq, h.server.counter_eq, h.server.counter_eq]
    refine le_trans ?_ (card_named h (fun _ => true) ▸ hall)
    simp only [← Population.sum_map_toNat, ← List.sum_map_add]
    refine List.sum_le_sum fun q _ => ?_
    cases q.phase <;> decide
  have hturned : s.server.counters .rejectedConnections + ∑ i, (s.gens i).2.dialLatency ≤
      ∑ i, (s.gens i).2.dialsTotal := by
    have hall : ((s.named Phase.turnedAway).toFinset ∪ s.dialsWith Dial.connected).card ≤
        (s.dialsWith fun _ => true).card := by
      refine Finset.card_le_card (Finset.union_subset (h.named_subset _) ?_)
      rintro ⟨i, d⟩ hconn
      obtain ⟨g, hg, -⟩ := mem_dialsWith_iff.mp hconn
      exact mem_dialsWith_iff.mpr ⟨g, hg, rfl⟩
    rw [Finset.card_union_of_disjoint h.disjoint_turnedAway, card_named h] at hall
    rw [htotal, hlatency]
    refine (Nat.add_le_add_right ?_ _).trans hall
    rw [h.server.counter_eq]
    refine List.countP_mono_left fun q _ hq => ?_
    cases hp : q.phase <;> rw [hp] at hq <;> first | rfl | cases hq
  refine ⟨hrequests, hturned, ?_, ?_⟩
  · have hsplit : ∑ i, (s.gens i).2.dialsTotal = ∑ i, (s.gens i).1.tally Dial.dialing +
        (∑ i, (s.gens i).2.dialErrors + ∑ i, (s.gens i).2.dialLatency) := by
      rw [← Finset.sum_add_distrib, ← Finset.sum_add_distrib]
      refine Finset.sum_congr rfl fun i _ => ?_
      obtain ⟨hinv, hcounted⟩ := h.gens i
      rw [hcounted.dials, hcounted.errors, hcounted.latency]
      exact hinv.length_dials
    omega
  · intro hhandled
    have hlet := Finset.card_le_card h.connected_subset
    rw [card_named h] at hlet
    rw [hlatency, h.server.counter_eq, h.server.counter_eq]
    refine hlet.trans (le_of_eq (Population.countP_split fun q hq => ?_))
    have hq := hhandled q hq
    cases hp : q.phase <;> rw [hp] at hq <;> first | rfl | cases hq

/-- One of the two dials is a connection of the server. -/
theorem fleet_outcomes_two_processes : ∃ s : Fleet 2,
    run (Fleet.step 1000 fun _ => 1) (Fleet.init fun _ => 1) twoProcesses = some s ∧
    s.server.counters .rejectedConnections = 1 ∧
    s.server.counters .rejectedConnections + ∑ i, (s.gens i).2.dialLatency ≤
      ∑ i, (s.gens i).2.dialsTotal ∧
    ∑ i, (s.gens i).2.dialLatency ≤
      s.server.counters .totalConnections + s.server.counters .upgradeErrors := by
  have hrun : (run (Fleet.step 1000 fun _ => 1) (Fleet.init fun _ => 1) twoProcesses).any
      (fun s => s.server.counters .rejectedConnections = 1 ∧
        ∀ q ∈ s.server.requests, q.phase.handled = true) = true := by decide
  obtain ⟨s, hs, hend⟩ := (Option.any_eq_true _ _).mp hrun
  obtain ⟨hrejected, hhandled⟩ := of_decide_eq_true hend
  obtain ⟨-, hturned, -, hlatency⟩ := fleet_outcomes 1000 (fun _ => 1) (fun _ => 1) hs
  exact ⟨s, hs, hrejected, hturned, hlatency hhandled⟩

end Millionws
