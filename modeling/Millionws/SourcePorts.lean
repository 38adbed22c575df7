import Mathlib.Algebra.BigOperators.Fin
import Mathlib.Algebra.Order.BigOperators.Group.Finset
import Millionws.Deployment
import Millionws.DialCap
import Millionws.DialMetrics
import Millionws.Interleaving

/-!
# The source ports of a client machine

A connection occupies a source port of the client for as long as it is open, and the client has
one set of them for each port of the server. All the replicas of a client share its address, but
they do not know of each other: each has its part of the client's connections, walks round the
server's ports on its own, begins at the first port, and dials anew for whatever is lost.

What comes of it does not depend on how the replicas take turns. A port of the server sees its
share of the client's dials, up to one for each replica, and the dials are those for the
connections that were asked for and one for each setback: a dial that failed, a connection that is
gone, a check that was torn.

## What is deliberately absent

When a source port is free again after its connection. Every dial is counted as if it kept its port
for good, so that the bound holds whatever the kernel does. Restarts of a replica are left out.

## Main definitions

* `StackConfig.clientConns`, `StackConfig.clientStep` — the replicas of one client
* `Dial.lost`, `setbacks` — what makes a replica dial more often than it was asked to
* `sourcePorts` — the range that the client's kernel is given

## Main results

* `dialsTo_share`, `clientDials_le` — the share of every port, and the dials of a client
* `source_ports_suffice` — so there is a source port for every dial
-/

namespace Millionws

open Transition

/-! ### Lost dials -/

/-- The dial is past `reg.add`, or has failed, and the registry does not have its connection. -/
def Dial.lost (g : Dial) : Bool := !g.early && !g.stored

/-- Every dial is claimed or lost. -/
theorem Shared.Inv.length_eq_claimed {inflight : ℕ} {s : Shared} (h : s.Inv inflight) :
    s.dials.length = s.claimed + s.tally Dial.lost := by
  have hpast : (s.dials.countP fun g => !g.early) = s.tally Dial.stored + s.tally Dial.lost := by
    refine Population.countP_split ?_
    rintro ⟨url, pc, close⟩ -
    cases pc <;> cases close <;> rfl
  have hall : s.dials.length = s.tally Dial.early + s.dials.countP fun g => !g.early := by
    rw [← List.countP_true]
    refine Population.countP_split ?_
    rintro ⟨url, pc, close⟩ -
    cases pc <;> rfl
  rw [hall, hpast, Shared.claimed, h.len_eq_tally]
  omega

/-- What a replica has dialed beyond its target: the torn checks and the lost dials. -/
def setbacks (s : DialLoop × Reads) : ℕ := s.2.tears + s.1.shared.tally Dial.lost

/-- **The dials of a replica** are at most its connections and its setbacks. -/
theorem DialLoop.dials_le_setbacks {cfg : DialConfig} {capacity : ℕ} {acts : List LoopAct}
    {s : DialLoop × Reads} (htarget : 0 ≤ cfg.target)
    (h : run (withMonitor (DialLoop.step cfg) (watchReads cfg)) (start capacity, ⟨∅, 0⟩) acts =
      some s) : (s.1.shared.dials.length : ℤ) ≤ cfg.target + setbacks s := by
  have hcapped : Capped cfg s.1 s.2 :=
    run_invariant (P := fun p => Capped cfg p.1 p.2) (fun _ _ _ h ht => h.step ht)
      (capped_start htarget capacity) h
  have hlength := hcapped.shared.length_eq_claimed
  have hclaimed := hcapped.claimed
  rw [setbacks]
  push_cast
  omega

/-! ### A client -/

namespace StackConfig

/-- `floor(var.conns_per_client / var.client_replicas)`. -/
def clientConns (v : StackConfig) (connsPerClient : ℚ) : ℤ := ⌊connsPerClient / v.clientReplicas⌋

/-- The dial loop of a replica, with the defaults of `-rate` and `-inflight`. -/
def clientConfig (v : StackConfig) (serverIp : List Char) (connsPerClient : ℚ) : DialConfig :=
  v.dialConfig serverIp (v.clientConns connsPerClient) 1000 200

/-- The replicas of one client side by side, each beside the monitor of its reads. -/
def clientStep (v : StackConfig) (serverIp : List Char) (connsPerClient : ℚ) :
    (Fin v.clientReplicas.toNat → DialLoop × Reads) → Fin v.clientReplicas.toNat × LoopAct →
      Option (Fin v.clientReplicas.toNat → DialLoop × Reads) :=
  interleave fun _ => withMonitor (DialLoop.step (v.clientConfig serverIp connsPerClient))
    (watchReads (v.clientConfig serverIp connsPerClient))

/-- No replica has dialed yet. -/
def clientStart (v : StackConfig) (capacity : ℕ) : Fin v.clientReplicas.toNat → DialLoop × Reads :=
  fun _ => (DialLoop.start capacity, ⟨∅, 0⟩)

variable {v : StackConfig} {connsPerClient : ℚ}

theorem clientConns_nonneg (h : 0 ≤ connsPerClient) : 0 ≤ v.clientConns connsPerClient := by
  have hreplicas : (0 : ℚ) ≤ v.clientReplicas := by
    exact_mod_cast Int.le_trans Int.one_nonneg v.one_le_replicas
  exact Int.floor_nonneg.mpr (div_nonneg h hreplicas)

/-- The parts of the replicas are no more than the whole. -/
theorem mul_clientConns_le (v : StackConfig) (connsPerClient : ℚ) :
    (v.clientReplicas * v.clientConns connsPerClient : ℚ) ≤ connsPerClient := by
  have hpos : (0 : ℚ) < v.clientReplicas := by
    exact_mod_cast Int.lt_of_lt_of_le Int.zero_lt_one v.one_le_replicas
  calc (v.clientReplicas * v.clientConns connsPerClient : ℚ)
      ≤ v.clientReplicas * (connsPerClient / v.clientReplicas) :=
        mul_le_mul_of_nonneg_left (Int.floor_le _) hpos.le
    _ = connsPerClient := mul_div_cancel₀ _ hpos.ne'

end StackConfig

/-- All dials of some replicas. -/
def clientDials {n : ℕ} (s : Fin n → DialLoop × Reads) : ℤ :=
  ∑ i, ((s i).1.shared.dials.length : ℤ)

/-- Those that go to port `p` of the server. -/
def dialsTo {n : ℕ} (serverIp : List Char) (p : ℤ) (s : Fin n → DialLoop × Reads) : ℤ :=
  ∑ i, ((s i).1.shared.dials.countP fun g =>
    g.url = String.ofList (StackConfig.wsUrl serverIp p) : ℤ)

/-- All setbacks of some replicas. -/
def clientSetbacks {n : ℕ} (s : Fin n → DialLoop × Reads) : ℤ := ∑ i, (setbacks (s i) : ℤ)

/-- The source ports of a client: `net.ipv4.ip_local_port_range = 1024 65535`. -/
def sourcePorts : ℤ := 65535 - 1024 + 1

open StackConfig

section

variable {v : StackConfig} {serverIp : List Char} {connsPerClient : ℚ} {capacity : ℕ}
  {acts : List (Fin v.clientReplicas.toNat × LoopAct)}
  {s : Fin v.clientReplicas.toNat → DialLoop × Reads}

theorem sum_replicas (v : StackConfig) (c : ℤ) :
    ∑ _i : Fin v.clientReplicas.toNat, c = v.clientReplicas * c := by
  rw [Finset.sum_const, Finset.card_univ, Fintype.card_fin, nsmul_eq_mul,
    Int.natCast_toNat_eq_self.mpr (Int.le_trans Int.one_nonneg v.one_le_replicas)]

/-- **The share of a port** in the dials of all replicas: each of them is less than a round off. -/
theorem dialsTo_share (hip : ',' ∉ serverIp)
    (hrun : run (v.clientStep serverIp connsPerClient) (v.clientStart capacity) acts = some s)
    {p : ℤ} (hp : p ∈ v.clientPorts) :
    v.serverPortCount * dialsTo serverIp p s ≤
      clientDials s + v.clientReplicas * (v.serverPortCount - 1) ∧
    clientDials s ≤
      v.serverPortCount * dialsTo serverIp p s + v.clientReplicas * (v.serverPortCount - 1) := by
  have hshare (i : Fin v.clientReplicas.toNat) :
      let dials := (s i).1.shared.dials.countP fun g => g.url = String.ofList (wsUrl serverIp p)
      ((s i).1.shared.dials.length : ℤ) < v.serverPortCount * (dials + 1) ∧
        v.serverPortCount * dials < (s i).1.shared.dials.length + v.serverPortCount := by
    obtain ⟨entries, h⟩ := DialLoop.balanced_of_run (run_of_run_withMonitor (run_actsOf hrun i))
    exact port_share hip h hp
  rw [dialsTo, clientDials, Finset.mul_sum, ← sum_replicas, ← Finset.sum_add_distrib,
    ← Finset.sum_add_distrib]
  constructor
  · refine Finset.sum_le_sum fun i _ => ?_
    have hi := (hshare i).2
    omega
  · refine Finset.sum_le_sum fun i _ => ?_
    have hi := (hshare i).1
    rw [mul_add, mul_one] at hi
    omega

/-- **The dials of a client** are at most the connections asked for and the setbacks. -/
theorem clientDials_le (hconns : 0 ≤ connsPerClient)
    (hrun : run (v.clientStep serverIp connsPerClient) (v.clientStart capacity) acts = some s) :
    (clientDials s : ℚ) ≤ connsPerClient + clientSetbacks s := by
  have hsum : clientDials s ≤
      v.clientReplicas * v.clientConns connsPerClient + clientSetbacks s := by
    rw [clientDials, clientSetbacks, ← sum_replicas, ← Finset.sum_add_distrib]
    exact Finset.sum_le_sum fun i _ =>
      DialLoop.dials_le_setbacks (v.clientConns_nonneg hconns) (run_actsOf hrun i)
  calc (clientDials s : ℚ)
      ≤ v.clientReplicas * v.clientConns connsPerClient + clientSetbacks s := by
        exact_mod_cast hsum
    _ ≤ connsPerClient + clientSetbacks s :=
        add_le_add (mul_clientConns_le v connsPerClient) le_rfl

end

/-- **A source port for every dial.** In every run of the replicas of a client, however they take
turns and whatever becomes of their dials and connections: each port of the server has seen its
share of the client's dials, less than one off for each replica; the dials are at most the
connections asked for and the setbacks; and as long as these and what the shares are off fit into
the source ports, no port of the server has seen more dials than the client has source ports. -/
theorem source_ports_suffice (v : StackConfig) (serverIp : List Char) (hip : ',' ∉ serverIp)
    {connsPerClient : ℚ} (hconns : 0 ≤ connsPerClient) (capacity : ℕ)
    {acts : List (Fin v.clientReplicas.toNat × LoopAct)}
    {s : Fin v.clientReplicas.toNat → DialLoop × Reads}
    (hrun : run (v.clientStep serverIp connsPerClient) (v.clientStart capacity) acts = some s) :
    (∀ p ∈ v.clientPorts, |v.serverPortCount * dialsTo serverIp p s - clientDials s| ≤
      v.clientReplicas * (v.serverPortCount - 1)) ∧
    (clientDials s : ℚ) ≤ connsPerClient + clientSetbacks s ∧
    (connsPerClient + clientSetbacks s + v.clientReplicas * (v.serverPortCount - 1) <
      v.serverPortCount * (sourcePorts + 1) →
        ∀ p ∈ v.clientPorts, dialsTo serverIp p s ≤ sourcePorts) := by
  have hdials := clientDials_le hconns hrun
  refine ⟨?_, hdials, ?_⟩
  · intro p hp
    obtain ⟨hle, hge⟩ := dialsTo_share hip hrun hp
    exact abs_sub_le_iff.mpr ⟨Int.sub_left_le_of_le_add hle, Int.sub_left_le_of_le_add hge⟩
  · intro hroom p hp
    have hlt : (v.serverPortCount * dialsTo serverIp p s : ℚ) <
        v.serverPortCount * (sourcePorts + 1) := by
      have hle : (v.serverPortCount * dialsTo serverIp p s : ℚ) ≤
          clientDials s + v.clientReplicas * (v.serverPortCount - 1) := by
        exact_mod_cast (dialsTo_share hip hrun hp).1
      linarith
    have hcount : (0 : ℚ) ≤ v.serverPortCount := by
      exact_mod_cast Int.le_trans Int.one_nonneg v.one_le_count
    exact Int.lt_add_one_iff.mp (by exact_mod_cast lt_of_mul_lt_mul_left hlt hcount)

/-- Two replicas with two connections each and two ports. A dial of the second one fails and is
made good. -/
theorem source_ports_suffice_two : ∃ v : StackConfig, ∃ s : Fin v.clientReplicas.toNat →
    DialLoop × Reads, clientDials s = 5 ∧ clientSetbacks s = 1 ∧
    ∀ p ∈ v.clientPorts, dialsTo "10.0.0.7".toList p s ≤ sourcePorts := by
  let v : StackConfig :=
    ⟨⟨0xcb007109#32, 32⟩, 9900, 2, 2, by decide, by decide, by decide, by decide⟩
  let first : Fin v.clientReplicas.toNat := ⟨0, by decide⟩
  let second : Fin v.clientReplicas.toNat := ⟨1, by decide⟩
  let twoDials : List LoopAct := [.tick, .loop, .loop, .loop, .loop, .loop, .loop]
  let again : List LoopAct :=
    [.env (.fail 0), .env (.release 0), .env (.finish 0), .loop, .loop, .loop]
  have hrun : (run (v.clientStep "10.0.0.7".toList 5) (v.clientStart 2)
      (twoDials.map (first, ·) ++ twoDials.map (second, ·) ++ again.map (second, ·))).any
      (fun s => clientDials s = 5 ∧ clientSetbacks s = 1) = true := by decide +kernel
  obtain ⟨s, hs, hend⟩ := (Option.any_eq_true _ _).mp hrun
  obtain ⟨hdials, hsetbacks⟩ := of_decide_eq_true hend
  refine ⟨v, s, hdials, hsetbacks, ?_⟩
  refine (source_ports_suffice v "10.0.0.7".toList (by decide) (by norm_num) 2 hs).2.2 ?_
  have hreplicas : v.clientReplicas = 2 := rfl
  have hcount : v.serverPortCount = 2 := rfl
  rw [hsetbacks, hreplicas, hcount, sourcePorts]
  norm_num

end Millionws
