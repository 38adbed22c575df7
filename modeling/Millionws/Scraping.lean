import Mathlib.Tactic.IntervalCases
import Millionws.NetworkAcl

/-!
# Which load generators are scraped

A client runs `client_replicas` load generators, each with a metrics port of its own, and
Prometheus on the server asks each of them. Three files name these ports: the client's
`user_data_client.sh` adds the number of the replica to 9100, the ACL denies the range from 9101 to
9100 plus the number of replicas, and the server's `user_data_server.sh` writes the digits of the
number behind `910`.

Up to replica 9 that is the same. Replica 10 serves its metrics on 9110, and Prometheus is told to
ask for them on 91010.

## Main definitions

* `StackConfig.loadgenTargets` — what the server writes
* `StackConfig.metricsAddrs` — where the client listens
* `StackConfig.Scraped` — the two agree, and the ACL covers the port

## Main results

* `StackConfig.scraped_iff` — exactly which replicas are scraped
* `StackConfig.replica_ten_not_scraped` — the tenth is not
-/

namespace Millionws

open Strconv

namespace StackConfig

/-! ### The three files -/

/-- The numbers that `seq 1 ${replicas}` prints. -/
def replicaNumbers (v : StackConfig) : List ℤ := portRange 1 v.clientReplicas

/-- `"$ip:910$r"`. -/
def target (ip : List Char) (r : ℤ) : List Char := ip ++ ":910".toList ++ itoa r

/-- The targets of the job `loadgen`, for the addresses in `$CLIENT_IPS`. -/
def loadgenTargets (v : StackConfig) (clientIps : List (List Char)) : List (List Char) :=
  clientIps.flatMap fun ip => v.replicaNumbers.map (target ip)

/-- The replicas of a client with their `LOADGEN_METRICS=":$port"`. -/
def metricsAddrs (v : StackConfig) : List (ℤ × List Char) :=
  v.replicaNumbers.map fun i => (i, ':' :: itoa (replicaPort i))

/-- The port of an address: the number behind the last colon. -/
def portOf (addr : List Char) : Except NumError ℤ := atoi (addr.rtakeWhile (· ≠ ':'))

/-- Whatever clients there are beside `ip`, the server has a target for its replica `r`, Prometheus
finds the replica there where it listens, and the ACL keeps that port from the internet under the
name `loadgen_prom`. -/
def Scraped (v : StackConfig) (ip : List Char) (r : ℤ) : Prop :=
  (∀ clientIps, ip ∈ clientIps → target ip r ∈ v.loadgenTargets clientIps) ∧
  ∃ addr port first last, (r, addr) ∈ v.metricsAddrs ∧ portOf addr = .ok port ∧
    portOf (target ip r) = .ok port ∧
    ("loadgen_prom", first, last) ∈ v.deniedPorts ∧ first ≤ port ∧ port ≤ last

/-- **What the server writes**: one target for each replica of each client. -/
theorem mem_loadgenTargets_iff {v : StackConfig} {clientIps : List (List Char)} {t : List Char} :
    t ∈ v.loadgenTargets clientIps ↔
      ∃ ip ∈ clientIps, ∃ r, 1 ≤ r ∧ r ≤ v.clientReplicas ∧ t = target ip r := by
  simp only [loadgenTargets, replicaNumbers, List.mem_flatMap, List.mem_map, mem_portRange,
    and_assoc, eq_comm]

/-! ### The ports -/

theorem replicaPort_nonneg {r : ℤ} (hr : 0 ≤ r) : 0 ≤ replicaPort r := by
  rw [replicaPort]
  omega

theorem portOf_append {port : List Char} (h : ':' ∉ port) (host : List Char) :
    portOf (host ++ ':' :: port) = atoi port := by
  have hport : ∀ c ∈ port.reverse, decide (c ≠ ':') = true := fun c hc =>
    decide_eq_true fun hcolon => h (hcolon ▸ List.mem_reverse.mp hc)
  rw [portOf, List.rtakeWhile, List.reverse_append, List.reverse_cons, List.append_assoc,
    List.takeWhile_append_of_pos hport]
  simp

theorem colon_notMem {s : List Char} (h : ∀ c ∈ s, c.isDigit = true) : ':' ∉ s :=
  fun hc => absurd (h _ hc) (by decide)

/-- The digits behind `910`. -/
theorem isDigit_of_mem_target {r : ℤ} (hr : 0 ≤ r) {c : Char} (hc : c ∈ "910".toList ++ itoa r) :
    c.isDigit = true := by
  have hdigits : ∀ d ∈ "910".toList, d.isDigit = true := List.all_eq_true.mp (by decide)
  rcases List.mem_append.mp hc with hc | hc
  · exact hdigits c hc
  · exact isDigit_of_mem_itoa hr hc

/-- What Prometheus reads as the port. -/
theorem portOf_target {r : ℤ} (hr : 0 ≤ r) (ip : List Char) :
    portOf (target ip r) = atoi ("910".toList ++ itoa r) := by
  rw [← portOf_append (colon_notMem fun c hc => isDigit_of_mem_target hr hc) ip]
  simp [target]

/-- And what the client reads as its own. -/
theorem portOf_metricsAddr {r : ℤ} (hr : 0 ≤ r) :
    portOf (':' :: itoa (replicaPort r)) = atoi (itoa (replicaPort r)) :=
  portOf_append (colon_notMem fun _ hc => isDigit_of_mem_itoa (replicaPort_nonneg hr) hc) []

/-- Writing a single digit behind `910` adds it to 9100. -/
theorem atoi_target {r : ℤ} (hlow : 1 ≤ r) (hhigh : r ≤ 9) :
    atoi ("910".toList ++ itoa r) = .ok (replicaPort r) := by
  interval_cases r <;> decide

/-- Writing two digits or more makes a larger number. -/
theorem replicaPort_lt_of_atoi_target {r port : ℤ} (hr : 10 ≤ r) (hpos : 0 < port)
    (h : atoi ("910".toList ++ itoa r) = .ok port) : replicaPort r < port := by
  obtain ⟨-, n, hn, rfl⟩ := (atoi_eq_ok_iff_of_pos hpos).mp h
  have hval := ofDigitChars_of_numeral hn fun c hc => isDigit_of_mem_target (by omega) hc
  have habs : itoa r = Nat.toDigits 10 r.natAbs := by rw [itoa, if_neg (by omega)]
  have hwidth : 2 ≤ (itoa r).length := by
    by_contra hlt
    have hle : (itoa r).length ≤ 1 := by omega
    rw [habs, Nat.length_toDigits_le_iff (by decide) (by decide)] at hle
    omega
  have hpow : 10 ^ 2 ≤ 10 ^ (itoa r).length := Nat.pow_le_pow_right (by decide) hwidth
  rw [Nat.ofDigitChars_append, Nat.ofDigitChars_eq_ofDigitChars_zero] at hval
  have hdigits : Nat.ofDigitChars 10 "910".toList 0 = 910 := by decide
  have hsuffix : Nat.ofDigitChars 10 (itoa r) 0 = r.natAbs := by
    rw [habs, Nat.ofDigitChars_ten_toDigits]
  rw [hdigits, hsuffix] at hval
  rw [replicaPort]
  omega

theorem eq_replicaPort_of_atoi {r port : ℤ} (hr : 0 ≤ r) (hpos : 0 < port)
    (h : atoi (itoa (replicaPort r)) = .ok port) : port = replicaPort r := by
  obtain ⟨-, n, hn, rfl⟩ := (atoi_eq_ok_iff_of_pos hpos).mp h
  have hport := replicaPort_nonneg hr
  have hval := ofDigitChars_of_numeral hn fun c hc => isDigit_of_mem_itoa hport hc
  rw [itoa, if_neg (by omega), Nat.ofDigitChars_ten_toDigits] at hval
  omega

/-! ### The agreement -/

theorem mem_metricsAddrs_iff {v : StackConfig} {r : ℤ} {addr : List Char} :
    (r, addr) ∈ v.metricsAddrs ↔
      1 ≤ r ∧ r ≤ v.clientReplicas ∧ addr = ':' :: itoa (replicaPort r) := by
  simp only [metricsAddrs, replicaNumbers, List.mem_map, mem_portRange, Prod.mk.injEq]
  constructor
  · rintro ⟨i, hi, rfl, rfl⟩
    exact ⟨hi.1, hi.2, rfl⟩
  · rintro ⟨hlow, hhigh, rfl⟩
    exact ⟨r, ⟨hlow, hhigh⟩, rfl, rfl⟩

theorem mem_deniedPorts_loadgen_iff {v : StackConfig} {first last : ℤ} :
    ("loadgen_prom", first, last) ∈ v.deniedPorts ↔
      first = 9101 ∧ last = 9100 + v.clientReplicas := by
  simp [deniedPorts]

/-- One replica. -/
theorem scraped_replica_iff {v : StackConfig} {r : ℤ} (hlow : 1 ≤ r) (hhigh : r ≤ v.clientReplicas)
    (ip : List Char) : v.Scraped ip r ↔ r ≤ 9 := by
  constructor
  · rintro ⟨-, addr, port, first, last, hmem, haddr, htarget, hdenied, hfirst, -⟩
    obtain ⟨-, -, rfl⟩ := mem_metricsAddrs_iff.mp hmem
    obtain ⟨rfl, -⟩ := mem_deniedPorts_loadgen_iff.mp hdenied
    rw [portOf_metricsAddr (by omega)] at haddr
    rw [portOf_target (by omega)] at htarget
    by_contra hlt
    have hgt := replicaPort_lt_of_atoi_target (by omega) (by omega) htarget
    have heq := eq_replicaPort_of_atoi (by omega) (by omega) haddr
    omega
  · intro hle
    have hport : atoi (itoa (replicaPort r)) = .ok (replicaPort r) := by
      rw [replicaPort]
      exact atoi_itoa (by omega) (by omega)
    refine ⟨fun clientIps hip => mem_loadgenTargets_iff.mpr ⟨ip, hip, r, hlow, hhigh, rfl⟩, _,
      replicaPort r, 9101, 9100 + v.clientReplicas, mem_metricsAddrs_iff.mpr ⟨hlow, hhigh, rfl⟩,
      ?_, ?_, mem_deniedPorts_loadgen_iff.mpr ⟨rfl, rfl⟩, ?_, ?_⟩
    · rw [portOf_metricsAddr (by omega), hport]
    · rw [portOf_target (by omega), atoi_target hlow hle]
    · rw [replicaPort]
      omega
    · rw [replicaPort]
      omega

/-- **Which replicas are scraped.** Replica `r` is if and only if `r` has one digit, so all of
them are if and only if there are at most nine. -/
theorem scraped_iff (v : StackConfig) (ip : List Char) :
    (∀ r, 1 ≤ r → r ≤ v.clientReplicas → (v.Scraped ip r ↔ r ≤ 9)) ∧
    ((∀ r, 1 ≤ r → r ≤ v.clientReplicas → v.Scraped ip r) ↔ v.clientReplicas ≤ 9) := by
  refine ⟨fun r hlow hhigh => scraped_replica_iff hlow hhigh ip, ?_, ?_⟩
  · intro h
    by_contra hlt
    have := (scraped_replica_iff (by decide) (by omega) ip).mp (h 10 (by decide) (by omega))
    omega
  · intro hle r hlow hhigh
    exact (scraped_replica_iff hlow hhigh ip).mpr (by omega)

/-- **The tenth replica is not scraped.** -/
theorem replica_ten_not_scraped : ¬ ∀ (v : StackConfig) (ip : List Char) (r : ℤ), 1 ≤ r →
    r ≤ v.clientReplicas → v.Scraped ip r := by
  intro h
  have hten := h ⟨⟨0xcb007107#32, 32⟩, 8080, 16, 10, by decide, by decide, by decide, by decide⟩
    "10.0.1.7".toList 10 (by decide) (by decide)
  exact absurd ((scraped_replica_iff (by decide) (by decide) _).mp hten) (by decide)

end StackConfig

end Millionws
