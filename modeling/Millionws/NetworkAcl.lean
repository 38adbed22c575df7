import Mathlib.Data.String.Basic
import Millionws.FirstMatch
import Millionws.Ports

/-!
# What the network ACL keeps out

The AWS stack leaves its security group open and filters with one network ACL. Its rules and the
ports its services listen on are computed in different files from the same variables: the rules
in `infra/opentofu/aws-ec2/main.tf`, the server's ports by `listenAddrs` from the flag that
`deploy/aws/compose.yml` passes, the metrics ports of the load generators by the shell loop of
`user_data_client.sh`.

`main.tf` denies the range of `-ports` ahead of the rule that lets replies in. The server adds that
range to its main port, which the compose file leaves at its default. `denied_iff` says when the
two agree: when the range contains 8080.

## What is deliberately absent

The egress rules, which allow everything, and IPv6, for which the subnet has no addresses and the
ACL no rules. Traffic inside the subnet does not pass the ACL.

## Main definitions

* `StackConfig` — the variables of the stack
* `StackConfig.ingress`, `StackConfig.evaluate` — the rules, and what they decide
* `StackConfig.ServicePort` — the ports on which the stack accepts connections

## Main results

* `StackConfig.serverListens_iff` — the server's ports
* `StackConfig.denied_iff` — when everything it listens on is denied to outsiders
* `StackConfig.main_port_exposed` — and a choice of variables for which it is not
-/

namespace Millionws

open Strconv FirstMatch

/-! ### Rules and packets -/

/-- An IPv4 range. -/
structure Cidr where
  address : BitVec 32
  length : Fin 33
  deriving DecidableEq

/-- The addresses that agree on the first `length` bits. -/
def Cidr.contains (c : Cidr) (src : BitVec 32) : Bool :=
  src >>> (32 - c.length.val) = c.address >>> (32 - c.length.val)

/-- `0.0.0.0/0`. -/
def Cidr.everyone : Cidr := ⟨0, 0⟩

/-- A protocol that is neither ICMP nor TCP, by its number. -/
structure OtherProtocol where
  number : Fin 256
  not_icmp : number ≠ 1
  not_tcp : number ≠ 6
  deriving DecidableEq

/-- A packet that enters the subnet. -/
inductive Packet where
  | tcp (src : BitVec 32) (port : ℤ)
  | icmp (src : BitVec 32) (type code : ℕ)
  | other (src : BitVec 32) (protocol : OtherProtocol)
  deriving DecidableEq

inductive AclAction where
  | allow
  | deny
  deriving DecidableEq

/-- The part of a rule that depends on its protocol. -/
inductive Traffic where
  | tcp (fromPort toPort : ℤ)
  | icmp (type code : ℕ)
  deriving DecidableEq

/-- An `ingress` block. -/
structure AclRule where
  ruleNo : ℕ
  action : AclAction
  cidrBlock : Cidr
  traffic : Traffic
  deriving DecidableEq

/-- The packets a rule is about. -/
def AclRule.applies (r : AclRule) : Packet → Bool
  | .tcp src port =>
    match r.traffic with
    | .tcp fromPort toPort => r.cidrBlock.contains src && fromPort ≤ port && port ≤ toPort
    | .icmp _ _ => false
  | .icmp src type code =>
    match r.traffic with
    | .tcp _ _ => false
    | .icmp t c => r.cidrBlock.contains src && t = type && c = code
  | .other _ _ => false

theorem everyone_contains (src : BitVec 32) : Cidr.everyone.contains src = true := by
  have hshift (x : BitVec 32) : x >>> 32 = 0 := BitVec.ushiftRight_eq_zero (Nat.le_refl 32)
  simp [Cidr.contains, Cidr.everyone, hshift]

/-! ### The stack -/

/-- The variables that the rules and the ports depend on. -/
structure StackConfig where
  myIp : Cidr
  serverPortFirst : ℤ
  serverPortCount : ℤ
  clientReplicas : ℤ
  one_le_first : 1 ≤ serverPortFirst
  one_le_count : 1 ≤ serverPortCount
  last_le : serverPortFirst + serverPortCount - 1 ≤ 65535
  one_le_replicas : 1 ≤ clientReplicas

namespace StackConfig

/-- The last port of the range. -/
def serverPortLast (v : StackConfig) : ℤ := v.serverPortFirst + v.serverPortCount - 1

/-- `local.denied_ports`. -/
def deniedPorts (v : StackConfig) : List (String × ℤ × ℤ) :=
  [("grafana", 3000, 3000),
    ("server", v.serverPortFirst, v.serverPortLast),
    ("prometheus", 9090, 9090),
    ("loadgen_prom", 9101, 9100 + v.clientReplicas)]

/-- `local.operator_ports`. -/
def operatorPorts : List (String × ℤ) := [("ssh", 22), ("grafana", 3000), ("prometheus", 9090)]

/-- `{ for i, name in sort(keys(m)) : name => base + i }`, with the value of each key. -/
def numbered {β : Type} (m : List (String × β)) (base : ℕ) : List (ℕ × β) :=
  ((m.map Prod.fst).insertionSort (· ≤ ·)).zipIdx.filterMap fun (name, i) =>
    (m.lookup name).map fun value => (base + i, value)

/-- The `ingress` blocks of `aws_network_acl.bench`. -/
def ingress (v : StackConfig) : List AclRule :=
  (numbered operatorPorts 100).map (fun (no, port) => ⟨no, .allow, v.myIp, .tcp port port⟩) ++
  (numbered v.deniedPorts 200).map (fun (no, first, last) =>
    ⟨no, .deny, .everyone, .tcp first last⟩) ++
  [⟨300, .allow, .everyone, .tcp 1024 65535⟩, ⟨310, .allow, .everyone, .icmp 3 4⟩]

/-- Rules in ascending order, the first match decides; what no rule matches is denied. -/
def evaluate (v : StackConfig) (p : Packet) : AclAction :=
  ((firstMatch AclRule.ruleNo AclRule.applies v.ingress p).map AclRule.action).getD .deny

/-- `server_ports`, which becomes the flag `-ports`. -/
def serverPorts (v : StackConfig) : List Char :=
  itoa v.serverPortFirst ++ '-' :: itoa v.serverPortLast

/-- The default of `-addr`, which the compose file does not set. -/
def defaultAddr : List Char := "0.0.0.0".toList

/-- The default of `-port`, which it does not set either. -/
def defaultPort : ℤ := 8080

/-- The server listens on this port. -/
def ServerListens (v : StackConfig) (port : ℤ) : Prop :=
  ∃ addrs, listenAddrs defaultAddr defaultPort v.serverPorts = .ok addrs ∧
    joinHostPort defaultAddr (itoa port) ∈ addrs

/-- `port=$((9100 + i))`, the metrics port of replica `i`. -/
def replicaPort (i : ℤ) : ℤ := 9100 + i

/-- The ports on which the stack's services accept connections. -/
def ServicePort (v : StackConfig) (port : ℤ) : Prop :=
  v.ServerListens port ∨ port = 3000 ∨ port = 9090 ∨
    ∃ i, 1 ≤ i ∧ i ≤ v.clientReplicas ∧ port = replicaPort i

/-! ### The ports -/

/-- **The server's ports** are the range and the default. -/
theorem serverListens_iff (v : StackConfig) (port : ℤ) :
    v.ServerListens port ↔ port = 8080 ∨ v.serverPortFirst ≤ port ∧ port ≤ v.serverPortLast := by
  have hcount := v.one_le_count
  have hlast := v.last_le
  have hparse : parsePorts v.serverPorts = .ok (portRange v.serverPortFirst v.serverPortLast) :=
    parsePorts_itoa_range v.one_le_first (by rw [serverPortLast]; omega) hlast
  exact (mem_listenAddrs_iff hparse port).trans (or_congr_right mem_portRange)

/-! ### The rules -/

theorem numbered_operatorPorts :
    numbered operatorPorts 100 = [(100, 3000), (101, 9090), (102, 22)] := by
  decide

theorem numbered_deniedPorts (v : StackConfig) : numbered v.deniedPorts 200 =
    [(200, 3000, 3000), (201, 9101, 9100 + v.clientReplicas), (202, 9090, 9090),
      (203, v.serverPortFirst, v.serverPortLast)] := by
  have hkeys : (v.deniedPorts.map Prod.fst).insertionSort (· ≤ ·) =
      ["grafana", "loadgen_prom", "prometheus", "server"] := by
    change ["grafana", "server", "prometheus", "loadgen_prom"].insertionSort (· ≤ ·) = _
    decide
  rw [numbered, hkeys]
  rfl

/-- The rules in the order in which they are tried. -/
theorem ingress_eq (v : StackConfig) : v.ingress =
    [⟨100, .allow, v.myIp, .tcp 3000 3000⟩,
      ⟨101, .allow, v.myIp, .tcp 9090 9090⟩,
      ⟨102, .allow, v.myIp, .tcp 22 22⟩,
      ⟨200, .deny, .everyone, .tcp 3000 3000⟩,
      ⟨201, .deny, .everyone, .tcp 9101 (9100 + v.clientReplicas)⟩,
      ⟨202, .deny, .everyone, .tcp 9090 9090⟩,
      ⟨203, .deny, .everyone, .tcp v.serverPortFirst v.serverPortLast⟩,
      ⟨300, .allow, .everyone, .tcp 1024 65535⟩,
      ⟨310, .allow, .everyone, .icmp 3 4⟩] := by
  rw [ingress, numbered_operatorPorts, numbered_deniedPorts]
  rfl

/-- A rule that applies decides, if no lower one that applies disagrees. -/
theorem evaluate_eq {v : StackConfig} {p : Packet} {r : AclRule} (hr : r ∈ v.ingress)
    (happlies : r.applies p = true)
    (hlower : ∀ r' ∈ v.ingress, r'.applies p = true → r'.ruleNo ≤ r.ruleNo →
      r'.action = r.action) : v.evaluate p = r.action := by
  rw [evaluate, verdict_of_applies AclRule.action hr happlies hlower, Option.getD_some]

/-- **What the rules are.** The operator's, the service rules, and those for replies. -/
theorem ingress_cases {v : StackConfig} {r : AclRule} (hr : r ∈ v.ingress) :
    (r.action = .allow ∧ r.cidrBlock = v.myIp) ∨
    (r.action = .deny ∧ r.ruleNo < 300 ∧
      ∃ name first last, (name, first, last) ∈ v.deniedPorts ∧ r.traffic = .tcp first last) ∨
    (r.action = .allow ∧ 300 ≤ r.ruleNo ∧
      (r.traffic = .tcp 1024 65535 ∨ r.traffic = .icmp 3 4)) := by
  rw [ingress_eq] at hr
  simp only [List.mem_cons, List.not_mem_nil, or_false] at hr
  rcases hr with rfl | rfl | rfl | rfl | rfl | rfl | rfl | rfl | rfl
  · exact Or.inl ⟨rfl, rfl⟩
  · exact Or.inl ⟨rfl, rfl⟩
  · exact Or.inl ⟨rfl, rfl⟩
  · exact Or.inr (Or.inl ⟨rfl, by simp, "grafana", _, _, by simp [deniedPorts], rfl⟩)
  · exact Or.inr (Or.inl ⟨rfl, by simp, "loadgen_prom", _, _, by simp [deniedPorts], rfl⟩)
  · exact Or.inr (Or.inl ⟨rfl, by simp, "prometheus", _, _, by simp [deniedPorts], rfl⟩)
  · exact Or.inr (Or.inl ⟨rfl, by simp, "server", _, _, by simp [deniedPorts], rfl⟩)
  · exact Or.inr (Or.inr ⟨rfl, by simp, Or.inl rfl⟩)
  · exact Or.inr (Or.inr ⟨rfl, by simp, Or.inr rfl⟩)

/-- Every service has its rule. -/
theorem exists_deny {v : StackConfig} {name : String} {first last : ℤ}
    (h : (name, first, last) ∈ v.deniedPorts) :
    ∃ no < 300, ⟨no, .deny, .everyone, .tcp first last⟩ ∈ v.ingress := by
  simp only [deniedPorts, List.mem_cons, List.not_mem_nil, or_false, Prod.mk.injEq] at h
  rw [ingress_eq]
  rcases h with ⟨-, rfl, rfl⟩ | ⟨-, rfl, rfl⟩ | ⟨-, rfl, rfl⟩ | ⟨-, rfl, rfl⟩
  · exact ⟨200, by decide, by simp⟩
  · exact ⟨203, by decide, by simp⟩
  · exact ⟨202, by decide, by simp⟩
  · exact ⟨201, by decide, by simp⟩

/-- What a rule about TCP ports applies to. -/
theorem applies_tcp_iff {r : AclRule} {src : BitVec 32} {port : ℤ} :
    r.applies (.tcp src port) = true ↔ r.cidrBlock.contains src = true ∧
      ∃ first last, r.traffic = .tcp first last ∧ first ≤ port ∧ port ≤ last := by
  rw [AclRule.applies]
  cases r.traffic with
  | tcp first last =>
    simp only [Bool.and_eq_true, decide_eq_true_eq, Traffic.tcp.injEq]
    constructor
    · rintro ⟨⟨hsrc, hfirst⟩, hlast⟩
      exact ⟨hsrc, first, last, ⟨rfl, rfl⟩, hfirst, hlast⟩
    · rintro ⟨hsrc, _, _, ⟨rfl, rfl⟩, hfirst, hlast⟩
      exact ⟨⟨hsrc, hfirst⟩, hlast⟩
  | icmp type code => simp

/-- **What an outsider may reach**: the ports of the rule for replies without those of the service
rules. The operator's rules come first, and are not about outsiders. -/
theorem evaluate_outsider {v : StackConfig} {src : BitVec 32}
    (hsrc : v.myIp.contains src = false) (port : ℤ) :
    v.evaluate (.tcp src port) = .deny ↔
      (∃ name first last, (name, first, last) ∈ v.deniedPorts ∧ first ≤ port ∧ port ≤ last) ∨
        port < 1024 ∨ 65535 < port := by
  have hoperator {r : AclRule} (happlies : r.applies (.tcp src port) = true)
      (hcidr : r.cidrBlock = v.myIp) : False := by
    have hcontains := (applies_tcp_iff.mp happlies).1
    rw [hcidr, hsrc] at hcontains
    cases hcontains
  by_cases hdenied : ∃ name first last, (name, first, last) ∈ v.deniedPorts ∧ first ≤ port ∧
      port ≤ last
  · refine iff_of_true ?_ (Or.inl hdenied)
    obtain ⟨name, first, last, hmem, hfirst, hlast⟩ := hdenied
    obtain ⟨no, hno, hr⟩ := exists_deny hmem
    refine evaluate_eq hr (applies_tcp_iff.mpr ⟨everyone_contains src, _, _, rfl, hfirst, hlast⟩)
      fun r' hr' happlies' hle => ?_
    rcases ingress_cases hr' with ⟨-, hcidr⟩ | ⟨hdeny, -⟩ | ⟨-, hlate, -⟩
    · exact (hoperator happlies' hcidr).elim
    · exact hdeny
    · simp only at hle
      omega
  · by_cases hreply : port < 1024 ∨ 65535 < port
    · -- no rule applies
      refine iff_of_true ?_ (Or.inr hreply)
      have hnone : firstMatch AclRule.ruleNo AclRule.applies v.ingress (.tcp src port) = none := by
        refine firstMatch_eq_none_iff.mpr fun r hr => Bool.eq_false_iff.mpr fun happlies => ?_
        obtain ⟨-, first, last, htraffic, hfirst, hlast⟩ := applies_tcp_iff.mp happlies
        rcases ingress_cases hr with ⟨-, hcidr⟩ | ⟨-, -, name, f, l, hmem, heq⟩ | ⟨-, -, heq⟩
        · exact hoperator happlies hcidr
        · obtain ⟨rfl, rfl⟩ := Traffic.tcp.inj (htraffic.symm.trans heq)
          exact hdenied ⟨name, _, _, hmem, hfirst, hlast⟩
        · rcases heq with heq | heq
          · obtain ⟨rfl, rfl⟩ := Traffic.tcp.inj (htraffic.symm.trans heq)
            omega
          · cases htraffic.symm.trans heq
      rw [evaluate, hnone]
      rfl
    · -- the rule for replies decides
      have hr : ⟨300, .allow, .everyone, .tcp 1024 65535⟩ ∈ v.ingress := by
        rw [ingress_eq]
        simp
      have hallow : v.evaluate (.tcp src port) = .allow := by
        refine evaluate_eq hr (applies_tcp_iff.mpr ⟨everyone_contains src, _, _, rfl, ?_, ?_⟩)
          fun r' hr' happlies' hle => ?_
        · omega
        · omega
        · rcases ingress_cases hr' with ⟨hallow, -⟩ | ⟨-, -, name, f, l, hmem, heq⟩ | ⟨hallow, -⟩
          · exact hallow
          · obtain ⟨-, first, last, htraffic, hfirst, hlast⟩ := applies_tcp_iff.mp happlies'
            obtain ⟨rfl, rfl⟩ := Traffic.tcp.inj (htraffic.symm.trans heq)
            exact absurd ⟨name, _, _, hmem, hfirst, hlast⟩ hdenied
          · exact hallow
      refine iff_of_false (by rw [hallow]; decide) ?_
      exact fun h => h.elim hdenied hreply

/-! ### The agreement -/

theorem mem_deniedPorts_range {v : StackConfig} {port : ℤ} :
    (∃ name first last, (name, first, last) ∈ v.deniedPorts ∧ first ≤ port ∧ port ≤ last) ↔
      port = 3000 ∨ (v.serverPortFirst ≤ port ∧ port ≤ v.serverPortLast) ∨ port = 9090 ∨
        9101 ≤ port ∧ port ≤ 9100 + v.clientReplicas := by
  constructor
  · rintro ⟨name, first, last, hmem, hfirst, hlast⟩
    simp only [deniedPorts, List.mem_cons, List.not_mem_nil, or_false, Prod.mk.injEq] at hmem
    rcases hmem with ⟨-, rfl, rfl⟩ | ⟨-, rfl, rfl⟩ | ⟨-, rfl, rfl⟩ | ⟨-, rfl, rfl⟩ <;> omega
  · rintro (h | h | h | h)
    · exact ⟨"grafana", 3000, 3000, by simp [deniedPorts], by omega, by omega⟩
    · exact ⟨"server", _, _, by simp [deniedPorts], h.1, h.2⟩
    · exact ⟨"prometheus", 9090, 9090, by simp [deniedPorts], by omega, by omega⟩
    · exact ⟨"loadgen_prom", _, _, by simp [deniedPorts], h.1, h.2⟩

/-- **When the rules cover the services.** Every port the stack listens on is denied to everyone
outside `my_ip` if and only if the range contains the default of `-port`, or there is nobody
outside. -/
theorem denied_iff (v : StackConfig) :
    (∀ src port, v.myIp.contains src = false → v.ServicePort port →
      v.evaluate (.tcp src port) = .deny) ↔
    (v.serverPortFirst ≤ 8080 ∧ 8080 ≤ v.serverPortLast) ∨ ∀ src, v.myIp.contains src = true := by
  constructor
  · intro h
    by_contra hcond
    obtain ⟨hrange, hsrc⟩ := not_or.mp hcond
    obtain ⟨src, hsrc⟩ := not_forall.mp hsrc
    have houtside : v.myIp.contains src = false := Bool.eq_false_iff.mpr hsrc
    have hmain : v.ServicePort 8080 := Or.inl ((serverListens_iff v 8080).mpr (Or.inl rfl))
    have hdeny := (evaluate_outsider houtside 8080).mp (h src 8080 houtside hmain)
    rw [mem_deniedPorts_range] at hdeny
    omega
  · rintro (hrange | hall) src port houtside hport
    · rw [evaluate_outsider houtside, mem_deniedPorts_range]
      rcases hport with hserver | rfl | rfl | ⟨i, hi, hle, rfl⟩
      · have := (serverListens_iff v port).mp hserver
        omega
      · omega
      · omega
      · rw [replicaPort]
        omega
    · rw [hall src] at houtside
      cases houtside

/-- **The main port is exposed.** With the ports 9000 to 9015, anybody may open a connection to
the server on 8080. -/
theorem main_port_exposed : ¬ ∀ (v : StackConfig) (src : BitVec 32) (port : ℤ),
    v.myIp.contains src = false → v.ServicePort port → v.evaluate (.tcp src port) = .deny := by
  intro h
  have houtside : (Cidr.mk 0xcb007107#32 32).contains 0x08080808#32 = false := by decide
  have hdeny := h ⟨⟨0xcb007107#32, 32⟩, 9000, 16, 4, by decide, by decide, by decide, by decide⟩
    0x08080808#32 8080 houtside (Or.inl ((serverListens_iff _ 8080).mpr (Or.inl rfl)))
  rw [evaluate_outsider houtside, mem_deniedPorts_range] at hdeny
  simp [serverPortLast] at hdeny

end StackConfig

end Millionws
