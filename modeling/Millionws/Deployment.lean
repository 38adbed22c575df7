import Millionws.DialTick
import Millionws.NetworkAcl

/-!
# From the Terraform variables to the connections

Two variables, `server_port_first` and `server_port_count`, decide on which ports the benchmark
runs. They take two ways. On the server they become the text of `-ports`, which `parsePorts` reads
back, and the `PORT_RANGE` of an `iptables` rule. On a client a shell loop makes them into a list of
URLs, which the load generator splits and dials in turn. And in between they are one of the ranges
of the network ACL.

Where the two ways meet again there have to be the same ports: a URL without a listener behind it
loses its share of the connections, and a port without a URL its share of the capacity, since a
client has no more than 64k connections to each. `urls_served` is this agreement, `dials_spread`
what the dial loop makes of it in every run, and `acl_decides` is who can reach a port at all.

## What is deliberately absent

How a client finds the address of the server, and what comes before and after these lines in the
two scripts. A URL is its text: that `ws://host:port/ws` is dialed at `host:port` is for the
library.

## Main definitions

* `StackConfig.clientUrls` — the loop of `user_data_client.sh`
* `StackConfig.loadgenUrls` — what the load generator makes of it
* `StackConfig.untracked` — the `iptables` rule of `user_data_server.sh`

## Main results

* `urls_served` — the URLs are the ports that the server was given
* `dials_spread` — in every run their dials differ by at most one
* `acl_decides` — what the ACL lets in
-/

namespace Millionws

open Strconv FirstMatch Transition

namespace StackConfig

/-! ### The scripts -/

/-- `ws://$SERVER_IP:$p/ws`. -/
def wsUrl (serverIp : List Char) (p : ℤ) : List Char :=
  "ws://".toList ++ serverIp ++ ':' :: itoa p ++ "/ws".toList

/-- `seq ${port_first} $(( ${port_first} + ${port_count} - 1 ))`. -/
def clientPorts (v : StackConfig) : List ℤ :=
  portRange v.serverPortFirst (v.serverPortFirst + v.serverPortCount - 1)

/-- `sed 's/^,//'`. -/
def dropComma (s : List Char) : List Char := if s.head? = some ',' then s.tail else s

/-- `$URLS`. -/
def clientUrls (v : StackConfig) (serverIp : List Char) : List Char :=
  dropComma (v.clientPorts.foldl (fun urls p => urls ++ ',' :: wsUrl serverIp p) [])

/-- `strings.Split(*target, ",")`. -/
def loadgenUrls (v : StackConfig) (serverIp : List Char) : List (List Char) :=
  (v.clientUrls serverIp).splitOn ','

/-- `PORT_RANGE=$(echo "${server_ports}" | tr '-' ':')`. -/
def portRangeArg (v : StackConfig) : List Char :=
  v.serverPorts.map fun c => if c = '-' then ':' else c

/-- `--dport "$PORT_RANGE"` of the rule that exempts connections from tracking: the port is between
the numbers on the two sides of the colon. -/
def untracked (v : StackConfig) (port : ℤ) : Prop :=
  ∃ first last a b, v.portRangeArg = first ++ ':' :: last ∧ ':' ∉ first ∧ ':' ∉ last ∧
    atoi first = .ok a ∧ atoi last = .ok b ∧ a ≤ port ∧ port ≤ b

/-! ### The URLs -/

variable {v : StackConfig} {serverIp : List Char}

theorem comma_notMem_wsUrl (hip : ',' ∉ serverIp) {p : ℤ} (hp : 0 ≤ p) :
    ',' ∉ wsUrl serverIp p := by
  have hdigits : ',' ∉ itoa p := fun hc => absurd (isDigit_of_mem_itoa hp hc) (by decide)
  have hends : ',' ∉ "ws://".toList ∧ ',' ≠ ':' ∧ ',' ∉ "/ws".toList := by decide
  show ',' ∉ "ws://".toList ++ serverIp ++ ':' :: itoa p ++ "/ws".toList
  simp only [List.mem_append, List.mem_cons, not_or]
  exact ⟨⟨⟨hends.1, hip⟩, hends.2.1, hdigits⟩, hends.2.2⟩

theorem wsUrl_injective (serverIp : List Char) : Function.Injective (wsUrl serverIp) := by
  intro p q h
  have hport : "ws://".toList ++ serverIp ++ ':' :: itoa p =
      "ws://".toList ++ serverIp ++ ':' :: itoa q :=
    List.append_cancel_right (show _ ++ "/ws".toList = _ ++ "/ws".toList from h)
  exact itoa_injective (List.cons.inj (List.append_cancel_left hport)).2

theorem mem_clientPorts {p : ℤ} :
    p ∈ v.clientPorts ↔ v.serverPortFirst ≤ p ∧ p ≤ v.serverPortLast := mem_portRange

theorem clientPorts_ne_nil (v : StackConfig) : v.clientPorts ≠ [] := by
  have hcount := v.one_le_count
  exact List.ne_nil_of_mem (mem_clientPorts.mpr ⟨le_rfl, by rw [serverPortLast]; omega⟩)

theorem nodup_clientPorts (v : StackConfig) : v.clientPorts.Nodup := by
  refine List.nodup_range.map ?_
  intro k l h
  simpa using h

/-- The loop puts a comma before every URL. -/
theorem foldl_urls (serverIp : List Char) (ports : List ℤ) (urls : List Char) :
    ports.foldl (fun urls p => urls ++ ',' :: wsUrl serverIp p) urls =
      urls ++ ports.flatMap fun p => ',' :: wsUrl serverIp p := by
  induction ports generalizing urls with
  | nil => simp
  | cons p ports ih => rw [List.foldl_cons, ih, List.flatMap_cons, List.append_assoc]

/-- Splitting at the commas undoes it. -/
theorem splitOn_urls (hip : ',' ∉ serverIp) (p : ℤ) (ports : List ℤ)
    (hports : ∀ q ∈ p :: ports, 0 ≤ q) :
    (wsUrl serverIp p ++ ports.flatMap fun q => ',' :: wsUrl serverIp q).splitOn ',' =
      (p :: ports).map (wsUrl serverIp) := by
  induction ports generalizing p with
  | nil =>
    rw [List.flatMap_nil, List.append_nil]
    exact List.splitOn_eq_singleton (comma_notMem_wsUrl hip (hports p List.mem_cons_self))
  | cons q ports ih =>
    rw [List.flatMap_cons, List.cons_append, List.splitOn_append_cons_self,
      ih q fun r hr => hports r (List.mem_cons_of_mem p hr),
      List.splitOn_eq_singleton (comma_notMem_wsUrl hip (hports p List.mem_cons_self))]
    rfl

/-- **The list of URLs** is one for each port of the range, in order. -/
theorem loadgenUrls_eq (v : StackConfig) (hip : ',' ∉ serverIp) :
    v.loadgenUrls serverIp = v.clientPorts.map (wsUrl serverIp) := by
  obtain ⟨p, rest, hrest⟩ := List.exists_cons_of_ne_nil v.clientPorts_ne_nil
  have hports : ∀ q ∈ p :: rest, 0 ≤ q := by
    intro q hq
    have hmem := mem_clientPorts.mp (hrest ▸ hq : q ∈ v.clientPorts)
    have hfirst := v.one_le_first
    omega
  rw [loadgenUrls, clientUrls, hrest, foldl_urls, List.nil_append, List.flatMap_cons,
    List.cons_append]
  exact splitOn_urls hip p rest hports

theorem length_loadgenUrls (v : StackConfig) (hip : ',' ∉ serverIp) :
    ((v.loadgenUrls serverIp).length : ℤ) = v.serverPortCount := by
  have hcount := v.one_le_count
  rw [loadgenUrls_eq v hip, List.length_map, clientPorts, portRange, List.length_map,
    List.length_range]
  omega

theorem nodup_loadgenUrls (v : StackConfig) (hip : ',' ∉ serverIp) :
    (v.loadgenUrls serverIp).Nodup := by
  rw [loadgenUrls_eq v hip]
  exact v.nodup_clientPorts.map (wsUrl_injective serverIp)

/-- The numbers on the two sides of the colon are the ends of the range. -/
theorem portRangeArg_eq (v : StackConfig) :
    v.portRangeArg = itoa v.serverPortFirst ++ ':' :: itoa v.serverPortLast := by
  have hfirst := v.one_le_first
  have hcount := v.one_le_count
  have hkeep {n : ℤ} (hn : 0 ≤ n) :
      (itoa n).map (fun c => if c = '-' then ':' else c) = itoa n := by
    refine (List.map_congr_left fun c hc => ?_).trans (List.map_id _)
    have hdigit := isDigit_of_mem_itoa hn hc
    rw [if_neg, id_eq]
    rintro rfl
    exact absurd hdigit (by decide)
  have hlast : 0 ≤ v.serverPortLast := by
    rw [serverPortLast]
    omega
  rw [portRangeArg, serverPorts, List.map_append, List.map_cons, hkeep (by omega), hkeep hlast]
  rfl

/-- **What is exempt from tracking** is the range. -/
theorem untracked_of_mem {p : ℤ} (hp : p ∈ v.clientPorts) : v.untracked p := by
  have hfirst := v.one_le_first
  have hcount := v.one_le_count
  have hmax := v.last_le
  obtain ⟨hlow, hhigh⟩ := mem_clientPorts.mp hp
  have hlast : v.serverPortLast = v.serverPortFirst + v.serverPortCount - 1 := rfl
  have hcolon {n : ℤ} (hn : 0 ≤ n) : ':' ∉ itoa n :=
    fun hc => absurd (isDigit_of_mem_itoa hn hc) (by decide)
  exact ⟨_, _, _, _, v.portRangeArg_eq, hcolon (by omega), hcolon (by omega),
    atoi_itoa (by omega) (by omega), atoi_itoa (by omega) (by omega), hlow, hhigh⟩

end StackConfig

open StackConfig

/-- **The URLs are the ports.** For every range of ports: splitting the list that a client builds
gives one URL for each port of the range, in order and without repeats; the server listens on each
of these ports and takes their connections out of tracking; and it listens on no other port but its
default. -/
theorem urls_served (v : StackConfig) (serverIp : List Char) (hip : ',' ∉ serverIp) :
    v.loadgenUrls serverIp = v.clientPorts.map (wsUrl serverIp) ∧
    ((v.loadgenUrls serverIp).length : ℤ) = v.serverPortCount ∧
    (v.loadgenUrls serverIp).Nodup ∧
    (∀ url ∈ v.loadgenUrls serverIp, ∃ p, url = wsUrl serverIp p ∧ v.ServerListens p ∧
      v.untracked p) ∧
    ∀ p, v.ServerListens p → p ≠ defaultPort → wsUrl serverIp p ∈ v.loadgenUrls serverIp := by
  have heq := loadgenUrls_eq v hip
  refine ⟨heq, length_loadgenUrls v hip, nodup_loadgenUrls v hip, ?_, ?_⟩
  · intro url hurl
    rw [heq] at hurl
    obtain ⟨p, hp, rfl⟩ := List.mem_map.mp hurl
    exact ⟨p, rfl, (v.serverListens_iff p).mpr (.inr (mem_clientPorts.mp hp)), untracked_of_mem hp⟩
  · intro p hp hne
    rw [heq]
    refine List.mem_map_of_mem (mem_clientPorts.mpr ?_)
    exact ((v.serverListens_iff p).mp hp).resolve_left hne

/-- Three ports. -/
theorem urls_served_three : ∃ v : StackConfig, v.loadgenUrls "10.0.0.5".toList =
    ["ws://10.0.0.5:9700/ws".toList, "ws://10.0.0.5:9701/ws".toList,
      "ws://10.0.0.5:9702/ws".toList] := by
  refine ⟨⟨⟨0xcb007107#32, 32⟩, 9700, 3, 1, by decide, by decide, by decide, by decide⟩, ?_⟩
  rw [(urls_served _ "10.0.0.5".toList (by decide)).1]
  decide

/-! ### The dials -/

namespace DialLoop

variable {cfg : DialConfig}

theorem balanced_of_run {capacity : ℕ} {acts : List LoopAct} {s : DialLoop}
    (h : run (step cfg) (start capacity) acts = some s) : ∃ entries, Balanced cfg s entries := by
  obtain ⟨entries, hrun⟩ : ∃ entries, run (withMonitor (step cfg) (watchEntries cfg))
      (start capacity, []) acts = some (s, entries) := run_withMonitor _ [] h
  exact ⟨entries, run_invariant (P := fun p => Balanced cfg p.1 p.2) (fun _ _ _ h ht => h.step ht)
    ⟨rfl, rfl⟩ hrun⟩

/-- The dials to a URL are the entries of the walk at its place. -/
theorem Balanced.countP_url {s : DialLoop} {entries : List ℕ} (h : Balanced cfg s entries)
    (hnodup : cfg.urls.Nodup) {e : ℕ} {url : String} (he : cfg.urls[e]? = some url) :
    s.shared.dials.countP (fun g => g.url = url) = entries.count e := by
  have hmap : s.shared.dials.countP (fun g => g.url = url) =
      (s.shared.dials.map fun g => some g.url).countP fun u => u = some url := by
    rw [List.countP_map]
    exact List.countP_congr fun g _ => by simp
  rw [hmap, h.urls, List.countP_map, List.count_eq_countP]
  refine List.countP_congr fun f _ => ?_
  simp only [Function.comp, decide_eq_true_eq, beq_iff_eq]
  constructor
  · intro hf
    exact (List.getElem?_inj (List.getElem?_eq_some_iff.mp hf).1 hnodup).mp (hf.trans he.symm)
  · rintro rfl
    exact he

/-- **The share of a URL** is that of the whole, rounded up or down. -/
theorem Balanced.share {s : DialLoop} {entries : List ℕ} (h : Balanced cfg s entries)
    (hnodup : cfg.urls.Nodup) {url : String} (hurl : url ∈ cfg.urls) :
    s.shared.dials.length < cfg.urls.length * (s.shared.dials.countP (fun g => g.url = url) + 1) ∧
    cfg.urls.length * s.shared.dials.countP (fun g => g.url = url) <
      s.shared.dials.length + cfg.urls.length := by
  obtain ⟨e, he⟩ := List.mem_iff_getElem?.mp hurl
  have hlt := (List.getElem?_eq_some_iff.mp he).1
  have hpos : 0 < cfg.urls.length := Nat.zero_lt_of_lt hlt
  have hlength : s.shared.dials.length = s.next := by
    have hmap := congrArg List.length h.urls
    rw [List.length_map, List.length_map, h.eq_walk,
      CyclicWalk.length_walk (by rwa [List.length_range])] at hmap
    exact hmap
  have hcount := CyclicWalk.count_walk List.nodup_range (List.getElem?_range hlt) 0 s.next
  rw [List.length_range, ← h.eq_walk, ← h.countP_url hnodup he] at hcount
  have hdivmod := Nat.div_add_mod s.next cfg.urls.length
  have hmod := Nat.mod_lt s.next hpos
  rw [hlength, hcount]
  split_ifs with hgap
  · simp only [Nat.mul_add, Nat.mul_one]
    omega
  · simp only [Nat.add_zero, Nat.mul_add, Nat.mul_one]
    omega

end DialLoop

/-- The arguments of `dialLoop` in a replica of the stack. -/
def StackConfig.dialConfig (v : StackConfig) (serverIp : List Char) (target rate : ℤ)
    (inflight : ℕ) : DialConfig where
  urls := (v.loadgenUrls serverIp).map String.ofList
  urls_ne := by simp [loadgenUrls, List.splitOn_ne_nil]
  target := target
  rate := rate
  inflight := inflight

/-- The share of a port, in a replica of which the walk over its URLs is known. -/
theorem StackConfig.port_share {v : StackConfig} {serverIp : List Char} (hip : ',' ∉ serverIp)
    {target rate : ℤ} {inflight : ℕ} {s : DialLoop} {entries : List ℕ}
    (h : DialLoop.Balanced (v.dialConfig serverIp target rate inflight) s entries)
    {p : ℤ} (hp : p ∈ v.clientPorts) :
    let dials := s.shared.dials.countP fun g => g.url = String.ofList (wsUrl serverIp p)
    (s.shared.dials.length : ℤ) < v.serverPortCount * (dials + 1) ∧
    v.serverPortCount * dials < s.shared.dials.length + v.serverPortCount := by
  intro dials
  have hurls : (v.dialConfig serverIp target rate inflight).urls =
      (v.loadgenUrls serverIp).map String.ofList := rfl
  have hmem : wsUrl serverIp p ∈ v.loadgenUrls serverIp := by
    rw [loadgenUrls_eq v hip]
    exact List.mem_map_of_mem hp
  have hshare := h.share
    (hurls ▸ (nodup_loadgenUrls v hip).map fun _ _ h => String.ofList_injective h)
    (hurls ▸ List.mem_map_of_mem hmem)
  rw [hurls, List.length_map] at hshare
  rw [← length_loadgenUrls v hip]
  exact_mod_cast hshare

/-- **The dials are spread over the ports.** In every run of the dial loop of a replica, whatever
dials fail and connections close, every port that the server was given has its share of the dials
made so far, rounded up or down. -/
theorem dials_spread (v : StackConfig) (serverIp : List Char) (hip : ',' ∉ serverIp)
    (target rate : ℤ) (inflight capacity : ℕ) {acts : List LoopAct} {s : DialLoop}
    (hrun : run (DialLoop.step (v.dialConfig serverIp target rate inflight))
      (DialLoop.start capacity) acts = some s) {p : ℤ} (hp : p ∈ v.clientPorts) :
    let dials := s.shared.dials.countP fun g => g.url = String.ofList (wsUrl serverIp p)
    (s.shared.dials.length : ℤ) < v.serverPortCount * (dials + 1) ∧
    v.serverPortCount * dials < s.shared.dials.length + v.serverPortCount := by
  obtain ⟨entries, h⟩ := DialLoop.balanced_of_run hrun
  exact StackConfig.port_share hip h hp

/-- Five dials go to two ports, one of them in vain: three to the first and two to the second. -/
theorem dials_spread_five : ∃ s : DialLoop, s.shared.dials.length = 5 ∧
    5 < 2 * (s.shared.dials.countP (fun g => g.url =
      String.ofList (wsUrl "10.0.0.6".toList 9801)) + 1) ∧
    2 * s.shared.dials.countP (fun g => g.url =
      String.ofList (wsUrl "10.0.0.6".toList 9801)) < 5 + 2 := by
  let v : StackConfig :=
    ⟨⟨0xcb007108#32, 32⟩, 9800, 2, 1, by decide, by decide, by decide, by decide⟩
  have hrun : (run (DialLoop.step (v.dialConfig "10.0.0.6".toList 9 300 5)) (DialLoop.start 6)
      [.tick, .loop, .loop, .loop, .loop, .loop, .loop, .env (.fail 0), .loop, .loop, .loop, .loop,
        .tick, .loop, .loop, .loop, .loop, .loop, .loop]).any
      (fun s => s.shared.dials.length = 5) = true := by decide
  obtain ⟨s, hs, hlen⟩ := (Option.any_eq_true _ _).mp hrun
  have hlen := of_decide_eq_true hlen
  have hmem : 9801 ∈ v.clientPorts := by decide
  obtain ⟨hlow, hhigh⟩ := dials_spread v "10.0.0.6".toList (by decide) 9 300 5 6 hs hmem
  have hcount : v.serverPortCount = 2 := rfl
  rw [hlen, hcount] at hlow hhigh
  exact ⟨s, hlen, by exact_mod_cast hlow, by exact_mod_cast hhigh⟩

/-! ### The ACL -/

namespace StackConfig

/-- What the rules are for: the operator reaches the operator's ports, replies come in where no
service is, path MTU discovery works, and nothing else comes in. -/
def Admits (v : StackConfig) : Packet → Prop
  | .tcp src port =>
    v.myIp.contains src = true ∧ port ∈ operatorPorts.map Prod.snd ∨
      1024 ≤ port ∧ port ≤ 65535 ∧
        ∀ name first last, (name, first, last) ∈ v.deniedPorts → port < first ∨ last < port
  | .icmp _ type code => type = 3 ∧ code = 4
  | .other _ _ => False

/-- The rules are listed in the order in which they are tried. -/
theorem evaluate_eq_find? (v : StackConfig) (p : Packet) : v.evaluate p =
    ((v.ingress.find? fun r => r.applies p).map AclRule.action).getD .deny := by
  have hsorted : (v.ingress.insertionSort fun r r' => r.ruleNo ≤ r'.ruleNo) = v.ingress := by
    rw [ingress_eq]
    rfl
  rw [evaluate, firstMatch, hsorted]

/-- One rule after the other. -/
theorem find?_action (r : AclRule) (rules : List AclRule) (p : Packet) :
    (((r :: rules).find? fun r => r.applies p).map AclRule.action).getD .deny =
      if r.applies p = true then r.action
      else ((rules.find? fun r => r.applies p).map AclRule.action).getD .deny := by
  rw [List.find?_cons]
  cases r.applies p <;> rfl

/-- **What the operator may reach**: the operator's ports, and what outsiders may. -/
theorem evaluate_operator {v : StackConfig} {src : BitVec 32} (hsrc : v.myIp.contains src = true)
    (port : ℤ) : v.evaluate (.tcp src port) = .deny ↔
      ((∃ name first last, (name, first, last) ∈ v.deniedPorts ∧ first ≤ port ∧ port ≤ last) ∨
        port < 1024 ∨ 65535 < port) ∧ port ≠ 22 ∧ port ≠ 3000 ∧ port ≠ 9090 := by
  rw [evaluate_eq_find?, ingress_eq, mem_deniedPorts_range]
  simp only [find?_action, List.find?_nil, Option.map_none, Option.getD_none]
  simp only [AclRule.applies, everyone_contains, hsrc, Bool.true_and, Bool.and_eq_true,
    decide_eq_true_eq, Bool.false_eq_true, if_false]
  split_ifs <;> simp only [true_iff, false_iff] <;> omega

theorem evaluate_icmp (v : StackConfig) (src : BitVec 32) (type code : ℕ) :
    v.evaluate (.icmp src type code) = .allow ↔ type = 3 ∧ code = 4 := by
  rw [evaluate_eq_find?, ingress_eq]
  simp only [find?_action, List.find?_nil, Option.map_none, Option.getD_none]
  simp only [AclRule.applies, everyone_contains, Bool.true_and, Bool.and_eq_true,
    decide_eq_true_eq, Bool.false_eq_true, if_false]
  split_ifs <;> simp only [true_iff, false_iff] <;> omega

/-- No rule is about any other protocol. -/
theorem evaluate_other (v : StackConfig) (src : BitVec 32) (protocol : OtherProtocol) :
    v.evaluate (.other src protocol) = .deny := by
  have hnone : firstMatch AclRule.ruleNo AclRule.applies v.ingress (.other src protocol) = none :=
    firstMatch_eq_none_iff.mpr fun _ _ => rfl
  rw [evaluate, hnone]
  rfl

end StackConfig

/-- **What the ACL lets in**, from anybody and for every choice of the variables. -/
theorem acl_decides (v : StackConfig) (p : Packet) : v.evaluate p = .allow ↔ v.Admits p := by
  have hallow : v.evaluate p = .allow ↔ ¬ v.evaluate p = .deny := by
    cases v.evaluate p <;> decide
  cases p with
  | icmp src type code => exact evaluate_icmp v src type code
  | other src protocol =>
    rw [hallow, evaluate_other]
    simp [Admits]
  | tcp src port =>
    have hfree : (∀ name first last, (name, first, last) ∈ v.deniedPorts →
        port < first ∨ last < port) ↔
        ¬ ∃ name first last, (name, first, last) ∈ v.deniedPorts ∧ first ≤ port ∧ port ≤ last := by
      simp only [not_exists, not_and_or, imp_iff_not_or, not_le]
    have hports : port ∈ operatorPorts.map Prod.snd ↔ port = 22 ∨ port = 3000 ∨ port = 9090 := by
      simp [operatorPorts]
    rw [hallow, Admits, hfree, hports]
    by_cases hdenied : ∃ name first last, (name, first, last) ∈ v.deniedPorts ∧ first ≤ port ∧
        port ≤ last
    · cases hsrc : v.myIp.contains src with
      | true =>
        rw [evaluate_operator hsrc]
        simp only [hdenied, true_or, true_and, not_true_eq_false, and_false, or_false]
        omega
      | false =>
        rw [evaluate_outsider hsrc]
        simp [hdenied]
    · cases hsrc : v.myIp.contains src with
      | true =>
        rw [evaluate_operator hsrc]
        simp only [hdenied, false_or, true_and, not_false_eq_true, and_true]
        omega
      | false =>
        rw [evaluate_outsider hsrc]
        simp only [hdenied, false_or, Bool.false_eq_true, false_and, not_false_eq_true, and_true]
        omega

end Millionws
