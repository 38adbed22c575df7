import Mathlib.Data.Finset.Insert
import Mathlib.Data.List.DropRight
import Millionws.Strconv

/-!
# The ports the server listens on

`parsePorts` and `listenAddrs` in `main.go`: the text of the `-ports` flag becomes a list of ports,
and the main port and those become a list of addresses without repeats.

## Strings

A string is the list of its characters. A byte that is not valid UTF-8 stands for U+FFFD here, as
it does for `TrimSpace`; it is no space, comma, dash or digit either way.

## Errors

An error carries the values its text is made of, and `message` is the text; the verb `%q` is the
parameter `quote`, since nothing depends on how a string is quoted.

## Main definitions

* `parsePorts`, `PortsError` — the flag
* `joinHostPort`, `listenAddrs` — the addresses

## Main results

* `parsePorts_itoa_range` — the text of a range is read as that range
* `mem_listenAddrs_iff` — the addresses are those of the main port and the parsed ones
* `listenAddrs_complete` — each once, in the order in which they occur first
-/

namespace Millionws

open Strconv

/-! ### The flag -/

/-- What `parsePorts` reports. -/
inductive PortsError where
  /-- `Atoi` failed. -/
  | badNumber (s : List Char) (err : NumError)
  | outOfRange (s item : List Char)
  deriving DecidableEq

/-- The text of an error, given the verb `%q`. -/
def PortsError.message (quote : List Char → String) : PortsError → String
  | badNumber s err =>
    "bad -ports " ++ quote s ++ ": strconv." ++ err.func ++ ": parsing " ++ quote err.num ++ ": " ++
      match err.err with
      | .invalidSyntax => "invalid syntax"
      | .valueOutOfRange => "value out of range"
  | outOfRange s item => "bad -ports " ++ quote s ++ ": " ++ quote item ++ " out of range"

/-- `unicode.IsSpace`. -/
def isSpace (c : Char) : Bool :=
  (9 ≤ c.toNat && c.toNat ≤ 13) || c.toNat = 0x20 || c.toNat = 0x85 || c.toNat = 0xa0 ||
    c.toNat = 0x1680 || (0x2000 ≤ c.toNat && c.toNat ≤ 0x200a) || c.toNat = 0x2028 ||
    c.toNat = 0x2029 || c.toNat = 0x202f || c.toNat = 0x205f || c.toNat = 0x3000

/-- `strings.TrimSpace`. -/
def trimSpace (s : List Char) : List Char := (s.dropWhile isSpace).rdropWhile isSpace

/-- `strconv.Atoi` with its error wrapped. -/
def readPort (s num : List Char) : Except PortsError ℤ := (atoi num).mapError (.badNumber s)

/-- The ports `start, start + 1, …, hi`. -/
def portRange (start hi : ℤ) : List ℤ :=
  (List.range (hi + 1 - start).toNat).map fun k : ℕ => start + (k : ℤ)

/-- The range check, and the ports if it passes. -/
def checkRange (s item : List Char) (start hi : ℤ) : Except PortsError (List ℤ) :=
  if start < 1 ∨ hi > 65535 ∨ hi < start then .error (.outOfRange s item)
  else .ok (portRange start hi)

/-- The ports of an item that is not empty. The end of a range is read before its start. -/
def parseItem (s item : List Char) : Except PortsError (List ℤ) :=
  match item.dropWhile (· ≠ '-') with
  | [] => do
    let start ← readPort s item
    checkRange s item start start
  | _ :: rest => do
    let hi ← readPort s rest
    let start ← readPort s (item.takeWhile (· ≠ '-'))
    checkRange s item start hi

/-- One turn of the loop. -/
def addItem (s : List Char) (out : List ℤ) (item : List Char) : Except PortsError (List ℤ) :=
  if trimSpace item = [] then .ok out
  else do
    let ports ← parseItem s (trimSpace item)
    .ok (out ++ ports)

/-- `parsePorts`. -/
def parsePorts (s : List Char) : Except PortsError (List ℤ) :=
  (s.splitOn ',').foldlM (addItem s) []

theorem mem_portRange {start hi p : ℤ} : p ∈ portRange start hi ↔ start ≤ p ∧ p ≤ hi := by
  rw [portRange, List.mem_map]
  constructor
  · rintro ⟨k, hk, rfl⟩
    have := List.mem_range.mp hk
    omega
  · rintro ⟨hlow, hhigh⟩
    exact ⟨(p - start).toNat, List.mem_range.mpr (by omega), by omega⟩

/-! ### Reading back a range -/

/-- A string without spaces is not trimmed. -/
theorem trimSpace_eq_self {s : List Char} (h : ∀ c ∈ s, isSpace c = false) : trimSpace s = s := by
  have hdrop : s.dropWhile isSpace = s := by
    cases s with
    | nil => rfl
    | cons c s => rw [List.dropWhile_cons_of_neg (by simp [h c List.mem_cons_self])]
  rw [trimSpace, hdrop, List.rdropWhile_eq_self_iff]
  intro hne
  simp [h _ (List.getLast_mem hne)]

theorem isDigit_of_mem_itoa {n : ℤ} (hn : 0 ≤ n) {c : Char} (hc : c ∈ itoa n) :
    c.isDigit = true := by
  rw [itoa, if_neg (by omega)] at hc
  exact Nat.isDigit_of_mem_toDigits (by decide) (by decide) hc

theorem isSpace_of_isDigit {c : Char} (hc : c.isDigit = true) : isSpace c = false := by
  have hrange : 48 ≤ c.toNat ∧ c.toNat ≤ 57 := by
    simpa [Char.isDigit, UInt32.le_iff_toNat_le] using hc
  simp [isSpace]
  omega

theorem readPort_itoa {n : ℤ} (hlow : 1 ≤ n) (hhigh : n ≤ 65535) (s : List Char) :
    readPort s (itoa n) = .ok n := by
  rw [readPort, atoi_itoa (by omega) (by omega)]
  rfl

/-- An item with a dash, split at the first. -/
theorem parseItem_dash {lo : List Char} (hlo : '-' ∉ lo) (s hi : List Char) :
    parseItem s (lo ++ '-' :: hi) = (do
      let hi' ← readPort s hi
      let start ← readPort s lo
      checkRange s (lo ++ '-' :: hi) start hi') := by
  have hdash : ∀ c ∈ lo, decide (c ≠ '-') = true := fun c hc =>
    decide_eq_true fun h => hlo (h ▸ hc)
  have htake : (lo ++ '-' :: hi).takeWhile (· ≠ '-') = lo := by
    rw [List.takeWhile_append_of_pos hdash, List.takeWhile_cons_of_neg (by simp), List.append_nil]
  have hdrop : (lo ++ '-' :: hi).dropWhile (· ≠ '-') = '-' :: hi := by
    rw [List.dropWhile_append_of_pos hdash, List.dropWhile_cons_of_neg (by simp)]
  rw [parseItem, htake, hdrop]

/-- **The text of a range is read as that range.** -/
theorem parsePorts_itoa_range {first last : ℤ} (hfirst : 1 ≤ first) (hle : first ≤ last)
    (hlast : last ≤ 65535) :
    parsePorts (itoa first ++ '-' :: itoa last) = .ok (portRange first last) := by
  have hchars (c : Char) (hc : c ∈ itoa first ++ '-' :: itoa last) :
      c.isDigit = true ∨ c = '-' := by
    rcases List.mem_append.mp hc with hc | hc
    · exact Or.inl (isDigit_of_mem_itoa (by omega) hc)
    · rcases List.mem_cons.mp hc with rfl | hc
      · exact Or.inr rfl
      · exact Or.inl (isDigit_of_mem_itoa (by omega) hc)
  have hsplit : (itoa first ++ '-' :: itoa last).splitOn ',' = [itoa first ++ '-' :: itoa last] :=
    List.splitOn_eq_singleton fun hc => by
      rcases hchars _ hc with h | h
      · exact absurd h (by decide)
      · exact absurd h (by decide)
  have htrim : trimSpace (itoa first ++ '-' :: itoa last) = itoa first ++ '-' :: itoa last :=
    trimSpace_eq_self fun c hc => by
      rcases hchars c hc with h | rfl
      · exact isSpace_of_isDigit h
      · decide
  have hdash : '-' ∉ itoa first := fun hc =>
    absurd (isDigit_of_mem_itoa (by omega) hc) (by decide)
  have hrange : ¬ (first < 1 ∨ last > 65535 ∨ last < first) := by omega
  have hitem (s : List Char) :
      parseItem s (itoa first ++ '-' :: itoa last) = .ok (portRange first last) := by
    rw [parseItem_dash hdash, readPort_itoa (by omega) hlast,
      readPort_itoa hfirst (by omega)]
    exact if_neg hrange
  rw [parsePorts, hsplit, List.foldlM_cons, addItem, htrim, hitem, if_neg (by simp)]
  rfl

/-! ### The addresses -/

/-- `net.JoinHostPort`. -/
def joinHostPort (host port : List Char) : List Char :=
  if ':' ∈ host then '[' :: host ++ ']' :: ':' :: port else host ++ ':' :: port

/-- The loop body of `listenAddrs`, on the ports seen and the addresses so far. -/
def addAddr (host : List Char) (st : Finset ℤ × List (List Char)) (p : ℤ) :
    Finset ℤ × List (List Char) :=
  if p ∈ st.1 then st else (insert p st.1, st.2 ++ [joinHostPort host (itoa p)])

/-- `listenAddrs`. -/
def listenAddrs (host : List Char) (port : ℤ) (extra : List Char) :
    Except PortsError (List (List Char)) := do
  let more ← parsePorts extra
  .ok ((port :: more).foldl (addAddr host) (∅, [])).2

theorem joinHostPort_injective (host : List Char) : Function.Injective (joinHostPort host) := by
  intro p q h
  rw [joinHostPort, joinHostPort] at h
  split_ifs at h
  · simpa using h
  · simpa using h

/-- **What the loop keeps**: the ports that were not seen, each where it occurs first. -/
theorem foldl_addAddr (host : List Char) (ps : List ℤ) (st : Finset ℤ × List (List Char)) :
    ∃ qs : List ℤ,
      (ps.foldl (addAddr host) st).2 = st.2 ++ qs.map (fun q => joinHostPort host (itoa q)) ∧
      (∀ q, q ∈ qs ↔ q ∈ ps ∧ q ∉ st.1) ∧
      qs.Pairwise fun p q => ps.idxOf p < ps.idxOf q := by
  induction ps generalizing st with
  | nil => exact ⟨[], by simp, by simp, List.Pairwise.nil⟩
  | cons p ps ih =>
    -- every port but `p` occurs one place later than in the rest
    have hlater {qs : List ℤ} (hp : p ∉ qs) (h : qs.Pairwise fun a b => ps.idxOf a < ps.idxOf b) :
        qs.Pairwise fun a b => (p :: ps).idxOf a < (p :: ps).idxOf b := by
      refine h.imp_of_mem ?_
      intro a b ha hb hlt
      have hpa : p ≠ a := fun heq => hp (heq ▸ ha)
      have hpb : p ≠ b := fun heq => hp (heq ▸ hb)
      rw [List.idxOf_cons_ne _ hpa, List.idxOf_cons_ne _ hpb]
      exact Nat.succ_lt_succ hlt
    rw [List.foldl_cons, addAddr]
    split_ifs with hseen
    · obtain ⟨qs, hqs, hmem, hpair⟩ := ih st
      refine ⟨qs, hqs, ?_, hlater (fun hp => ((hmem p).mp hp).2 hseen) hpair⟩
      intro q
      rw [hmem, List.mem_cons]
      constructor
      · rintro ⟨hq, hnew⟩
        exact ⟨Or.inr hq, hnew⟩
      · rintro ⟨hq, hnew⟩
        exact ⟨hq.resolve_left fun heq => hnew (heq ▸ hseen), hnew⟩
    · obtain ⟨qs, hqs, hmem, hpair⟩ := ih (insert p st.1, st.2 ++ [joinHostPort host (itoa p)])
      have hp : p ∉ qs := fun hp => ((hmem p).mp hp).2 (Finset.mem_insert_self p _)
      refine ⟨p :: qs, by rw [hqs]; simp, ?_, List.pairwise_cons.mpr ⟨?_, hlater hp hpair⟩⟩
      · intro q
        rw [List.mem_cons, List.mem_cons, hmem, Finset.mem_insert, not_or]
        by_cases hqp : q = p
        · simp [hqp, hseen]
        · simp [hqp]
      · intro q hq
        have hpq : p ≠ q := fun heq => hp (heq ▸ hq)
        rw [List.idxOf_cons_self, List.idxOf_cons_ne _ hpq]
        exact Nat.succ_pos _

/-- The addresses, for a flag that is accepted. -/
theorem listenAddrs_eq_ok {extra : List Char} {more : List ℤ} (h : parsePorts extra = .ok more)
    (host : List Char) (port : ℤ) :
    ∃ ps : List ℤ, listenAddrs host port extra = .ok (ps.map fun p => joinHostPort host (itoa p)) ∧
      (∀ p, p ∈ ps ↔ p = port ∨ p ∈ more) ∧
      ps.Pairwise fun p q => (port :: more).idxOf p < (port :: more).idxOf q := by
  obtain ⟨ps, hps, hmem, hpair⟩ := foldl_addAddr host (port :: more) (∅, [])
  refine ⟨ps, ?_, ?_, hpair⟩
  · rw [listenAddrs, h, ← List.nil_append (ps.map _), ← hps]
    rfl
  · intro p
    rw [hmem, List.mem_cons]
    exact and_iff_left (Finset.notMem_empty p)

/-- **The ports that are served** are the main one and the parsed ones. -/
theorem mem_listenAddrs_iff {host extra : List Char} {port : ℤ} {more : List ℤ}
    (h : parsePorts extra = .ok more) (p : ℤ) :
    (∃ addrs, listenAddrs host port extra = .ok addrs ∧ joinHostPort host (itoa p) ∈ addrs) ↔
      p = port ∨ p ∈ more := by
  obtain ⟨ps, haddrs, hmem, -⟩ := listenAddrs_eq_ok h host port
  rw [haddrs, ← hmem]
  constructor
  · rintro ⟨addrs, rfl | _, hp⟩
    obtain ⟨q, hq, heq⟩ := List.mem_map.mp hp
    rwa [← itoa_injective (joinHostPort_injective host heq)]
  · intro hp
    exact ⟨_, rfl, List.mem_map.mpr ⟨p, hp, rfl⟩⟩

/-- **Nothing is lost and nothing repeated.** `listenAddrs` fails exactly when `parsePorts` does;
otherwise its addresses are different texts, the main port's first, for the main port and the
parsed ones in the order in which they occur first. -/
theorem listenAddrs_complete (host : List Char) (port : ℤ) (extra : List Char) :
    (∀ e, listenAddrs host port extra = .error e ↔ parsePorts extra = .error e) ∧
    ∀ addrs, listenAddrs host port extra = .ok addrs → ∃ more ps : List ℤ,
      parsePorts extra = .ok more ∧ addrs = ps.map (fun p => joinHostPort host (itoa p)) ∧
      addrs.Nodup ∧ addrs.head? = some (joinHostPort host (itoa port)) ∧
      (∀ p, p ∈ ps ↔ p = port ∨ p ∈ more) ∧
      ps.Pairwise fun p q => (port :: more).idxOf p < (port :: more).idxOf q := by
  cases hparse : parsePorts extra with
  | error e =>
    have herror : listenAddrs host port extra = .error e := by
      rw [listenAddrs, hparse]
      rfl
    rw [herror]
    exact ⟨fun _ => by simp, nofun⟩
  | ok more =>
    obtain ⟨ps, haddrs, hmem, hpair⟩ := listenAddrs_eq_ok hparse host port
    rw [haddrs]
    refine ⟨fun _ => by simp, ?_⟩
    rintro addrs ⟨⟩
    have hnodup : ps.Nodup := hpair.imp fun hlt heq => absurd (heq ▸ hlt) (lt_irrefl _)
    have hinj : Function.Injective fun p => joinHostPort host (itoa p) :=
      (joinHostPort_injective host).comp itoa_injective
    refine ⟨more, ps, rfl, rfl, hnodup.map hinj, ?_, hmem, hpair⟩
    -- no port occurs before the main one
    have hport : port ∈ ps := (hmem port).mpr (Or.inl rfl)
    cases ps with
    | nil => cases hport
    | cons p ps =>
      rcases List.mem_cons.mp hport with rfl | hport
      · rfl
      · have hlt := (List.pairwise_cons.mp hpair).1 port hport
        rw [List.idxOf_cons_self] at hlt
        exact absurd hlt (Nat.not_lt_zero _)

end Millionws
