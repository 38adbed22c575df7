import Mathlib.Data.List.Forall2
import Millionws.Ports

/-!
# What the `-ports` flag means

The comment on `parsePorts` gives one example and says that anything but an empty item is an
error. This module says which strings those are, without reading one: an item is empty, a numeral
or two numerals with a dash between them, and it means the ports from the first to the second.

`Atoi` takes a minus sign as well, and the loop looks for the first dash only. Neither lets a
string in that the grammar leaves out. A number with a minus sign is no port; after the end of a
range it is below its start; and a second dash leaves something that is no number.

## Main definitions

* `PortItem` — an item, and the ports it means

## Main results

* `parseItem_eq_ok_iff` — one item is read as what it means
* `parsePorts_eq_ok_iff` — and so is the flag
* `parsePorts_grammar` — exactly which flags are accepted, and as what
-/

namespace Millionws

open Strconv

/-! ### The grammar -/

/-- An item of the flag without the white space around it, and the ports it means. -/
inductive PortItem : List Char → List ℤ → Prop
  | empty : PortItem [] []
  | single {w : List Char} {n : ℕ} (hw : Numeral w n) (hlow : 1 ≤ n) (hhigh : n ≤ 65535) :
    PortItem w [(n : ℤ)]
  | range {w w' : List Char} {n m : ℕ} (hw : Numeral w n) (hw' : Numeral w' m) (hlow : 1 ≤ n)
    (hle : n ≤ m) (hhigh : m ≤ 65535) :
    PortItem (w ++ '-' :: w') ((List.range' n (m + 1 - n)).map Nat.cast)

theorem dash_notMem_of_numeral {w : List Char} {n : ℕ} (h : Numeral w n) : '-' ∉ w := by
  obtain ⟨ds, hw, -, hdigits, -⟩ := h
  intro hdash
  have hds : '-' ∈ ds := by
    rcases hw with rfl | rfl
    · exact hdash
    · exact (List.mem_cons.mp hdash).resolve_left (by decide)
  exact absurd (hdigits _ hds) (by decide)

theorem ne_nil_of_numeral {w : List Char} {n : ℕ} (h : Numeral w n) : w ≠ [] := by
  obtain ⟨ds, rfl | rfl, hne, -, -⟩ := h
  · exact hne
  · exact List.cons_ne_nil _ _

theorem eq_nil_of_portItem {w : List Char} {ports : List ℤ} (h : PortItem w ports) (hw : w = []) :
    ports = [] := by
  cases h with
  | empty => rfl
  | single hn => exact absurd hw (ne_nil_of_numeral hn)
  | range => exact absurd hw (by simp)

/-! ### One item -/

/-- When a computation succeeds, its parts do. -/
theorem bind_eq_ok_iff {ε α β : Type} {m : Except ε α} {k : α → Except ε β} {v : β} :
    (m >>= k) = .ok v ↔ ∃ x, m = .ok x ∧ k x = .ok v := by
  cases m with
  | error e => exact ⟨nofun, nofun⟩
  | ok x => simp [bind, Except.bind]

theorem readPort_eq_ok_iff {s num : List Char} {v : ℤ} :
    readPort s num = .ok v ↔ atoi num = .ok v := by
  rw [readPort]
  cases atoi num <;> simp [Except.mapError]

theorem checkRange_eq_ok_iff {s item : List Char} {start hi : ℤ} {ports : List ℤ} :
    checkRange s item start hi = .ok ports ↔
      1 ≤ start ∧ start ≤ hi ∧ hi ≤ 65535 ∧ ports = portRange start hi := by
  rw [checkRange]
  split_ifs with h
  · exact ⟨nofun, fun hrange => absurd h (by omega)⟩
  · rw [Except.ok.injEq, eq_comm]
    exact ⟨fun hports => ⟨by omega, by omega, by omega, hports⟩, fun hrange => hrange.2.2.2⟩

theorem portRange_natCast {n m : ℕ} :
    portRange n m = (List.range' n (m + 1 - n)).map Nat.cast := by
  have hlen : ((m : ℤ) + 1 - n).toNat = m + 1 - n := by omega
  rw [portRange, hlen, List.range'_eq_map_range, List.map_map]
  refine List.map_congr_left ?_
  intro k _
  simp

theorem portRange_self (n : ℤ) : portRange n n = [n] := by
  simp [portRange]

/-- An item without a dash is a single number. -/
theorem parseItem_of_dash_notMem {item : List Char} (h : '-' ∉ item) (s : List Char) :
    parseItem s item = (do
      let start ← readPort s item
      checkRange s item start start) := by
  have hdrop : item.dropWhile (· ≠ '-') = [] := by
    rw [List.dropWhile_eq_nil_iff]
    exact fun c hc => decide_eq_true fun hdash => h (hdash ▸ hc)
  rw [parseItem, hdrop]

/-- What is read is an item of the grammar. -/
theorem portItem_of_parseItem {s item : List Char} {ports : List ℤ}
    (h : parseItem s item = .ok ports) : PortItem item ports := by
  by_cases hdash : '-' ∈ item
  · obtain ⟨lo, hi, rfl, hlo⟩ := List.eq_append_cons_of_mem hdash
    rw [parseItem_dash hlo] at h
    obtain ⟨v', hv', h⟩ := bind_eq_ok_iff.mp h
    obtain ⟨v, hv, h⟩ := bind_eq_ok_iff.mp h
    obtain ⟨hlow, hle, hhigh, rfl⟩ := checkRange_eq_ok_iff.mp h
    -- both ends are positive, so neither has a minus sign
    obtain ⟨-, n, hn, rfl⟩ := (atoi_eq_ok_iff_of_pos (by omega)).mp (readPort_eq_ok_iff.mp hv)
    obtain ⟨-, m, hm, rfl⟩ := (atoi_eq_ok_iff_of_pos (by omega)).mp (readPort_eq_ok_iff.mp hv')
    rw [portRange_natCast]
    exact .range hn hm (by omega) (by omega) (by omega)
  · rw [parseItem_of_dash_notMem hdash] at h
    obtain ⟨v, hv, h⟩ := bind_eq_ok_iff.mp h
    obtain ⟨hlow, -, hhigh, rfl⟩ := checkRange_eq_ok_iff.mp h
    obtain ⟨-, n, hn, rfl⟩ := (atoi_eq_ok_iff_of_pos (by omega)).mp (readPort_eq_ok_iff.mp hv)
    rw [portRange_self]
    exact .single hn (by omega) (by omega)

/-- **One item is read as what it means.** -/
theorem parseItem_eq_ok_iff {s item : List Char} {ports : List ℤ} (hne : item ≠ []) :
    parseItem s item = .ok ports ↔ PortItem item ports := by
  refine ⟨portItem_of_parseItem, ?_⟩
  have hread {w : List Char} {n : ℕ} (hw : Numeral w n) (hlow : 1 ≤ n) (hhigh : n ≤ 65535) :
      readPort s w = .ok n :=
    readPort_eq_ok_iff.mpr ((atoi_eq_ok_iff_of_pos (by omega)).mpr ⟨by omega, n, hw, rfl⟩)
  intro h
  cases h with
  | empty => exact absurd rfl hne
  | single hw hlow hhigh =>
    rw [parseItem_of_dash_notMem (dash_notMem_of_numeral hw), hread hw hlow hhigh]
    exact checkRange_eq_ok_iff.mpr ⟨by omega, le_rfl, by omega, (portRange_self _).symm⟩
  | range hw hw' hlow hle hhigh =>
    rw [parseItem_dash (dash_notMem_of_numeral hw), hread hw' (by omega) hhigh,
      hread hw hlow (by omega)]
    exact checkRange_eq_ok_iff.mpr ⟨by omega, by omega, by omega, portRange_natCast.symm⟩

/-! ### The flag -/

/-- One turn of the loop appends the ports of its item. -/
theorem addItem_eq_ok_iff {s item : List Char} {out out' : List ℤ} :
    addItem s out item = .ok out' ↔
      ∃ ports, PortItem (trimSpace item) ports ∧ out' = out ++ ports := by
  rw [addItem]
  split_ifs with hempty
  · rw [hempty, Except.ok.injEq, eq_comm]
    constructor
    · rintro rfl
      exact ⟨[], .empty, (List.append_nil _).symm⟩
    · rintro ⟨ports, hitem, rfl⟩
      rw [eq_nil_of_portItem hitem rfl, List.append_nil]
  · rw [bind_eq_ok_iff]
    simp only [parseItem_eq_ok_iff hempty, Except.ok.injEq, eq_comm]

theorem foldlM_addItem_eq_ok_iff {s : List Char} {items : List (List Char)} {out ports : List ℤ} :
    items.foldlM (addItem s) out = .ok ports ↔
      ∃ ranges, List.Forall₂ (fun item range => PortItem (trimSpace item) range) items ranges ∧
        ports = out ++ ranges.flatten := by
  induction items generalizing out with
  | nil =>
    simp only [List.foldlM_nil, List.forall₂_nil_left_iff, exists_eq_left, List.flatten_nil,
      List.append_nil]
    exact ⟨fun h => (Except.ok.inj h).symm, fun h => congrArg _ h.symm⟩
  | cons item items ih =>
    rw [List.foldlM_cons, bind_eq_ok_iff]
    constructor
    · rintro ⟨out', hitem, hrest⟩
      obtain ⟨range, hrange, rfl⟩ := addItem_eq_ok_iff.mp hitem
      obtain ⟨ranges, hranges, rfl⟩ := ih.mp hrest
      exact ⟨range :: ranges, .cons hrange hranges, by simp⟩
    · rintro ⟨ranges, hall, rfl⟩
      obtain ⟨range, ranges, hrange, hranges, rfl⟩ := List.forall₂_cons_left_iff.mp hall
      exact ⟨out ++ range, addItem_eq_ok_iff.mpr ⟨range, hrange, rfl⟩,
        ih.mpr ⟨ranges, hranges, by simp⟩⟩

/-- **The flag is read as what its items mean**, in their order. -/
theorem parsePorts_eq_ok_iff {s : List Char} {ports : List ℤ} :
    parsePorts s = .ok ports ↔
      ∃ ranges, List.Forall₂ (fun item range => PortItem (trimSpace item) range) (s.splitOn ',')
        ranges ∧ ports = ranges.flatten :=
  foldlM_addItem_eq_ok_iff

/-- **The grammar of the flag.** `parsePorts` accepts exactly the strings whose items, without the
white space around them, are empty, a numeral or a range, and returns the ports they mean; of what
it does not accept it returns an error alone. -/
theorem parsePorts_grammar (s : List Char) :
    ((∃ ports, parsePorts s = .ok ports) ↔
      ∀ item ∈ s.splitOn ',', ∃ range, PortItem (trimSpace item) range) ∧
    ((∃ e, parsePorts s = .error e) ↔
      ∃ item ∈ s.splitOn ',', ∀ range, ¬ PortItem (trimSpace item) range) ∧
    ∀ ports, parsePorts s = .ok ports ↔
      ∃ ranges, List.Forall₂ (fun item range => PortItem (trimSpace item) range) (s.splitOn ',')
        ranges ∧ ports = ranges.flatten := by
  have haccept : (∃ ports, parsePorts s = .ok ports) ↔
      ∀ item ∈ s.splitOn ',', ∃ range, PortItem (trimSpace item) range := by
    simp only [parsePorts_eq_ok_iff]
    constructor
    · rintro ⟨ports, ranges, hranges, rfl⟩ item hitem
      obtain ⟨i, hi, rfl⟩ := List.mem_iff_getElem.mp hitem
      exact ⟨_, hranges.get hi (hranges.length_eq ▸ hi)⟩
    · intro h
      choose! range hrange using h
      refine ⟨_, (s.splitOn ',').map range, ?_, rfl⟩
      exact List.forall₂_map_right_iff.mpr (List.forall₂_same.mpr hrange)
  refine ⟨haccept, ?_, fun ports => parsePorts_eq_ok_iff⟩
  have hreject : (∃ e, parsePorts s = .error e) ↔ ¬ ∃ ports, parsePorts s = .ok ports := by
    cases parsePorts s with
    | error e => simp
    | ok ports => simp
  rw [hreject, haccept]
  push Not
  rfl

/-- Leading zeros, a plus sign, white space, an empty item and an overlap. -/
example : parsePorts " 8081,, +08090-8092 ,8091".toList = .ok [8081, 8090, 8091, 8092, 8091] := by
  decide

end Millionws
