import Mathlib.Algebra.Ring.Nat
import Mathlib.Algebra.Ring.Int.Defs
import Mathlib.Tactic.SplitIfs

/-!
# Decimal integers as text

Go's `strconv.Itoa` and `strconv.Atoi` on a 64-bit machine, for any program that prints and reads
integers. A string is the list of its characters.

`Atoi` reads an optional sign and then one digit at a time, and fails at the first character
that is no digit or at the first digit that takes the number past the largest `uint64`, whichever
comes first; the range of `int64` is only checked at the end. The order matters for the error
alone, and `parseUint_eq_ok_iff` says when there is none.

## Main definitions

* `Strconv.itoa`, `Strconv.atoi`, `Strconv.parseInt` — printing and reading
* `Strconv.NumError` — what `Atoi` reports
* `Strconv.Numeral` — decimal text, apart from any reader

## Main results

* `Strconv.parseUint_eq_ok_iff` — exactly which digits are read, and as what
* `Strconv.atoi_eq_ok_iff_of_pos` — the positive numbers are read from their numerals
* `Strconv.atoi_itoa` — what is printed is read back
* `Strconv.itoa_injective` — different integers print differently
-/

namespace Strconv

/-- `ErrSyntax` and `ErrRange`. -/
inductive Cause where
  | invalidSyntax
  | valueOutOfRange
  deriving DecidableEq

/-- `NumError`. -/
structure NumError where
  func : String
  num : List Char
  err : Cause
  deriving DecidableEq

/-- The largest `uint64`. -/
def maxUint : ℕ := 2 ^ 64 - 1

/-- The loop of `ParseUint` in base 10. -/
def parseDigits (n : ℕ) : List Char → Except Cause ℕ
  | [] => .ok n
  | c :: cs =>
    if c.isDigit then
      if maxUint < 10 * n + (c.toNat - '0'.toNat) then .error .valueOutOfRange
      else parseDigits (10 * n + (c.toNat - '0'.toNat)) cs
    else .error .invalidSyntax

/-- `ParseUint(s, 10, 64)`. -/
def parseUint (s : List Char) : Except Cause ℕ :=
  if s = [] then .error .invalidSyntax else parseDigits 0 s

/-- The optional sign. -/
def sign : List Char → Bool × List Char
  | '-' :: cs => (true, cs)
  | '+' :: cs => (false, cs)
  | cs => (false, cs)

/-- `Atoi`. -/
def atoi (s : List Char) : Except NumError ℤ :=
  match parseUint (sign s).2 with
  | .error e => .error ⟨"Atoi", s, e⟩
  | .ok un =>
    if (sign s).1 then
      if 2 ^ 63 < un then .error ⟨"Atoi", s, .valueOutOfRange⟩ else .ok (-un)
    else
      if 2 ^ 63 ≤ un then .error ⟨"Atoi", s, .valueOutOfRange⟩ else .ok un

/-- `ParseInt(s, 10, 64)`, which is `Atoi` but for the function that its errors name. -/
def parseInt (s : List Char) : Except NumError ℤ :=
  (atoi s).mapError fun e => { e with func := "ParseInt" }

/-- `Itoa`. -/
def itoa (n : ℤ) : List Char :=
  if n < 0 then '-' :: Nat.toDigits 10 n.natAbs else Nat.toDigits 10 n.natAbs

/-! ### Reading -/

theorem le_ofDigitChars (cs : List Char) (n : ℕ) : n ≤ Nat.ofDigitChars 10 cs n := by
  induction cs generalizing n with
  | nil => simp
  | cons c cs ih =>
    rw [Nat.ofDigitChars_cons]
    exact Nat.le_trans (by omega) (ih _)

/-- **What the loop reads.** It succeeds on digits whose value is a `uint64`. -/
theorem parseDigits_eq_ok_iff {cs : List Char} {n v : ℕ} (hn : n ≤ maxUint) :
    parseDigits n cs = .ok v ↔
      (∀ c ∈ cs, c.isDigit = true) ∧ Nat.ofDigitChars 10 cs n = v ∧ v ≤ maxUint := by
  induction cs generalizing n with
  | nil =>
    simp only [parseDigits, Except.ok.injEq, List.not_mem_nil, false_implies, implies_true,
      Nat.ofDigitChars_nil, true_and]
    exact ⟨fun h => ⟨h, h ▸ hn⟩, fun h => h.1⟩
  | cons c cs ih =>
    rw [parseDigits, Nat.ofDigitChars_cons]
    split_ifs with hc hmax
    · -- the value only grows, so it cannot come back into range
      have hle := le_ofDigitChars cs (10 * n + (c.toNat - '0'.toNat))
      refine ⟨nofun, fun ⟨_, hv, hle'⟩ => ?_⟩
      omega
    · rw [ih (Nat.not_lt.mp hmax)]
      simp [hc]
    · simp [hc]

theorem parseUint_eq_ok_iff {s : List Char} {v : ℕ} :
    parseUint s = .ok v ↔ s ≠ [] ∧ (∀ c ∈ s, c.isDigit = true) ∧
      Nat.ofDigitChars 10 s 0 = v ∧ v ≤ maxUint := by
  rw [parseUint]
  split_ifs with hs
  · simp [hs]
  · rw [parseDigits_eq_ok_iff (Nat.zero_le _)]
    simp [hs]

theorem sign_of_isDigit {c : Char} (hc : c.isDigit = true) (cs : List Char) :
    sign (c :: cs) = (false, c :: cs) := by
  rw [sign]
  · rintro cs ⟨⟩
    exact absurd hc (by decide)
  · rintro cs ⟨⟩
    exact absurd hc (by decide)

/-- **What `Atoi` reads.** -/
theorem atoi_eq_ok_iff {s : List Char} {v : ℤ} :
    atoi s = .ok v ↔ ∃ un, parseUint (sign s).2 = .ok un ∧
      if (sign s).1 then un ≤ 2 ^ 63 ∧ v = -un else un < 2 ^ 63 ∧ v = un := by
  rw [atoi]
  cases parseUint (sign s).2 with
  | error e => simp
  | ok un =>
    cases (sign s).1 with
    | true =>
      simp only [if_true, Except.ok.injEq, exists_eq_left']
      split_ifs with hmax <;> simp [eq_comm] <;> omega
    | false =>
      simp only [Bool.false_eq_true, if_false, Except.ok.injEq, exists_eq_left']
      split_ifs with hmax <;> simp [eq_comm] <;> omega

theorem parseInt_eq_ok_iff {s : List Char} {v : ℤ} : parseInt s = .ok v ↔ atoi s = .ok v := by
  rw [parseInt]
  cases atoi s <;> simp [Except.mapError]

/-! ### Numerals -/

/-- The digits of `n` in decimal, after any number of leading zeros and an optional plus sign. -/
def Numeral (s : List Char) (n : ℕ) : Prop :=
  ∃ ds, (s = ds ∨ s = '+' :: ds) ∧ ds ≠ [] ∧ (∀ c ∈ ds, c.isDigit = true) ∧
    Nat.ofDigitChars 10 ds 0 = n

/-- A numeral is what is read as an unsigned integer once a plus sign is taken off. -/
theorem numeral_iff {s : List Char} {n : ℕ} (hn : n ≤ maxUint) :
    Numeral s n ↔ (sign s).1 = false ∧ parseUint (sign s).2 = .ok n := by
  constructor
  · rintro ⟨ds, rfl | rfl, hne, hdigits, hval⟩
    · obtain ⟨c, cs, rfl⟩ := List.exists_cons_of_ne_nil hne
      rw [sign_of_isDigit (hdigits c List.mem_cons_self)]
      exact ⟨rfl, parseUint_eq_ok_iff.mpr ⟨hne, hdigits, hval, hn⟩⟩
    · exact ⟨rfl, parseUint_eq_ok_iff.mpr ⟨hne, hdigits, hval, hn⟩⟩
  · rintro ⟨hpos, hparse⟩
    obtain ⟨hne, hdigits, hval, -⟩ := parseUint_eq_ok_iff.mp hparse
    refine ⟨(sign s).2, ?_, hne, hdigits, hval⟩
    revert hpos
    unfold sign
    split <;> simp

/-- Without a sign a numeral is its digits. -/
theorem ofDigitChars_of_numeral {s : List Char} {n : ℕ} (h : Numeral s n)
    (hdigits : ∀ c ∈ s, c.isDigit = true) : Nat.ofDigitChars 10 s 0 = n := by
  obtain ⟨ds, rfl | rfl, -, -, hval⟩ := h
  · exact hval
  · exact absurd (hdigits '+' List.mem_cons_self) (by decide)

/-- **Positive numbers are read from their numerals.** No sign but a plus leads to one. -/
theorem atoi_eq_ok_iff_of_pos {s : List Char} {v : ℤ} (hv : 0 < v) :
    atoi s = .ok v ↔ v < 2 ^ 63 ∧ ∃ n : ℕ, Numeral s n ∧ v = n := by
  rw [atoi_eq_ok_iff]
  constructor
  · rintro ⟨un, hparse, hrange⟩
    have hle := (parseUint_eq_ok_iff.mp hparse).2.2.2
    cases hs : (sign s).1 with
    | true =>
      rw [hs, if_pos rfl] at hrange
      omega
    | false =>
      rw [hs, if_neg Bool.false_ne_true] at hrange
      exact ⟨by omega, un, (numeral_iff hle).mpr ⟨hs, hparse⟩, hrange.2⟩
  · rintro ⟨hlt, n, hn, rfl⟩
    have hmax : n ≤ maxUint := by
      rw [maxUint]
      omega
    obtain ⟨hs, hparse⟩ := (numeral_iff hmax).mp hn
    exact ⟨n, hparse, by rw [hs, if_neg Bool.false_ne_true]; exact ⟨by omega, rfl⟩⟩

/-! ### Printing -/

theorem parseUint_toDigits {n : ℕ} (hn : n ≤ maxUint) : parseUint (Nat.toDigits 10 n) = .ok n :=
  parseUint_eq_ok_iff.mpr ⟨Nat.toDigits_ne_nil,
    fun _ hc => Nat.isDigit_of_mem_toDigits (by decide) (by decide) hc,
    Nat.ofDigitChars_ten_toDigits, hn⟩

theorem sign_toDigits (n : ℕ) : sign (Nat.toDigits 10 n) = (false, Nat.toDigits 10 n) := by
  cases hs : Nat.toDigits 10 n with
  | nil => exact absurd hs Nat.toDigits_ne_nil
  | cons c cs =>
    have hc : c ∈ Nat.toDigits 10 n := by simp [hs]
    exact sign_of_isDigit (Nat.isDigit_of_mem_toDigits (by decide) (by decide) hc) cs

/-- **The round trip.** Every `int64` is read back from what it prints as. -/
theorem atoi_itoa {n : ℤ} (hlow : -2 ^ 63 ≤ n) (hhigh : n < 2 ^ 63) : atoi (itoa n) = .ok n := by
  have hmax : n.natAbs ≤ maxUint := by
    rw [maxUint]
    omega
  rw [itoa]
  split_ifs with hneg
  · have hsign : sign ('-' :: Nat.toDigits 10 n.natAbs) = (true, Nat.toDigits 10 n.natAbs) := rfl
    rw [atoi, hsign, parseUint_toDigits hmax]
    simp only [if_true]
    rw [if_neg (by omega), Int.ofNat_natAbs_of_nonpos (by omega), Int.neg_neg]
  · rw [atoi, sign_toDigits, parseUint_toDigits hmax]
    simp only [Bool.false_eq_true, if_false]
    rw [if_neg (by omega), Int.natAbs_of_nonneg (by omega)]

theorem toDigits_injective {m n : ℕ} (h : Nat.toDigits 10 m = Nat.toDigits 10 n) : m = n := by
  rw [← Nat.ofDigitChars_ten_toDigits (n := m), h, Nat.ofDigitChars_ten_toDigits]

theorem itoa_injective : Function.Injective itoa := by
  intro m n h
  have hdash (k : ℕ) (cs : List Char) : Nat.toDigits 10 k ≠ '-' :: cs := fun hk => by
    have hc : '-' ∈ Nat.toDigits 10 k := by simp [hk]
    exact absurd (Nat.isDigit_of_mem_toDigits (by decide) (by decide) hc) (by decide)
  rw [itoa, itoa] at h
  split_ifs at h with hm hn hn
  · have := toDigits_injective (List.cons.inj h).2
    omega
  · exact absurd h.symm (hdash _ _)
  · exact absurd h (hdash _ _)
  · have := toDigits_injective h
    omega

end Strconv
