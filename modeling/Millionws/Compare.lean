import Mathlib.Data.Char
import Mathlib.Data.List.Dedup
import Mathlib.Data.List.Lex
import Mathlib.Data.List.ReduceOption
import Mathlib.Data.List.Sort
import Mathlib.Data.List.TakeWhile
import Mathlib.Tactic.Ring
import Millionws.Grouping
import Millionws.StopLabel

/-!
# The comparison table

`compare.py` puts the summaries of many runs into one table, a row for each variant: how many runs
there were, the median and the range of each measurement, and what stopped them. The runs come from
`matrix.sh`, which goes through all variants and starts over, but `compare.py` takes its directories
in any order, and a run that left no summary is passed over.

Which order it is should not matter beyond the order of the rows. It does not: grouping keeps the
runs of a variant together, the median sorts, the range and the labels do not look at positions.
`table_perm` says this of the whole table.

A cell is text, with commas, decimals and a sign, and all that a reader has. Read as numbers again,
the cells of a row are the medians and ranges of the runs, each as near as its column can show it
and in the right order: `table_reads_back`.

## What is deliberately absent

`summary.json`, and the columns of a summary that the table does not show. Numbers are exact.

## Main definitions

* `load`, `median`, `stat`, `row`, `table` — `compare.py`
* `readCell` — what a cell says
* `Column.Shows` — what a cell should say

## Main results

* `median_halves` — half of the values are on either side of the median
* `table_reads_back` — every cell says what it should
* `table_perm` — the order of the directories shows only in the order of the rows
-/

namespace Millionws

/-! ### The program -/

/-- What the table takes from one `summary.json`. -/
structure RunSummary where
  variant : List Char
  oomKilled : Bool
  stopReason : List Char
  peakConnections : Option ℚ
  cgroupTotal : Option ℚ
  kernelOther : Option ℚ
  cgroupAnon : Option ℚ
  cpuNearPeak : Option ℚ
  echoP99 : Option ℚ
  deriving DecidableEq

namespace Compare

/-- `load`, of the directories in order; `none` is one without a `summary.json`. -/
def load (dirs : List (Option RunSummary)) : List (List Char × List RunSummary) :=
  Grouping.group RunSummary.variant dirs.reduceOption

/-- `statistics.median`, of a list that is not empty. -/
def median (values : List ℚ) : ℚ :=
  let data := values.mergeSort (· ≤ ·)
  let n := data.length
  if n % 2 = 1 then data.getD (n / 2) 0
  else (data.getD (n / 2 - 1) 0 + data.getD (n / 2) 0) / 2

/-- `stat`. -/
def stat (values : List (Option ℚ)) (fmt : ℚ → List Char) : List Char :=
  let values := values.reduceOption
  if values = [] then "n/a".toList
  else
    let mid := fmt (median values)
    if values.length = 1 ∨ values.min? = values.max? then mid
    else mid ++ " (".toList ++ fmt (values.min?.getD 0) ++ " to ".toList ++
      fmt (values.max?.getD 0) ++ ")".toList

/-- `count` and `ms`: `f"{v:,.0f}"`. -/
def count (v : ℚ) : List Char := formatCount v

/-- `kib`: `f"{v / 1024:.2f}"`. -/
def kib (v : ℚ) : List Char :=
  let hundredths := roundHalfEven (|v| / 1024 * 100)
  printedSign v ++ Strconv.itoa (hundredths / 100) ++ '.' ::
    (Strconv.itoa (hundredths / 10 % 10) ++ Strconv.itoa (hundredths % 10))

/-- `f"{v:.0f}%"`. -/
def percent (v : ℚ) : List Char := printedSign v ++ Strconv.itoa (roundHalfEven |v|) ++ ['%']

/-- `sorted({stop_label(r) for r in runs})`. -/
def stops (runs : List RunSummary) : List (List Char) :=
  (runs.map fun r => stopLabel r.oomKilled r.stopReason).dedup.mergeSort (· ≤ ·)

/-- The cells of a row. -/
def row (group : List Char × List RunSummary) : List (List Char) :=
  let runs := group.2
  [ '`' :: group.1 ++ ['`'],
    Strconv.itoa runs.length,
    stat (runs.map RunSummary.peakConnections) count,
    stat (runs.map RunSummary.cgroupTotal) kib,
    stat (runs.map RunSummary.kernelOther) kib,
    stat (runs.map RunSummary.cgroupAnon) kib,
    stat (runs.map RunSummary.cpuNearPeak) percent,
    stat (runs.map RunSummary.echoP99) count,
    List.intercalate "; ".toList (stops runs) ]

/-- The rows that `main` prints. -/
def table (dirs : List (Option RunSummary)) : List (List (List Char)) := (load dirs).map row

/-! ### A cell -/

theorem median_perm {values values' : List ℚ} (h : values.Perm values') :
    median values = median values' := by
  have hsort : values.mergeSort (· ≤ ·) = values'.mergeSort (· ≤ ·) := by
    refine List.Perm.eq_of_pairwise' (r := (· ≤ ·)) (List.pairwise_mergeSort' _ _)
      (List.pairwise_mergeSort' _ _) ?_
    exact (List.mergeSort_perm _ _).trans (h.trans (List.mergeSort_perm _ _).symm)
  rw [median, median, hsort]

theorem min?_perm {values values' : List ℚ} (h : values.Perm values') :
    values.min? = values'.min? := by
  refine Option.ext fun a => ?_
  rw [List.min?_eq_some_iff, List.min?_eq_some_iff, h.mem_iff]
  exact and_congr_right fun _ => forall_congr' fun b => imp_congr_left h.mem_iff

theorem max?_perm {values values' : List ℚ} (h : values.Perm values') :
    values.max? = values'.max? := by
  refine Option.ext fun a => ?_
  rw [List.max?_eq_some_iff, List.max?_eq_some_iff, h.mem_iff]
  exact and_congr_right fun _ => forall_congr' fun b => imp_congr_left h.mem_iff

/-- A cell does not depend on the order of the runs. -/
theorem stat_perm {values values' : List (Option ℚ)} (h : values.Perm values')
    (fmt : ℚ → List Char) : stat values fmt = stat values' fmt := by
  have hvalues : values.reduceOption.Perm values'.reduceOption := h.filterMap id
  have hnil : values.reduceOption = [] ↔ values'.reduceOption = [] := by
    rw [← List.length_eq_zero_iff, hvalues.length_eq, List.length_eq_zero_iff]
  simp only [stat, hnil, hvalues.length_eq, median_perm hvalues, min?_perm hvalues,
    max?_perm hvalues]

/-- **The median is in the range.** -/
theorem median_mem_Icc {values : List ℚ} {lo hi : ℚ} (hne : values ≠ [])
    (hlo : ∀ v ∈ values, lo ≤ v) (hhi : ∀ v ∈ values, v ≤ hi) :
    lo ≤ median values ∧ median values ≤ hi := by
  have hpos : 0 < values.length := List.length_pos_iff.mpr hne
  have hmem {i : ℕ} (hi : i < values.length) :
      (values.mergeSort (· ≤ ·)).getD i 0 ∈ values := by
    have hlt : i < (values.mergeSort (· ≤ ·)).length := by rwa [List.length_mergeSort]
    rw [List.getD, List.getElem?_eq_getElem hlt, Option.getD_some]
    exact List.mem_mergeSort.mp (List.getElem_mem hlt)
  rw [median]
  simp only [List.length_mergeSort]
  split_ifs with hodd
  · have h := hmem (show values.length / 2 < values.length by omega)
    exact ⟨hlo _ h, hhi _ h⟩
  · have h := hmem (show values.length / 2 < values.length by omega)
    have h' := hmem (show values.length / 2 - 1 < values.length by omega)
    constructor
    · linarith [hlo _ h, hlo _ h']
    · linarith [hhi _ h, hhi _ h']

/-- In a sorted list, what comes before an element is no larger, and what comes after it no
smaller. -/
theorem countP_sorted {data : List ℚ} (hsort : data.Pairwise (· ≤ ·)) {i : ℕ}
    (hi : i < data.length) :
    i + 1 ≤ data.countP (· ≤ data[i]) ∧ data.length - i ≤ data.countP (data[i] ≤ ·) := by
  have hle {j k : ℕ} (hjk : j ≤ k) (hk : k < data.length) : data[j] ≤ data[k] := by
    rcases hjk.eq_or_lt with rfl | hlt
    · exact le_rfl
    · exact List.pairwise_iff_getElem.mp hsort j k _ hk hlt
  constructor
  · have hall : (data.take (i + 1)).countP (· ≤ data[i]) = (data.take (i + 1)).length := by
      refine List.countP_eq_length.mpr fun v hv => decide_eq_true ?_
      obtain ⟨j, hj, rfl⟩ := List.mem_iff_getElem.mp hv
      rw [List.length_take] at hj
      rw [List.getElem_take]
      exact hle (by omega) hi
    have hsub := (List.take_sublist (i + 1) data).countP_le (p := fun v => decide (v ≤ data[i]))
    rw [hall, List.length_take] at hsub
    omega
  · have hall : (data.drop i).countP (data[i] ≤ ·) = (data.drop i).length := by
      refine List.countP_eq_length.mpr fun v hv => decide_eq_true ?_
      obtain ⟨j, hj, rfl⟩ := List.mem_iff_getElem.mp hv
      rw [List.getElem_drop]
      exact hle (Nat.le_add_right i j) _
    have hsub := (List.drop_sublist i data).countP_le (p := fun v => decide (data[i] ≤ v))
    rwa [hall, List.length_drop] at hsub

/-- **The median** has half of the values on either side. -/
theorem median_halves (values : List ℚ) :
    values.length ≤ 2 * values.countP (· ≤ median values) ∧
      values.length ≤ 2 * values.countP (median values ≤ ·) := by
  have hperm := List.mergeSort_perm values (· ≤ ·)
  have hsort := List.pairwise_mergeSort' (· ≤ ·) values
  rw [← hperm.countP_eq, ← hperm.countP_eq, ← hperm.length_eq, median]
  generalize values.mergeSort (· ≤ ·) = data at hsort ⊢
  have hget {i : ℕ} (hi : i < data.length) : data.getD i 0 = data[i] := by
    rw [List.getD, List.getElem?_eq_getElem hi, Option.getD_some]
  rcases Nat.eq_zero_or_pos data.length with hzero | hpos
  · simp [hzero]
  have hhalf : data.length / 2 < data.length := Nat.div_lt_self hpos (by decide)
  obtain ⟨hbelow, habove⟩ := countP_sorted hsort hhalf
  split_ifs with hodd
  · rw [hget hhalf]
    omega
  · -- the median lies between the two in the middle
    have hprev : data.length / 2 - 1 < data.length := by omega
    have hmid : data[data.length / 2 - 1] ≤ data[data.length / 2] :=
      List.pairwise_iff_getElem.mp hsort _ _ hprev hhalf (by omega)
    obtain ⟨hbelow', -⟩ := countP_sorted hsort hprev
    rw [hget hhalf, hget hprev]
    have hlow : data.countP (· ≤ data[data.length / 2 - 1]) ≤ data.countP
        (· ≤ (data[data.length / 2 - 1] + data[data.length / 2]) / 2) :=
      List.countP_mono_left fun v _ hv => decide_eq_true (by
        have := of_decide_eq_true hv
        linarith)
    have hhigh : data.countP (data[data.length / 2] ≤ ·) ≤ data.countP
        ((data[data.length / 2 - 1] + data[data.length / 2]) / 2 ≤ ·) :=
      List.countP_mono_left fun v _ hv => decide_eq_true (by
        have := of_decide_eq_true hv
        linarith)
    omega

/-! ### Reading a cell -/

/-- The number that some text stands for: its digits, with a sign and a decimal point if there
are. -/
def readNumber (s : List Char) : ℚ :=
  (if s.contains '-' then -1 else 1) * (Nat.ofDigitChars 10 (s.filter Char.isDigit) 0 : ℚ) /
    10 ^ (s.dropWhile (· ≠ '.')).countP Char.isDigit

/-- The numbers in a cell. -/
def readCell (cell : List Char) : List ℚ :=
  ((cell.splitOn ' ').filter (·.any Char.isDigit)).map readNumber

/-- What rounding to a whole number leaves of a number that is printed with its sign. -/
def signedRound (v : ℚ) : ℚ := (if v < 0 then -1 else 1) * roundHalfEven |v|

theorem abs_signedRound_sub_le (v : ℚ) : |signedRound v - v| ≤ 1 / 2 := by
  have h := abs_roundHalfEven_sub_le |v|
  rw [signedRound]
  split_ifs with hneg
  · rw [abs_of_neg hneg] at h ⊢
    rwa [show -1 * (roundHalfEven (-v) : ℚ) - v = -(roundHalfEven (-v) - -v) by ring, abs_neg]
  · rw [one_mul]
    rwa [abs_of_nonneg (not_lt.mp hneg)] at h ⊢

theorem signedRound_mono : Monotone signedRound := by
  intro v w h
  have hnonneg (q : ℚ) : (0 : ℚ) ≤ roundHalfEven |q| := by
    have := roundHalfEven_mono (abs_nonneg q)
    rw [roundHalfEven_zero] at this
    exact_mod_cast this
  rw [signedRound, signedRound]
  split_ifs with hv hw hw
  · have := roundHalfEven_mono (abs_le_abs_of_nonpos hw.le h)
    have : (roundHalfEven |w| : ℚ) ≤ roundHalfEven |v| := by exact_mod_cast this
    linarith
  · linarith [hnonneg v, hnonneg w]
  · exact absurd (lt_of_le_of_lt h hw) hv
  · have := roundHalfEven_mono (abs_le_abs_of_nonneg (not_lt.mp hv) h)
    have : (roundHalfEven |v| : ℚ) ≤ roundHalfEven |w| := by exact_mod_cast this
    linarith

/-- A format whose texts can be told apart in a cell and read back, as near as `unit` allows, with
the values in units of `scale`. -/
structure Prints (fmt : ℚ → List Char) (scale unit : ℚ) : Prop where
  space : ∀ v, ' ' ∉ fmt v
  digit : ∀ v, (fmt v).any Char.isDigit = true
  near : ∀ v, |readNumber (fmt v) - v / scale| ≤ unit / 2
  mono : Monotone fun v => readNumber (fmt v)

theorem mem_grouped {c : Char} {cs : List Char} (h : c ∈ grouped cs) : c ∈ cs ∨ c = ',' := by
  induction cs with
  | nil => cases h
  | cons d ds ih =>
    rw [grouped] at h
    split_ifs at h <;> simp only [List.mem_cons] at h ⊢ <;> tauto

theorem filter_grouped {cs : List Char} (h : ∀ c ∈ cs, c.isDigit = true) :
    (grouped cs).filter Char.isDigit = cs := by
  induction cs with
  | nil => rfl
  | cons d ds ih =>
    have hd := h d List.mem_cons_self
    have hrest := ih fun c hc => h c (List.mem_cons_of_mem d hc)
    rw [grouped]
    split_ifs <;> simp [hd, hrest, show Char.isDigit ',' = false by decide]

theorem contains_printedSign (v : ℚ) {cs : List Char} (h : '-' ∉ cs) :
    (printedSign v ++ cs).contains '-' = decide (v < 0) := by
  rw [printedSign]
  split_ifs with hneg <;> simp [h, hneg]

/-- What is read from a sign, digits with other characters between them, and perhaps a point with
decimals. -/
theorem readNumber_printed {v : ℚ} {cs : List Char} {n d : ℕ} (hsign : '-' ∉ cs)
    (hdigits : Nat.ofDigitChars 10 (cs.filter Char.isDigit) 0 = n)
    (hdecimals : (cs.dropWhile (· ≠ '.')).countP Char.isDigit = d) :
    readNumber (printedSign v ++ cs) = (if v < 0 then -1 else 1) * n / 10 ^ d := by
  have hfilter : (printedSign v ++ cs).filter Char.isDigit = cs.filter Char.isDigit := by
    rw [printedSign]
    split_ifs <;> simp [show Char.isDigit '-' = false by decide]
  have hdrop : (printedSign v ++ cs).dropWhile (· ≠ '.') = cs.dropWhile (· ≠ '.') := by
    refine List.dropWhile_append_of_pos fun c hc => ?_
    rw [printedSign] at hc
    split_ifs at hc
    · rw [List.mem_singleton.mp hc]
      decide
    · cases hc
  rw [readNumber, contains_printedSign v hsign, hfilter, hdrop, hdigits, hdecimals]
  simp only [decide_eq_true_eq]

theorem itoa_of_nonneg {n : ℤ} (h : 0 ≤ n) : Strconv.itoa n = Nat.toDigits 10 n.natAbs := by
  rw [Strconv.itoa, if_neg (not_lt.mpr h)]

theorem roundHalfEven_nonneg {q : ℚ} (h : 0 ≤ q) : 0 ≤ roundHalfEven q :=
  roundHalfEven_zero ▸ roundHalfEven_mono h

theorem isDigit_toDigits {n : ℕ} {c : Char} (h : c ∈ Nat.toDigits 10 n) : c.isDigit = true :=
  Nat.isDigit_of_mem_toDigits (by decide) (by decide) h

theorem any_isDigit_toDigits (n : ℕ) : (Nat.toDigits 10 n).any Char.isDigit = true := by
  obtain ⟨c, hc⟩ := List.exists_mem_of_ne_nil _ (Nat.toDigits_ne_nil (b := 10) (n := n))
  exact List.any_eq_true.mpr ⟨c, hc, isDigit_toDigits hc⟩

theorem notMem_printedSign (v : ℚ) : ' ' ∉ printedSign v := by
  rw [printedSign]
  split_ifs <;> simp

/-- **A format reads back** if it prints the sign and then the digits of the rounded absolute value,
in units of `scale` and to `d` decimals, with only these characters between them. -/
theorem prints_of {fmt : ℚ → List Char} (body : ℚ → List Char) {scale : ℚ} {d : ℕ}
    (hscale : 0 < scale)
    (hfmt : ∀ v, fmt v = printedSign v ++ body v)
    (hchars : ∀ v, ∀ c ∈ body v, c.isDigit = true ∨ c = ',' ∨ c = '.' ∨ c = '%')
    (hdigit : ∀ v, (body v).any Char.isDigit = true)
    (hdigits : ∀ v, Nat.ofDigitChars 10 ((body v).filter Char.isDigit) 0 =
      (roundHalfEven (|v| / scale * 10 ^ d)).natAbs)
    (hdecimals : ∀ v, ((body v).dropWhile (· ≠ '.')).countP Char.isDigit = d) :
    Prints fmt scale (1 / 10 ^ d) := by
  have hpow : (0 : ℚ) < 10 ^ d := by positivity
  have hnot {v : ℚ} {x : Char} (hx : ¬ (x.isDigit = true ∨ x = ',' ∨ x = '.' ∨ x = '%')) :
      x ∉ body v := fun h => hx (hchars v x h)
  have hread (v : ℚ) : readNumber (fmt v) = signedRound (v / scale * 10 ^ d) / 10 ^ d := by
    have hsign : v / scale * 10 ^ d < 0 ↔ v < 0 := by
      rw [← not_le, ← not_le, mul_nonneg_iff_of_pos_right hpow, le_div_iff₀ hscale, zero_mul]
    have habs : |v / scale * 10 ^ d| = |v| / scale * 10 ^ d := by
      rw [abs_mul, abs_div, abs_of_pos hscale, abs_of_pos hpow]
    have hround : 0 ≤ roundHalfEven (|v| / scale * 10 ^ d) := roundHalfEven_nonneg (by positivity)
    rw [hfmt, readNumber_printed (hnot (by decide)) (hdigits v) (hdecimals v), signedRound, habs]
    simp only [hsign]
    rw [Nat.cast_natAbs, abs_of_nonneg hround]
  refine ⟨?_, ?_, ?_, ?_⟩
  · intro v hmem
    rw [hfmt, List.mem_append] at hmem
    exact hmem.elim (notMem_printedSign v) (hnot (by decide))
  · intro v
    rw [hfmt, List.any_append, hdigit, Bool.or_true]
  · intro v
    have h := abs_signedRound_sub_le (v / scale * 10 ^ d)
    have hdiv : signedRound (v / scale * 10 ^ d) / 10 ^ d - v / scale =
        (signedRound (v / scale * 10 ^ d) - v / scale * 10 ^ d) / 10 ^ d := by
      rw [sub_div, mul_div_cancel_right₀ _ hpow.ne']
    rw [hread, hdiv, abs_div, abs_of_pos hpow, div_div, div_le_div_iff₀ hpow (by positivity)]
    linarith [mul_le_mul_of_nonneg_right h hpow.le]
  · intro v w h
    simp only [hread]
    gcongr
    refine signedRound_mono ?_
    gcongr

/-- The digits of a rounded absolute value. -/
theorem itoa_round {q : ℚ} (h : 0 ≤ q) :
    Strconv.itoa (roundHalfEven q) = Nat.toDigits 10 (roundHalfEven q).natAbs :=
  itoa_of_nonneg (roundHalfEven_nonneg h)

theorem filter_toDigits (n : ℕ) :
    (Nat.toDigits 10 n).filter Char.isDigit = Nat.toDigits 10 n :=
  List.filter_eq_self.mpr fun _ => isDigit_toDigits

theorem dropWhile_toDigits (n : ℕ) (cs : List Char) :
    (Nat.toDigits 10 n ++ cs).dropWhile (· ≠ '.') = cs.dropWhile (· ≠ '.') := by
  refine List.dropWhile_append_of_pos fun c hc => decide_eq_true ?_
  rintro rfl
  exact absurd (isDigit_toDigits hc) (by decide)

theorem prints_count : Prints count 1 1 := by
  have hone (v : ℚ) : |v| / 1 * 10 ^ 0 = |v| := by rw [div_one, pow_zero, mul_one]
  have hdigits (v : ℚ) := itoa_round (abs_nonneg v)
  have hmem (v : ℚ) (c : Char) (h : c ∈ grouped (Strconv.itoa (roundHalfEven |v|))) :
      c.isDigit = true ∨ c = ',' := by
    rw [hdigits] at h
    exact (mem_grouped h).imp_left isDigit_toDigits
  have hfilter (v : ℚ) : (grouped (Strconv.itoa (roundHalfEven |v|))).filter Char.isDigit =
      Nat.toDigits 10 (roundHalfEven |v|).natAbs := by
    rw [hdigits, filter_grouped fun c => isDigit_toDigits]
  have h : Prints count 1 (1 / 10 ^ 0) := by
    refine prints_of (fun v => grouped (Strconv.itoa (roundHalfEven |v|))) one_pos
      (fun v => rfl) (fun v c hc => ?_) (fun v => ?_) (fun v => ?_) (fun v => ?_)
    · exact (hmem v c hc).imp_right .inl
    · obtain ⟨c, hc, hdigit⟩ :=
        List.any_eq_true.mp (any_isDigit_toDigits (roundHalfEven |v|).natAbs)
      rw [← hfilter] at hc
      exact List.any_eq_true.mpr ⟨c, (List.mem_filter.mp hc).1, hdigit⟩
    · rw [hfilter, Nat.ofDigitChars_ten_toDigits, hone]
    · rw [List.dropWhile_eq_nil_iff.mpr, List.countP_nil]
      intro c hc
      refine decide_eq_true ?_
      rintro rfl
      exact absurd (hmem v _ hc) (by decide)
  rwa [pow_zero, div_one] at h

theorem prints_percent : Prints percent 1 1 := by
  have hone (v : ℚ) : |v| / 1 * 10 ^ 0 = |v| := by rw [div_one, pow_zero, mul_one]
  have h : Prints percent 1 (1 / 10 ^ 0) := by
    refine prints_of
      (fun v => Nat.toDigits 10 (roundHalfEven |v|).natAbs ++ ['%']) one_pos
      (fun v => ?_) (fun v c hc => ?_) (fun v => ?_) (fun v => ?_) (fun v => ?_)
    · rw [percent, itoa_round (abs_nonneg v), List.append_assoc]
    · rcases List.mem_append.mp hc with hc | hc
      · exact .inl (isDigit_toDigits hc)
      · exact .inr (.inr (.inr (List.mem_singleton.mp hc)))
    · rw [List.any_append, any_isDigit_toDigits, Bool.true_or]
    · rw [List.filter_append, filter_toDigits, show ['%'].filter Char.isDigit = [] by decide,
        List.append_nil, Nat.ofDigitChars_ten_toDigits, hone]
    · rw [dropWhile_toDigits]
      decide
  rwa [pow_zero, div_one] at h

theorem prints_kib : Prints kib 1024 (1 / 100) := by
  -- the last two digits stand for the decimals
  have hkib (v : ℚ) : kib v = printedSign v ++
      (Nat.toDigits 10 ((roundHalfEven (|v| / 1024 * 10 ^ 2)).natAbs / 100) ++ '.' ::
        [((roundHalfEven (|v| / 1024 * 10 ^ 2)).natAbs / 10 % 10).digitChar,
          ((roundHalfEven (|v| / 1024 * 10 ^ 2)).natAbs % 10).digitChar]) := by
    have hnonneg : 0 ≤ roundHalfEven (|v| / 1024 * 10 ^ 2) := roundHalfEven_nonneg (by positivity)
    have hlast {n : ℕ} : Strconv.itoa ((n % 10 : ℕ) : ℤ) = [(n % 10).digitChar] := by
      rw [itoa_of_nonneg (Int.natCast_nonneg _), Int.natAbs_natCast,
        Nat.toDigits_of_lt_base (Nat.mod_lt n (by decide))]
    rw [kib, show |v| / 1024 * 100 = |v| / 1024 * 10 ^ 2 by norm_num]
    obtain ⟨n, hn⟩ := Int.eq_ofNat_of_zero_le hnonneg
    simp only [hn, Int.natAbs_natCast]
    norm_cast
    rw [hlast, hlast, itoa_of_nonneg (Int.natCast_nonneg _), Int.natAbs_natCast,
      List.append_assoc]
    rfl
  have hchar {n : ℕ} : (n % 10).digitChar.isDigit = true := by
    rw [Nat.isDigit_digitChar]
    exact decide_eq_true (Nat.mod_lt n (by decide))
  have h : Prints kib 1024 (1 / 10 ^ 2) := by
    refine prints_of _ (by norm_num) hkib (fun v c hc => ?_) (fun v => ?_) (fun v => ?_)
      (fun v => ?_)
    · simp only [List.mem_append, List.mem_cons, List.not_mem_nil, or_false] at hc
      rcases hc with hc | rfl | rfl | rfl
      · exact .inl (isDigit_toDigits hc)
      · exact .inr (.inr (.inl rfl))
      · exact .inl hchar
      · exact .inl hchar
    · rw [List.any_append, any_isDigit_toDigits, Bool.true_or]
    · generalize (roundHalfEven (|v| / 1024 * 10 ^ 2)).natAbs = n
      rw [List.filter_append, filter_toDigits, List.filter_cons_of_neg (by decide),
        List.filter_cons_of_pos hchar, List.filter_cons_of_pos hchar, List.filter_nil,
        Nat.ofDigitChars_append, Nat.ofDigitChars_ten_toDigits,
        Nat.ofDigitChars_cons_digitChar_of_lt_ten (Nat.mod_lt _ (by decide)),
        Nat.ofDigitChars_cons_digitChar_of_lt_ten (Nat.mod_lt _ (by decide)),
        Nat.ofDigitChars_nil]
      omega
    · rw [dropWhile_toDigits, List.dropWhile_cons_of_neg (by decide),
        List.countP_cons_of_neg (by decide), List.countP_cons_of_pos hchar,
        List.countP_cons_of_pos hchar, List.countP_nil]
  norm_num at h
  exact h

/-- A cgroup that got smaller. -/
example : kib (-512) = "-0.50".toList := by decide +kernel

/-! ### Reading a row -/

/-- A column of measurements, with the unit of its cells and how near they come. -/
structure Column where
  value : RunSummary → Option ℚ
  scale : ℚ
  unit : ℚ

/-- The columns of measurements, in the order of `row`. -/
def columns : List Column :=
  [⟨RunSummary.peakConnections, 1, 1⟩, ⟨RunSummary.cgroupTotal, 1024, 1 / 100⟩,
    ⟨RunSummary.kernelOther, 1024, 1 / 100⟩, ⟨RunSummary.cgroupAnon, 1024, 1 / 100⟩,
    ⟨RunSummary.cpuNearPeak, 1, 1⟩, ⟨RunSummary.echoP99, 1, 1⟩]

/-- The number `w` in a cell stands for `v`. -/
def Column.Near (c : Column) (v w : ℚ) : Prop := |w - v / c.scale| ≤ c.unit / 2

/-- What the numbers in a cell should be: none without values, and otherwise their median, with the
least and the largest of them unless these are the same. -/
def Column.Shows (c : Column) (values numbers : List ℚ) : Prop :=
  values = [] ∧ numbers = [] ∨
  ∃ lo ∈ values, ∃ hi ∈ values, (∀ v ∈ values, lo ≤ v ∧ v ≤ hi) ∧
    ∃ mid mid' : ℚ, values.length ≤ 2 * values.countP (· ≤ mid) ∧
      values.length ≤ 2 * values.countP (mid ≤ ·) ∧ c.Near mid mid' ∧
      (lo = hi ∧ numbers = [mid'] ∨
        ∃ lo' hi', numbers = [mid', lo', hi'] ∧ c.Near lo lo' ∧ c.Near hi hi' ∧
          lo' ≤ mid' ∧ mid' ≤ hi')

/-- **What `stat` prints.** -/
theorem stat_cases (values : List (Option ℚ)) (fmt : ℚ → List Char) :
    (values.reduceOption = [] ∧ stat values fmt = "n/a".toList) ∨
    ∃ lo ∈ values.reduceOption, ∃ hi ∈ values.reduceOption,
      (∀ v ∈ values.reduceOption, lo ≤ v ∧ v ≤ hi) ∧
      stat values fmt = if lo = hi then fmt (median values.reduceOption)
        else fmt (median values.reduceOption) ++ " (".toList ++ fmt lo ++ " to ".toList ++ fmt hi ++
          ")".toList := by
  by_cases hnil : values.reduceOption = []
  · exact .inl ⟨hnil, by rw [stat, if_pos hnil]⟩
  · obtain ⟨v, hv⟩ := List.exists_mem_of_ne_nil _ hnil
    obtain ⟨lo, hlo⟩ := Option.isSome_iff_exists.mp (List.isSome_min?_of_mem hv)
    obtain ⟨hi, hhi⟩ := Option.isSome_iff_exists.mp (List.isSome_max?_of_mem hv)
    obtain ⟨hlo_mem, hlo_le⟩ := List.min?_eq_some_iff.mp hlo
    obtain ⟨hhi_mem, hhi_le⟩ := List.max?_eq_some_iff.mp hhi
    refine .inr ⟨lo, hlo_mem, hi, hhi_mem, fun v hv => ⟨hlo_le v hv, hhi_le v hv⟩, ?_⟩
    have hone : values.reduceOption.length = 1 ∨ some lo = some hi ↔ lo = hi := by
      rw [Option.some.injEq, or_iff_right_iff_imp]
      intro hlength
      obtain ⟨w, hw⟩ := List.length_eq_one_iff.mp hlength
      rw [hw] at hlo_mem hhi_mem
      rw [List.mem_singleton.mp hlo_mem, List.mem_singleton.mp hhi_mem]
    simp only [stat, if_neg hnil, hlo, hhi, hone, Option.getD_some]

theorem readNumber_cons_open (s : List Char) : readNumber ('(' :: s) = readNumber s := by
  simp [readNumber, show Char.isDigit '(' = false by decide]

theorem readNumber_append_close (s : List Char) : readNumber (s ++ [')']) = readNumber s := by
  have hdigit : Char.isDigit ')' = false := by decide
  have hdrop : ((s ++ [')']).dropWhile (· ≠ '.')).countP Char.isDigit =
      (s.dropWhile (· ≠ '.')).countP Char.isDigit := by
    rw [List.dropWhile_append]
    split_ifs with hnil
    · rw [List.isEmpty_iff.mp hnil]
      decide
    · rw [List.countP_append, List.countP_cons_of_neg (by decide), List.countP_nil, Nat.add_zero]
  rw [readNumber, hdrop]
  simp [readNumber, hdigit]

/-- **A cell reads back** as the numbers that were printed into it. -/
theorem Prints.readCell {fmt : ℚ → List Char} {scale unit : ℚ} (h : Prints fmt scale unit)
    (mid lo hi : ℚ) : readCell (fmt mid) = [readNumber (fmt mid)] ∧
      readCell (fmt mid ++ " (".toList ++ fmt lo ++ " to ".toList ++ fmt hi ++ ")".toList) =
        [readNumber (fmt mid), readNumber (fmt lo), readNumber (fmt hi)] := by
  have hopen : ' ' ∉ '(' :: fmt lo := by simp [h.space]
  have hclose : ' ' ∉ fmt hi ++ [')'] := by simp [h.space]
  have hcell : fmt mid ++ " (".toList ++ fmt lo ++ " to ".toList ++ fmt hi ++ ")".toList =
      fmt mid ++ ' ' :: ('(' :: fmt lo ++ ' ' :: ("to".toList ++ ' ' :: (fmt hi ++ [')']))) := by
    simp
  have hsplit : (fmt mid ++ " (".toList ++ fmt lo ++ " to ".toList ++ fmt hi ++
      ")".toList).splitOn ' ' = [fmt mid, '(' :: fmt lo, "to".toList, fmt hi ++ [')']] := by
    rw [hcell, List.splitOn_append_cons_self, List.splitOn_append_cons_self,
      List.splitOn_append_cons_self, List.splitOn_eq_singleton (h.space mid),
      List.splitOn_eq_singleton hopen, List.splitOn_eq_singleton (by decide),
      List.splitOn_eq_singleton hclose]
    rfl
  have hopen_digit : ('(' :: fmt lo).any Char.isDigit = true := by simp [h.digit]
  have hclose_digit : (fmt hi ++ [')']).any Char.isDigit = true := by simp [h.digit]
  have hto : "to".toList.any Char.isDigit = false := by decide
  constructor
  · rw [Compare.readCell, List.splitOn_eq_singleton (h.space mid)]
    simp only [List.filter_cons, List.filter_nil, h.digit, if_true, List.map_singleton]
  · rw [Compare.readCell, hsplit]
    simp only [List.filter_cons, List.filter_nil, h.digit, hopen_digit, hclose_digit, hto, if_true,
      Bool.false_eq_true, if_false, List.map_cons, List.map_nil, readNumber_cons_open,
      readNumber_append_close]

theorem Prints.shows {fmt : ℚ → List Char} (c : Column) (h : Prints fmt c.scale c.unit)
    (values : List (Option ℚ)) :
    c.Shows values.reduceOption (Compare.readCell (stat values fmt)) := by
  obtain ⟨hnil, hstat⟩ | ⟨lo, hlo, hi, hhi, hrange, hstat⟩ := stat_cases values fmt
  · refine .inl ⟨hnil, ?_⟩
    rw [hstat]
    decide
  · obtain ⟨hbelow, habove⟩ := median_halves values.reduceOption
    obtain ⟨hleft, hright⟩ := median_mem_Icc (List.ne_nil_of_mem hlo)
      (fun v hv => (hrange v hv).1) (fun v hv => (hrange v hv).2)
    obtain ⟨hone, hthree⟩ := h.readCell (median values.reduceOption) lo hi
    refine .inr ⟨lo, hlo, hi, hhi, hrange, _, _, hbelow, habove, h.near _, ?_⟩
    rw [hstat]
    split_ifs with heq
    · exact .inl ⟨heq, hone⟩
    · exact .inr ⟨_, _, hthree, h.near lo, h.near hi, h.mono hleft, h.mono hright⟩

/-- The measurements of a row. -/
theorem shows_row (variant : List Char) (runs : List RunSummary) :
    ∀ p ∈ columns.zip ((row (variant, runs)).drop 2),
      p.1.Shows (runs.map p.1.value).reduceOption (Compare.readCell p.2) := by
  intro p hp
  simp only [columns, row, List.drop_succ_cons, List.drop_zero, List.zip_cons_cons,
    List.zip_nil_left, List.mem_cons, List.not_mem_nil, or_false] at hp
  rcases hp with rfl | rfl | rfl | rfl | rfl | rfl
  · exact prints_count.shows _ _
  · exact prints_kib.shows _ _
  · exact prints_kib.shows _ _
  · exact prints_kib.shows _ _
  · exact prints_percent.shows _ _
  · exact prints_count.shows _ _

/-! ### The table -/

/-- A row does not depend on the order of the runs of its variant. -/
theorem row_perm (variant : List Char) {runs runs' : List RunSummary} (h : runs.Perm runs') :
    row (variant, runs) = row (variant, runs') := by
  have hstops : stops runs = stops runs' := by
    refine List.Perm.eq_of_pairwise' (r := (· ≤ ·)) (List.pairwise_mergeSort' _ _)
      (List.pairwise_mergeSort' _ _) ?_
    exact (List.mergeSort_perm _ _).trans
      ((h.map _).dedup.trans (List.mergeSort_perm _ _).symm)
  simp only [row, h.length_eq, hstops, stat_perm (h.map _)]

end Compare

open Compare

/-- **What the table says.** Every row is that of a variant, and each of its cells, read as numbers
again, is what the measurements of the runs amount to: nothing if there are none, and otherwise
their median, with at least half of them on either side, and with the least and the largest of them
if they differ; each to within half a unit of its last place, and in the right order. -/
theorem table_reads_back (dirs : List (Option RunSummary)) :
    ∀ cells ∈ table dirs, ∃ variant runs, (variant, runs) ∈ load dirs ∧
      cells = row (variant, runs) ∧ ∀ p ∈ columns.zip (cells.drop 2),
        p.1.Shows (runs.map p.1.value).reduceOption (readCell p.2) := by
  intro cells hcells
  obtain ⟨⟨variant, runs⟩, hmem, rfl⟩ := List.mem_map.mp hcells
  exact ⟨variant, runs, hmem, rfl, shows_row variant runs⟩

/-- A variant with two runs, of which one could not read its memory, and a run without a summary. -/
def twoRuns : List (Option RunSummary) :=
  [some ⟨"gorilla".toList, false, [], some 1200, some (-512), none, none, none, none⟩, none,
    some ⟨"gorilla".toList, false, [], some 900, none, none, none, none, none⟩]

/-- The cell with the peaks. -/
theorem table_reads_back_two : ∃ cells ∈ table twoRuns,
    (⟨RunSummary.peakConnections, 1, 1⟩ : Column).Shows [1200, 900]
      (readCell (cells.getD 2 [])) := by
  have hload : load twoRuns = [("gorilla".toList, twoRuns.reduceOption)] := by decide +kernel
  have hmem : row ("gorilla".toList, twoRuns.reduceOption) ∈ table twoRuns := by
    rw [table, hload]
    exact List.mem_singleton_self _
  obtain ⟨variant, runs, hgroup, hrow, hcells⟩ := table_reads_back twoRuns _ hmem
  rw [hload, List.mem_singleton] at hgroup
  obtain ⟨rfl, rfl⟩ := Prod.mk.inj hgroup
  exact ⟨_, hmem, hcells _ List.mem_cons_self⟩

/-- **The order of the directories** shows only in the order of the rows: the table of the same
directories in any other order has the same rows, each as often, and each variant has one row. -/
theorem table_perm {dirs dirs' : List (Option RunSummary)} (h : dirs.Perm dirs') :
    (table dirs).Perm (table dirs') ∧
    (load dirs).map Prod.fst = Grouping.keys RunSummary.variant dirs.reduceOption ∧
    ((load dirs).map Prod.fst).Nodup ∧
    ∀ variant runs, (variant, runs) ∈ load dirs →
      runs = dirs.reduceOption.filter fun r => r.variant = variant := by
  have hfst : (load dirs).map Prod.fst = Grouping.keys RunSummary.variant dirs.reduceOption := by
    rw [load, Grouping.group_eq, List.map_map]
    exact List.map_id _
  refine ⟨?_, hfst, hfst ▸ Grouping.nodup_keys _, ?_⟩
  · exact Grouping.map_group_perm (h.filterMap id) fun variant _ _ hruns => row_perm variant hruns
  · intro variant runs hmem
    rw [load, Grouping.group_eq] at hmem
    obtain ⟨k, -, hk⟩ := List.mem_map.mp hmem
    obtain ⟨rfl, rfl⟩ := Prod.mk.inj hk
    rfl

/-- Two runs of one variant, one of another and one without a summary. -/
theorem table_perm_three :
    (table [some ⟨"nbio-guard".toList, false, [], some 100, none, none, none, none, none⟩, none,
      some ⟨"gorilla".toList, true, [], some 80, none, none, none, none, none⟩,
      some ⟨"nbio-guard".toList, false, [], some 90, none, none, none, none, none⟩]).Perm
    (table [some ⟨"nbio-guard".toList, false, [], some 90, none, none, none, none, none⟩,
      some ⟨"nbio-guard".toList, false, [], some 100, none, none, none, none, none⟩, none,
      some ⟨"gorilla".toList, true, [], some 80, none, none, none, none, none⟩]) :=
  (table_perm (by decide +kernel)).1

end Millionws
