import Millionws.Admission
import Millionws.Ports

/-!
# The memory guard and the files it reads

`guardMemory` knows the memory of its container from two files, `memory.max` once and
`memory.current` four times a second. Whatever goes wrong with either is one case to it: there is no
number, and `readCgroupInt` says so for a file that is missing, for the word `max`, for anything
that is no integer, and for zero.

`guard_files` is the guard from the texts of the files to the flag, for every sequence of texts. The
flag is set exactly if a number above the band was read and none below it since; so a text that is
no number neither sets the flag nor clears it, and without a limit it stays clear. The band is the
one of `Admission`, between the whole parts of the exact products with the two shares.

## Main definitions

* `parseCgroup` — what `ParseInt` makes of a file
* `ReadsAs` — the number in a file, apart from any reader
* `guardMemory` — the flag after some ticks

## Main results

* `readCgroupInt_eq_some_iff` — exactly which files are read, and as what
* `guard_files` — when the flag is set
-/

namespace Millionws

open Strconv Transition

/-! ### Reading a file -/

/-- `os.ReadFile`, `TrimSpace` and `ParseInt`; `none` is a file that cannot be read. -/
def parseCgroup (file : Option (List Char)) : Option ℤ :=
  file.bind fun raw => (parseInt (trimSpace raw)).toOption

/-- A positive `int64` in decimal, with spaces around it. -/
def ReadsAs (file : Option (List Char)) (n : ℤ) : Prop :=
  0 < n ∧ n < 2 ^ 63 ∧ ∃ left digits right, ∃ k : ℕ, file = some (left ++ digits ++ right) ∧
    (∀ c ∈ left, isSpace c = true) ∧ (∀ c ∈ right, isSpace c = true) ∧ Numeral digits k ∧ n = k

/-- A string without spaces is what is left of it and any spaces around it. -/
theorem trimSpace_eq_iff {s t : List Char} (hne : t ≠ []) (ht : ∀ c ∈ t, isSpace c = false) :
    trimSpace s = t ↔ ∃ left right, s = left ++ t ++ right ∧ (∀ c ∈ left, isSpace c = true) ∧
      ∀ c ∈ right, isSpace c = true := by
  constructor
  · intro h
    refine ⟨s.takeWhile isSpace, (s.dropWhile isSpace).rtakeWhile isSpace, ?_, ?_, ?_⟩
    · rw [List.append_assoc, ← h, trimSpace, List.rdropWhile_append_rtakeWhile,
        List.takeWhile_append_dropWhile]
    · exact fun c hc => List.mem_takeWhile_imp hc
    · exact fun c hc => List.mem_rtakeWhile_imp hc
  · rintro ⟨left, right, rfl, hleft, hright⟩
    obtain ⟨c, cs, rfl⟩ := List.exists_cons_of_ne_nil hne
    have hc : ¬ isSpace c = true := by simp [ht c List.mem_cons_self]
    have hdrop : (left ++ c :: cs ++ right).dropWhile isSpace = c :: cs ++ right := by
      rw [List.append_assoc, List.dropWhile_append_of_pos hleft, List.cons_append,
        List.dropWhile_cons_of_neg hc]
    have hself : (c :: cs).rdropWhile isSpace = c :: cs := by
      refine List.rdropWhile_eq_self_iff.mpr fun hl => ?_
      simp [ht _ (List.getLast_mem hl)]
    have hright' : ∀ c ∈ right.reverse, isSpace c = true := fun c hc =>
      hright c (List.mem_reverse.mp hc)
    rw [trimSpace, hdrop, List.rdropWhile, List.reverse_append,
      List.dropWhile_append_of_pos hright']
    exact hself

theorem isSpace_of_numeral {s : List Char} {n : ℕ} (h : Numeral s n) :
    s ≠ [] ∧ ∀ c ∈ s, isSpace c = false := by
  obtain ⟨ds, rfl | rfl, hne, hdigits, -⟩ := h
  · exact ⟨hne, fun c hc => isSpace_of_isDigit (hdigits c hc)⟩
  · refine ⟨List.cons_ne_nil _ _, fun c hc => ?_⟩
    rcases List.mem_cons.mp hc with rfl | hc
    · decide
    · exact isSpace_of_isDigit (hdigits c hc)

/-- **What is read from a file.** -/
theorem readCgroupInt_eq_some_iff {file : Option (List Char)} {n : ℤ} :
    readCgroupInt (parseCgroup file) = some n ↔ ReadsAs file n := by
  have hparse : readCgroupInt (parseCgroup file) = some n ↔
      0 < n ∧ ∃ raw, file = some raw ∧ atoi (trimSpace raw) = .ok n := by
    rw [readCgroupInt, Option.filter_eq_some_iff, decide_eq_true_eq, and_comm, parseCgroup,
      Option.bind_eq_some_iff]
    refine and_congr_right fun _ => exists_congr fun raw => and_congr_right fun _ => ?_
    rw [← parseInt_eq_ok_iff]
    cases parseInt (trimSpace raw) <;> simp [Except.toOption]
  rw [hparse, ReadsAs]
  refine and_congr_right fun hpos => ?_
  constructor
  · rintro ⟨raw, rfl, hatoi⟩
    obtain ⟨hlt, k, hk, rfl⟩ := (atoi_eq_ok_iff_of_pos hpos).mp hatoi
    obtain ⟨hne, hspace⟩ := isSpace_of_numeral hk
    obtain ⟨left, right, hraw, hleft, hright⟩ := (trimSpace_eq_iff hne hspace).mp rfl
    exact ⟨hlt, left, _, right, k, congrArg some hraw, hleft, hright, hk, rfl⟩
  · rintro ⟨hlt, left, digits, right, k, rfl, hleft, hright, hk, rfl⟩
    obtain ⟨hne, hspace⟩ := isSpace_of_numeral hk
    refine ⟨_, rfl, (atoi_eq_ok_iff_of_pos hpos).mpr ⟨hlt, k, ?_, rfl⟩⟩
    rwa [(trimSpace_eq_iff hne hspace).mpr ⟨left, right, rfl, hleft, hright⟩]

theorem ReadsAs.unique {file : Option (List Char)} {m n : ℤ} (hm : ReadsAs file m)
    (hn : ReadsAs file n) : m = n :=
  Option.some.inj ((readCgroupInt_eq_some_iff.mpr hm).symm.trans (readCgroupInt_eq_some_iff.mpr hn))

/-! ### The guard -/

/-- `guardMemory`, after ticks that found these files. -/
def guardMemory (maxFile : Option (List Char)) (files : List (Option (List Char))) : Bool :=
  match readCgroupInt (parseCgroup maxFile) with
  | none => false
  | some cgroupMax =>
    files.foldl (fun overloaded file => guardTick cgroupMax (parseCgroup file) overloaded) false

/-- A number above the band was read, and since then none below it. -/
def Pressed (cgroupMax : ℤ) (files : List (Option (List Char))) : Prop :=
  ∃ before file after current, files = before ++ file :: after ∧ ReadsAs file current ∧
    high cgroupMax < current ∧ ∀ f ∈ after, ∀ x, ReadsAs f x → low cgroupMax ≤ x

/-- What one more file does. -/
theorem pressed_concat {cgroupMax : ℤ} (hmax : 0 < cgroupMax) (files : List (Option (List Char)))
    (file : Option (List Char)) : Pressed cgroupMax (files ++ [file]) ↔
      (∃ x, ReadsAs file x ∧ high cgroupMax < x) ∨
        Pressed cgroupMax files ∧ ∀ x, ReadsAs file x → low cgroupMax ≤ x := by
  have hband := low_le_high hmax
  constructor
  · rintro ⟨before, f, after, current, heq, hread, hhigh, hafter⟩
    rcases List.eq_nil_or_concat after with rfl | ⟨after, g, rfl⟩
    · obtain ⟨-, rfl⟩ := List.append_singleton_inj.mp heq
      exact .inl ⟨current, hread, hhigh⟩
    · rw [List.concat_eq_append, ← List.cons_append, ← List.append_assoc] at heq
      obtain ⟨rfl, rfl⟩ := List.append_singleton_inj.mp heq
      exact .inr ⟨⟨before, f, after, current, rfl, hread, hhigh,
        fun g hg => hafter g (by simp [hg])⟩, hafter file (by simp)⟩
  · rintro (⟨x, hread, hhigh⟩ | ⟨⟨before, f, after, current, rfl, hread, hhigh, hafter⟩, hlast⟩)
    · exact ⟨files, file, [], x, rfl, hread, hhigh, by simp⟩
    · refine ⟨before, f, after ++ [file], current, by simp, hread, hhigh, ?_⟩
      intro g hg
      rcases List.mem_append.mp hg with hg | hg
      · exact hafter g hg
      · exact List.mem_singleton.mp hg ▸ hlast

/-- One tick. -/
theorem guardTick_parseCgroup {cgroupMax : ℤ} (hmax : 0 < cgroupMax) (file : Option (List Char))
    (overloaded : Bool) : guardTick cgroupMax (parseCgroup file) overloaded = true ↔
      (∃ x, ReadsAs file x ∧ high cgroupMax < x) ∨
        overloaded = true ∧ ∀ x, ReadsAs file x → low cgroupMax ≤ x := by
  have hband := low_le_high hmax
  cases hread : readCgroupInt (parseCgroup file) with
  | none =>
    have hnone (x : ℤ) : ¬ ReadsAs file x := fun hx => by
      rw [readCgroupInt_eq_some_iff.mpr hx] at hread
      cases hread
    rw [guardTick, hread]
    simp [hnone]
  | some current =>
    have hcurrent := readCgroupInt_eq_some_iff.mp hread
    have hall (P : ℤ → Prop) : (∀ x, ReadsAs file x → P x) ↔ P current :=
      ⟨fun h => h current hcurrent, fun h x hx => hcurrent.unique hx ▸ h⟩
    have hex : (∃ x, ReadsAs file x ∧ high cgroupMax < x) ↔ high cgroupMax < current := by
      constructor
      · rintro ⟨x, hx, h⟩
        rwa [hcurrent.unique hx]
      · exact fun h => ⟨current, hcurrent, h⟩
    rw [hall, hex]
    cases hout : outside cgroupMax current with
    | true =>
      rw [guardTick_of_outside hmax hread hout, decide_eq_true_eq]
      simp only [outside, Bool.or_eq_true, decide_eq_true_eq] at hout
      omega
    | false =>
      rw [guardTick_of_not_outside hread hout]
      simp only [outside, Bool.or_eq_false_iff, decide_eq_false_iff_not] at hout
      simp only [hout.2, false_or]
      exact ⟨fun h => ⟨h, Int.not_lt.mp hout.1⟩, fun h => h.1⟩

theorem foldl_guardTick_iff {cgroupMax : ℤ} (hmax : 0 < cgroupMax)
    (files : List (Option (List Char))) :
    files.foldl (fun overloaded file => guardTick cgroupMax (parseCgroup file) overloaded) false =
      true ↔ Pressed cgroupMax files := by
  induction files using List.reverseRecOn with
  | nil => simp [Pressed]
  | append_singleton files file ih =>
    rw [List.foldl_append, List.foldl_cons, List.foldl_nil, guardTick_parseCgroup hmax,
      pressed_concat hmax, ih]

/-! ### The guard beside the requests -/

/-- What the guard has read when it wakes up. -/
def ServerAct.tick? : ServerAct → Option (Option ℤ)
  | .tick parsed => some parsed
  | _ => none

/-- Requests do not touch the flag. -/
theorem Server.overloaded_of_run {cgroupMax : ℤ} {acts : List ServerAct} {s : Server}
    (h : run (Server.step cgroupMax) Server.init acts = some s) :
    s.overloaded = (acts.filterMap ServerAct.tick?).foldl
      (fun overloaded parsed => guardTick cgroupMax parsed overloaded) false := by
  refine run_history (P := fun acts (s : Server) => s.overloaded =
    (acts.filterMap ServerAct.tick?).foldl
      (fun overloaded parsed => guardTick cgroupMax parsed overloaded) false) rfl ?_ h
  intro acts s a t hs ht
  rw [List.filterMap_append, List.foldl_append, ← hs]
  cases a with
  | tick parsed => exact (Option.some.inj ht) ▸ rfl
  | arrive => exact (Option.some.inj ht) ▸ rfl
  | request r ok =>
    obtain ⟨q, phase, effects, -, -, rfl⟩ := step_request_eq_some.mp ht
    rfl

/-- **From the files to the flag.** For every text of `memory.max` and every sequence of texts of
`memory.current`, readable or not: the flag is set if and only if there is a limit, a number above
the whole part of 90% of it was read, and none below the whole part of 85% since. It is the flag
that the requests see, in every interleaving of the requests with these ticks. -/
theorem guard_files (maxFile : Option (List Char)) (files : List (Option (List Char))) :
    (guardMemory maxFile files = true ↔
      ∃ cgroupMax, ReadsAs maxFile cgroupMax ∧ Pressed cgroupMax files) ∧
    ∀ cgroupMax acts s, ReadsAs maxFile cgroupMax →
      acts.filterMap ServerAct.tick? = files.map parseCgroup →
      run (Server.step cgroupMax) Server.init acts = some s →
      s.overloaded = guardMemory maxFile files := by
  constructor
  · rw [guardMemory]
    cases hmax : readCgroupInt (parseCgroup maxFile) with
    | none =>
      refine iff_of_false Bool.false_ne_true ?_
      rintro ⟨cgroupMax, hread, -⟩
      rw [readCgroupInt_eq_some_iff.mpr hread] at hmax
      cases hmax
    | some cgroupMax =>
      have hread := readCgroupInt_eq_some_iff.mp hmax
      refine (foldl_guardTick_iff hread.1 files).trans ?_
      constructor
      · exact fun h => ⟨cgroupMax, hread, h⟩
      · rintro ⟨m, hm, h⟩
        rwa [hread.unique hm]
  · intro cgroupMax acts s hread hticks hrun
    rw [Server.overloaded_of_run hrun, hticks, List.foldl_map, guardMemory,
      readCgroupInt_eq_some_iff.mpr hread]

end Millionws
