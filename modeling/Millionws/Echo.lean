import Mathlib.Data.List.Forall2
import Millionws.Strconv

/-!
# Timestamps in an echoed message

`sendLoop` prints the time into the front of a buffer that it never clears and sends the whole
buffer; the server sends it back, and `OnMessage` reads the time from what stands before the first
space. So a message is right only if every digit of the times before it has been overwritten.

It has been as long as no time is narrower than the one before it: behind the digits there are
spaces only, which is the invariant, `padded`. Every clock reading from September 2001 to the end
of `int64` has 19 digits, whichever way the clock moves.

## The buffer

`AppendInt(buf[:0], …)` writes into the array under `buf` if the digits fit its capacity, and into
a new one, which nobody keeps, if they do not. `Buffer` has the capacity that `bytes.Repeat` may
leave behind the bytes that are sent. A byte is a character, since all that is written is ASCII.

## What is deliberately absent

The network: `WriteMessage` does not change the buffer, and the server sends back what it gets.

## Main definitions

* `Buffer`, `appendInt`, `sendAll` — the sender
* `sentTime` — the receiver

## Main results

* `data_appendInt` — a time that is no narrower overwrites the one before it
* `echo_round_trip` — every message is as long as it should be and is read as its own time
-/

namespace Millionws

open Strconv

/-! ### The two ends -/

/-- A slice: the bytes it shows and the capacity behind them. -/
structure Buffer where
  data : List Char
  spare : ℕ
  deriving DecidableEq

/-- The message size of the flag `-payload`: at least 20 bytes. -/
def payloadSize (payload : ℤ) : ℕ := (if payload < 20 then 20 else payload).toNat

/-- `bytes.Repeat([]byte{' '}, size)`. -/
def newBuffer (size spare : ℕ) : Buffer := ⟨List.replicate size ' ', spare⟩

/-- `strconv.AppendInt(buf[:0], t, 10)`, for what it does to `buf`. -/
def appendInt (buf : Buffer) (t : ℤ) : Buffer :=
  if (itoa t).length ≤ buf.data.length + buf.spare then
    { buf with data := (itoa t ++ buf.data.drop (itoa t).length).take buf.data.length }
  else buf

/-- The messages that are sent at the times `ts`. -/
def sendAll : Buffer → List ℤ → List (List Char)
  | _, [] => []
  | buf, t :: ts => (appendInt buf t).data :: sendAll (appendInt buf t) ts

/-- `OnMessage`: the time that a message was sent at, unless it is ignored. -/
def sentTime (data : List Char) : Option ℤ :=
  let stop := (data.idxOf? ' ').getD data.length
  (parseInt (data.take stop)).toOption

/-! ### Widths -/

/-- No time is narrower in decimal than one before it. -/
def NeverNarrower (ts : List ℤ) : Prop := ts.Pairwise fun s t => (itoa s).length ≤ (itoa t).length

/-- A time that is not negative prints as its digits. -/
theorem itoa_of_nonneg {t : ℤ} (ht : 0 ≤ t) : itoa t = Nat.toDigits 10 t.toNat := by
  have habs : t.natAbs = t.toNat := by omega
  rw [itoa, if_neg (by omega), habs]

theorem length_itoa_le {t : ℤ} (ht : 0 ≤ t) (hmax : t < 2 ^ 63) : (itoa t).length ≤ 19 := by
  rw [itoa_of_nonneg ht, Nat.length_toDigits_le_iff (by decide) (by decide)]
  omega

/-- A clock reading after 2001 has 19 digits. -/
theorem length_itoa_eq {t : ℤ} (ht : 10 ^ 18 ≤ t) (hmax : t < 2 ^ 63) : (itoa t).length = 19 := by
  refine Nat.le_antisymm (length_itoa_le (by omega) hmax) ?_
  by_contra hlt
  have hle : (itoa t).length ≤ 18 := by omega
  rw [itoa_of_nonneg (by omega), Nat.length_toDigits_le_iff (by decide) (by decide)] at hle
  omega

theorem space_notMem_itoa {t : ℤ} (ht : 0 ≤ t) : ' ' ∉ itoa t := by
  rw [itoa_of_nonneg ht]
  intro hc
  exact absurd (Nat.isDigit_of_mem_toDigits (by decide) (by decide) hc) (by decide)

/-! ### One message -/

/-- `ds`, filled up with spaces. -/
def padded (size : ℕ) (ds : List Char) : List Char := ds ++ List.replicate (size - ds.length) ' '

theorem length_padded {size : ℕ} {ds : List Char} (h : ds.length ≤ size) :
    (padded size ds).length = size := by
  rw [padded, List.length_append, List.length_replicate]
  omega

/-- **A time overwrites the one before it**, if it is no narrower and fits. -/
theorem data_appendInt {size spare : ℕ} {ds : List Char} {t : ℤ}
    (hle : ds.length ≤ (itoa t).length) (hfit : (itoa t).length ≤ size) :
    appendInt ⟨padded size ds, spare⟩ t = ⟨padded size (itoa t), spare⟩ := by
  have hlen : (padded size ds).length = size := length_padded (Nat.le_trans hle hfit)
  have hrest : (padded size ds).drop (itoa t).length =
      List.replicate (size - (itoa t).length) ' ' := by
    rw [padded, List.drop_append, List.drop_eq_nil_of_le hle, List.nil_append, List.drop_replicate]
    congr 1
    omega
  rw [appendInt, if_pos (by simp only [hlen]; omega)]
  simp only [hlen, hrest]
  rw [← padded, List.take_of_length_le (Nat.le_of_eq (length_padded hfit))]

/-- What stands before the first space. -/
theorem take_idxOf?_padded {ds : List Char} (h : ' ' ∉ ds) (size : ℕ) :
    (padded size ds).take (((padded size ds).idxOf? ' ').getD (padded size ds).length) = ds := by
  rw [padded]
  cases hk : size - ds.length with
  | zero =>
    rw [List.replicate_zero, List.append_nil, List.idxOf?_eq_none_iff.mpr h]
    exact List.take_length
  | succ k =>
    have hidx : (ds ++ List.replicate (k + 1) ' ').idxOf? ' ' = some ds.length := by
      refine List.idxOf?_eq_some_iff.mpr ⟨by simp, by simp, ?_⟩
      intro j hj hspace
      rw [List.getElem_append_left hj] at hspace
      exact h (hspace ▸ List.getElem_mem hj)
    rw [hidx]
    exact List.take_left

/-- **One message** is read as its own time. -/
theorem sentTime_padded {t : ℤ} (ht : 0 ≤ t) (hmax : t < 2 ^ 63) (size : ℕ) :
    sentTime (padded size (itoa t)) = some t := by
  have hparse : parseInt (itoa t) = .ok t := parseInt_eq_ok_iff.mpr (atoi_itoa (by omega) hmax)
  rw [sentTime, take_idxOf?_padded (space_notMem_itoa ht), hparse]
  rfl

/-! ### All of them -/

theorem sendAll_padded {size spare : ℕ} {ds : List Char} {ts : List ℤ} (hsize : 19 ≤ size)
    (hint : ∀ t ∈ ts, 0 ≤ t ∧ t < 2 ^ 63) (hwidth : NeverNarrower ts)
    (hfirst : ∀ t ∈ ts, ds.length ≤ (itoa t).length) :
    List.Forall₂ (fun t msg => msg.length = size ∧ sentTime msg = some t) ts
      (sendAll ⟨padded size ds, spare⟩ ts) := by
  induction ts generalizing ds with
  | nil => exact .nil
  | cons t ts ih =>
    obtain ⟨ht, hmax⟩ := hint t List.mem_cons_self
    obtain ⟨hnext, hrest⟩ := List.pairwise_cons.mp hwidth
    have hfit : (itoa t).length ≤ size := Nat.le_trans (length_itoa_le ht hmax) hsize
    rw [sendAll, data_appendInt (hfirst t List.mem_cons_self) hfit]
    refine .cons ⟨length_padded hfit, sentTime_padded ht hmax size⟩ ?_
    exact ih (fun u hu => hint u (List.mem_cons_of_mem _ hu)) hrest hnext

/-- **The round trip.** At every payload size, if no time is narrower than one before it then each
message is exactly of that size and is read as the time it was sent at; and clock readings from
`10 ^ 18` nanoseconds on never are. -/
theorem echo_round_trip (payload : ℤ) (spare : ℕ) :
    (∀ ts : List ℤ, (∀ t ∈ ts, 0 ≤ t ∧ t < 2 ^ 63) → NeverNarrower ts →
      List.Forall₂ (fun t msg => msg.length = payloadSize payload ∧ sentTime msg = some t) ts
        (sendAll (newBuffer (payloadSize payload) spare) ts)) ∧
    ∀ ts : List ℤ, (∀ t ∈ ts, 10 ^ 18 ≤ t ∧ t < 2 ^ 63) → NeverNarrower ts := by
  constructor
  · intro ts hint hwidth
    have hsize : 19 ≤ payloadSize payload := by
      rw [payloadSize]
      split_ifs <;> omega
    have hstart : newBuffer (payloadSize payload) spare =
        ⟨padded (payloadSize payload) [], spare⟩ := rfl
    rw [hstart]
    exact sendAll_padded hsize hint hwidth fun t _ => Nat.zero_le _
  · intro ts hclock
    refine List.pairwise_iff_forall_sublist.mpr ?_
    intro s t hst
    obtain ⟨hs, hsmax⟩ := hclock s (hst.subset (by simp))
    obtain ⟨ht, htmax⟩ := hclock t (hst.subset (by simp))
    rw [length_itoa_eq hs hsmax, length_itoa_eq ht htmax]

/-- The default payload, and a clock that is set back. -/
theorem echo_round_trip_default :
    List.Forall₂ (fun t msg => msg.length = 32 ∧ sentTime msg = some t)
      [1759190400000000000, 1759190399000000000]
      (sendAll (newBuffer 32 0) [1759190400000000000, 1759190399000000000]) :=
  (echo_round_trip 32 0).1 _ (by decide) ((echo_round_trip 32 0).2 _ (by decide))

/-- A narrower time leaves a digit behind. -/
example : (sendAll (newBuffer 20 0) [10, 7]).map sentTime = [some 10, some 70] := by decide

end Millionws
