import Mathlib.Data.List.Count
import Mathlib.Logic.Function.Basic
import Mathlib.Data.List.Sublists
import Millionws.Echo
import Millionws.Transition

/-!
# Echoes on many connections

`Echo` follows one buffer from the sender to the reader as if nothing stood between them. Here the
load generator and the server are two parties. All connections share the one buffer of `sendLoop`,
each has its own messages in flight in either direction, and a message is lost when a write fails
or its connection is closed. The writes, the echoes, the replies and the closes come in any order.

A latency is the time of the reply less whatever time stands in it. So the histogram is right only
if what is read from a reply is the time of a message that was really sent, if no message is
measured twice, and if every reply is read. `Exchange.transit` is what carries it: on each
connection, the times that were read, then those on their way down, then those on their way up, are
the times that were sent, in order, less those that were lost.

## What is deliberately absent

Frames and their types: a message goes through `WriteMessage` and `OnMessage` as a whole. A
connection that is closed can be written to here, which only adds runs.

## Main definitions

* `Exchange`, `Exchange.step` — both parties and what is in flight between them
* `EchoLog`, `Exchange.watch` — a monitor: what was sent and what was read, with the connections

## Main results

* `Exchange.transit_step` — a step moves messages along, or loses some
* `Exchange.echoes_sound` — what the histogram and the counters say, in every run
* `Exchange.echoes_complete` — and that nothing is missing if nothing was lost
-/

namespace Millionws

open Transition Strconv

variable {C : Type} [DecidableEq C]

/-- The load generator, the server, and the messages in flight on each connection. -/
structure Exchange (C : Type) where
  buf : Buffer
  /-- To the server, the next one first. -/
  up : C → List (List Char)
  /-- Back to the load generator. -/
  down : C → List (List Char)
  messagesSent : ℕ
  messagesReceived : ℕ
  /-- What `echoLatency` observed, in nanoseconds. -/
  echoLatency : List ℤ

/-- A step of either party on one connection. -/
inductive ExchangeAct (C : Type) where
  /-- `sendLoop`: `AppendInt` at the time `now`, and `WriteMessage`. -/
  | send (c : C) (now : ℤ) (ok : Bool)
  /-- `OnMessage` of the server: `WriteMessage` with what it got. -/
  | echo (c : C) (ok : Bool)
  /-- `OnMessage` of the load generator, at the time `now`. -/
  | receive (c : C) (now : ℤ)
  /-- The connection is gone, and what was in flight on it. -/
  | close (c : C)
  deriving DecidableEq

namespace ExchangeAct

/-- The reading of the clock that goes into a message. -/
def stamp : ExchangeAct C → Option ℤ
  | .send _ now _ => some now
  | _ => none

/-- The reading of the clock. -/
def time : ExchangeAct C → Option ℤ
  | .send _ now _ => some now
  | .receive _ now => some now
  | _ => none

/-- Nothing is lost. -/
def lossless : ExchangeAct C → Bool
  | .echo _ ok => ok
  | .close _ => false
  | _ => true

def isReceive : ExchangeAct C → Bool
  | .receive _ _ => true
  | _ => false

/-- The message that a step puts in flight, by its connection and its time. -/
def sent : ExchangeAct C → List (C × ℤ)
  | .send c now true => [(c, now)]
  | _ => []

end ExchangeAct

namespace Exchange

/-- Nothing sent, with a payload of the flag's size. -/
def start (payload : ℤ) (spare : ℕ) : Exchange C :=
  ⟨newBuffer (payloadSize payload) spare, fun _ => [], fun _ => [], 0, 0, []⟩

/-- One step of either party. -/
def step (s : Exchange C) : ExchangeAct C → Option (Exchange C)
  | .send c now ok =>
    let buf := appendInt s.buf now
    if ok then
      some { s with
        buf := buf
        up := Function.update s.up c (s.up c ++ [buf.data])
        messagesSent := s.messagesSent + 1 }
    else some { s with buf := buf }
  | .echo c ok =>
    match s.up c with
    | [] => none
    | data :: rest => some { s with
        up := Function.update s.up c rest
        down := if ok then Function.update s.down c (s.down c ++ [data]) else s.down }
  | .receive c now =>
    match s.down c with
    | [] => none
    | data :: rest =>
      let s := { s with down := Function.update s.down c rest }
      match sentTime data with
      | none => some s
      | some sent => some { s with
          echoLatency := s.echoLatency ++ [now - sent]
          messagesReceived := s.messagesReceived + 1 }
  | .close c => some { s with
      up := Function.update s.up c []
      down := Function.update s.down c [] }

theorem step_echo_eq_some {s t : Exchange C} {c : C} {ok : Bool}
    (h : s.step (.echo c ok) = some t) : ∃ data rest, s.up c = data :: rest ∧ t = { s with
      up := Function.update s.up c rest
      down := if ok then Function.update s.down c (s.down c ++ [data]) else s.down } := by
  rw [step] at h
  split at h
  · cases h
  · exact ⟨_, _, by assumption, (Option.some.inj h).symm⟩

/-- A reply is off the connection, and in the histogram if a time can be read from it. -/
theorem step_receive_eq_some {s t : Exchange C} {c : C} {now : ℤ}
    (h : s.step (.receive c now) = some t) : ∃ data rest, s.down c = data :: rest ∧ t = { s with
      down := Function.update s.down c rest
      echoLatency := s.echoLatency ++ ((sentTime data).map (now - ·)).toList
      messagesReceived := s.messagesReceived + (sentTime data).isSome.toNat } := by
  rw [step] at h
  split at h
  · cases h
  · refine ⟨_, _, by assumption, ?_⟩
    split at h <;> rename_i hread <;> rw [← Option.some.inj h, hread] <;> simp

end Exchange

/-- What was sent, by connection and time, and what was read from the replies, with the time each
reply came in. -/
structure EchoLog (C : Type) where
  sent : List (C × ℤ)
  read : List ((C × ℤ) × ℤ)
  deriving DecidableEq

/-- The times in a log that belong to `c`. -/
def timesOn (c : C) (l : List (C × ℤ)) : List ℤ := (l.filter fun e => e.1 = c).map Prod.snd

@[simp] theorem timesOn_nil (c : C) : timesOn c [] = [] := rfl

theorem timesOn_append (c : C) (l l' : List (C × ℤ)) :
    timesOn c (l ++ l') = timesOn c l ++ timesOn c l' := by
  simp [timesOn]

theorem timesOn_self (c : C) (t : ℤ) : timesOn c [(c, t)] = [t] := by
  simp [timesOn]

theorem timesOn_of_ne {c d : C} (h : d ≠ c) (t : ℤ) : timesOn c [(d, t)] = [] := by
  simp [timesOn, h]

theorem mem_of_mem_timesOn {c : C} {l : List (C × ℤ)} {t : ℤ} (h : t ∈ timesOn c l) :
    (c, t) ∈ l := by
  obtain ⟨⟨d, u⟩, he, rfl⟩ := List.mem_map.mp h
  obtain ⟨hmem, hd⟩ := List.mem_filter.mp he
  obtain rfl : d = c := of_decide_eq_true hd
  exact hmem

theorem count_timesOn (c : C) (t : ℤ) (l : List (C × ℤ)) :
    (timesOn c l).count t = l.count (c, t) := by
  induction l with
  | nil => rfl
  | cons e l ih =>
    obtain ⟨d, u⟩ := e
    rw [← List.singleton_append, timesOn_append, List.count_append, List.count_append, ih]
    congr 1
    by_cases hd : d = c
    · subst hd
      rw [timesOn_self, List.count_singleton, List.count_singleton]
      simp
    · rw [timesOn_of_ne hd, List.count_singleton]
      simp [hd]

/-- A log that is part of another on each connection is part of it altogether. -/
theorem subperm_of_timesOn {l l' : List (C × ℤ)}
    (h : ∀ c, (timesOn c l).Sublist (timesOn c l')) : l.Subperm l' := by
  rw [List.subperm_ext_iff]
  rintro ⟨c, t⟩ -
  rw [← count_timesOn, ← count_timesOn]
  exact (h c).count_le t

namespace Exchange

/-- The monitor. -/
def watch (m : EchoLog C) (s : Exchange C) : ExchangeAct C → EchoLog C
  | .receive c now =>
    match (s.down c).head?.bind sentTime with
    | none => m
    | some t => { m with read := m.read ++ [((c, t), now)] }
  | a => { m with sent := m.sent ++ a.sent }

/-! ### The buffer -/

/-- What the sender may leave in the buffer: a clock reading and spaces. -/
def Written (buf : Buffer) : Prop :=
  ∃ size ds spare, 19 ≤ size ∧ ds.length ≤ 19 ∧ buf = ⟨padded size ds, spare⟩

theorem written_newBuffer (payload : ℤ) (spare : ℕ) :
    Written (newBuffer (payloadSize payload) spare) := by
  refine ⟨payloadSize payload, [], spare, ?_, Nat.zero_le _, rfl⟩
  rw [payloadSize]
  split_ifs <;> omega

/-- A clock reading goes over the one before it, and is read back. -/
theorem Written.appendInt {buf : Buffer} (h : Written buf) {t : ℤ} (ht : 10 ^ 18 ≤ t)
    (hmax : t < 2 ^ 63) :
    Written (appendInt buf t) ∧ sentTime (Millionws.appendInt buf t).data = some t := by
  obtain ⟨size, ds, spare, hsize, hds, rfl⟩ := h
  have hlen := length_itoa_eq ht hmax
  rw [data_appendInt (by omega) (by omega)]
  exact ⟨⟨size, itoa t, spare, hsize, by omega, rfl⟩, sentTime_padded (by omega) hmax size⟩

/-! ### What is in transit -/

/-- The times that were read on a connection, then those in its messages on their way down, then
those on their way up. -/
def transit (s : Exchange C) (m : EchoLog C) (c : C) : List (Option ℤ) :=
  (timesOn c (m.read.map Prod.fst)).map some ++ (s.down c).map sentTime ++ (s.up c).map sentTime

/-- What a step may do on connection `c`: send a message, read one, move one from one direction to
the other, or lose some. -/
theorem transit_step {p q : Exchange C × EchoLog C} {a : ExchangeAct C}
    (h : withMonitor step watch p a = some q) (hbuf : Written p.1.buf)
    (hclock : ∀ t ∈ a.stamp, 10 ^ 18 ≤ t ∧ t < 2 ^ 63) (c : C) :
    (transit q.1 q.2 c).Sublist (transit p.1 p.2 c ++ (timesOn c a.sent).map some) ∧
    (a.lossless = true → (∀ o ∈ transit p.1 p.2 c, o.isSome = true) →
      transit q.1 q.2 c = transit p.1 p.2 c ++ (timesOn c a.sent).map some) := by
  obtain ⟨s, m⟩ := p
  obtain ⟨t, m'⟩ := q
  obtain ⟨ht, hm⟩ := withMonitor_eq_some.mp h
  simp only at ht hm hbuf ⊢
  subst hm
  match a with
  | .send d now false =>
    obtain rfl := Option.some.inj ht
    simp [transit, watch, ExchangeAct.sent]
  | .send d now true =>
    obtain rfl := Option.some.inj ht
    obtain ⟨hnow, hmax⟩ := hclock now rfl
    have hread := (hbuf.appendInt hnow hmax).2
    have heq : transit { s with
          buf := appendInt s.buf now
          up := Function.update s.up d (s.up d ++ [(appendInt s.buf now).data])
          messagesSent := s.messagesSent + 1 } (watch m s (.send d now true)) c =
        transit s m c ++ (timesOn c [(d, now)]).map some := by
      by_cases hd : d = c
      · subst hd
        simp [transit, watch, timesOn_self, hread]
      · simp [transit, watch, timesOn_of_ne hd, Function.update_of_ne (Ne.symm hd)]
    exact ⟨heq ▸ List.Sublist.refl _, fun _ _ => heq⟩
  | .echo d ok =>
    obtain ⟨data, rest, hup, rfl⟩ := step_echo_eq_some ht
    by_cases hd : c = d
    · subst hd
      cases ok with
      | false => simp [transit, watch, ExchangeAct.sent, ExchangeAct.lossless, hup]
      | true => simp [transit, watch, ExchangeAct.sent, hup]
    · cases ok <;> simp [transit, watch, ExchangeAct.sent, Function.update_of_ne hd]
  | .receive d now =>
    obtain ⟨data, rest, hdown, rfl⟩ := step_receive_eq_some ht
    by_cases hd : c = d
    · subst hd
      cases hread : sentTime data with
      | none => simp [transit, watch, ExchangeAct.sent, hdown, hread]
      | some t =>
        simp [transit, watch, ExchangeAct.sent, hdown, hread, timesOn_append, timesOn_self]
    · cases hread : sentTime data with
      | none => simp [transit, watch, ExchangeAct.sent, Function.update_of_ne hd, hdown, hread]
      | some t =>
        simp [transit, watch, ExchangeAct.sent, Function.update_of_ne hd, hdown, hread,
          timesOn_append, timesOn_of_ne (Ne.symm hd)]
  | .close d =>
    obtain rfl := Option.some.inj ht
    by_cases hd : c = d
    · subst hd
      simp [transit, watch, ExchangeAct.sent, ExchangeAct.lossless]
    · simp [transit, watch, ExchangeAct.sent, Function.update_of_ne hd]

/-! ### Runs -/

omit [DecidableEq C] in
theorem sent_watch (m : EchoLog C) (s : Exchange C) (a : ExchangeAct C) :
    (watch m s a).sent = m.sent ++ a.sent := by
  match a with
  | .receive c now =>
    rw [watch]
    split <;> simp [ExchangeAct.sent]
  | .send c now ok | .echo c ok | .close c => rfl

/-- What holds after the actions `as`. -/
structure Sound (as : List (ExchangeAct C)) (s : Exchange C) (m : EchoLog C) : Prop where
  buf : Written s.buf
  transit : ∀ c, (s.transit m c).Sublist ((timesOn c m.sent).map some)
  sent : s.messagesSent = m.sent.length
  received : s.messagesReceived = m.read.length
  replies : as.countP ExchangeAct.isReceive = m.read.length
  latency : s.echoLatency = m.read.map fun e => e.2 - e.1.2
  stamped : ∀ e ∈ m.sent, e.2 ∈ as.filterMap ExchangeAct.time
  ordered : (as.filterMap ExchangeAct.time).Pairwise (· ≤ ·) → ∀ e ∈ m.read, e.1.2 ≤ e.2

theorem sound_start (payload : ℤ) (spare : ℕ) :
    Sound [] (start payload spare : Exchange C) ⟨[], []⟩ where
  buf := written_newBuffer payload spare
  transit c := by simp [Exchange.transit, start]
  sent := rfl
  received := rfl
  replies := rfl
  latency := rfl
  stamped e he := by simp at he
  ordered _ e he := by simp at he

/-- What is in transit is in the log. -/
theorem Sound.mem_sent {as : List (ExchangeAct C)} {s : Exchange C} {m : EchoLog C}
    (h : Sound as s m) {c : C} {o : Option ℤ} (ho : o ∈ s.transit m c) :
    ∃ t, o = some t ∧ (c, t) ∈ m.sent := by
  obtain ⟨t, ht, rfl⟩ := List.mem_map.mp ((h.transit c).subset ho)
  exact ⟨t, rfl, mem_of_mem_timesOn ht⟩

/-- **One step** of either party. -/
theorem Sound.step {as : List (ExchangeAct C)} {p q : Exchange C × EchoLog C} {a : ExchangeAct C}
    (h : Sound as p.1 p.2) (hclock : ∀ t ∈ a.stamp, 10 ^ 18 ≤ t ∧ t < 2 ^ 63)
    (hq : withMonitor step watch p a = some q) : Sound (as ++ [a]) q.1 q.2 := by
  obtain ⟨ht, hm⟩ := withMonitor_eq_some.mp hq
  have hlog : q.2.sent = p.2.sent ++ a.sent := by rw [hm, sent_watch]
  have htransit (c : C) : (q.1.transit q.2 c).Sublist ((timesOn c q.2.sent).map some) := by
    rw [hlog, timesOn_append, List.map_append]
    exact (transit_step hq h.buf hclock c).1.trans ((h.transit c).append_right _)
  have hstamped : ∀ e ∈ q.2.sent, e.2 ∈ (as ++ [a]).filterMap ExchangeAct.time := by
    rw [hlog, List.filterMap_append]
    intro e he
    rcases List.mem_append.mp he with he | he
    · exact List.mem_append_left _ (h.stamped e he)
    · match a with
      | .send c now true => simp_all [ExchangeAct.sent, ExchangeAct.time]
      | .send _ _ false | .echo _ _ | .receive _ _ | .close _ => simp [ExchangeAct.sent] at he
  obtain ⟨s, m⟩ := p
  obtain ⟨t, m'⟩ := q
  simp only at ht hm hlog htransit hstamped h ⊢
  subst hm
  have hbefore (hall : ((as ++ [a]).filterMap ExchangeAct.time).Pairwise (· ≤ ·)) :
      (as.filterMap ExchangeAct.time).Pairwise (· ≤ ·) := by
    rw [List.filterMap_append] at hall
    exact (List.pairwise_append.mp hall).1
  match a with
  | .send d now false =>
    obtain rfl := Option.some.inj ht
    have hbuf : Written (appendInt s.buf now) :=
      (h.buf.appendInt (hclock now rfl).1 (hclock now rfl).2).1
    exact ⟨hbuf, htransit, by simpa [hlog, ExchangeAct.sent] using h.sent, h.received,
      by simpa [watch, ExchangeAct.isReceive] using h.replies, h.latency, hstamped,
      fun hall => h.ordered (hbefore hall)⟩
  | .send d now true =>
    obtain rfl := Option.some.inj ht
    have hbuf : Written (appendInt s.buf now) :=
      (h.buf.appendInt (hclock now rfl).1 (hclock now rfl).2).1
    exact ⟨hbuf, htransit, by simpa [hlog, ExchangeAct.sent] using h.sent, h.received,
      by simpa [watch, ExchangeAct.isReceive] using h.replies, h.latency, hstamped,
      fun hall => h.ordered (hbefore hall)⟩
  | .echo d ok =>
    obtain ⟨data, rest, hup, rfl⟩ := step_echo_eq_some ht
    exact ⟨h.buf, htransit, by simpa [hlog, ExchangeAct.sent] using h.sent, h.received,
      by simpa [watch, ExchangeAct.isReceive] using h.replies, h.latency, hstamped,
      fun hall => h.ordered (hbefore hall)⟩
  | .close d =>
    obtain rfl := Option.some.inj ht
    exact ⟨h.buf, htransit, by simpa [hlog, ExchangeAct.sent] using h.sent, h.received,
      by simpa [watch, ExchangeAct.isReceive] using h.replies, h.latency, hstamped,
      fun hall => h.ordered (hbefore hall)⟩
  | .receive d now =>
    obtain ⟨data, rest, hdown, rfl⟩ := step_receive_eq_some ht
    -- the reply is in transit, so its time can be read, and it was sent before
    obtain ⟨t, hread, hsent⟩ : ∃ t, sentTime data = some t ∧ (d, t) ∈ m.sent :=
      h.mem_sent (c := d) (by simp [Exchange.transit, hdown])
    have hwatch : watch m s (.receive d now) = { m with read := m.read ++ [((d, t), now)] } := by
      simp [watch, hdown, hread]
    refine ⟨h.buf, htransit, by simpa [hlog, ExchangeAct.sent] using h.sent, ?_, ?_, ?_, hstamped,
      ?_⟩
    · simp [hwatch, hread, h.received]
    · simp [hwatch, ExchangeAct.isReceive, h.replies]
    · simp [hwatch, hread, h.latency]
    · intro hall e he
      rw [hwatch] at he
      rcases List.mem_append.mp he with he | he
      · exact h.ordered (hbefore hall) e he
      · obtain rfl := List.mem_singleton.mp he
        rw [List.filterMap_append] at hall
        exact (List.pairwise_append.mp hall).2.2 t (h.stamped _ hsent) now
          (by simp [ExchangeAct.time])

/-- Every clock reading that goes into a message is one of 19 digits. -/
def Clocked (as : List (ExchangeAct C)) : Prop :=
  ∀ a ∈ as, ∀ t ∈ a.stamp, 10 ^ 18 ≤ t ∧ t < 2 ^ 63

theorem sound_of_run {payload : ℤ} {spare : ℕ} {as : List (ExchangeAct C)}
    {p : Exchange C × EchoLog C} (hclock : Clocked as)
    (hrun : run (withMonitor step watch) (start payload spare, ⟨[], []⟩) as = some p) :
    Sound as p.1 p.2 := by
  refine run_history (P := fun as p => Clocked as → Sound as p.1 p.2)
    (fun _ => sound_start payload spare) ?_ hrun hclock
  intro as p a q ih hq hclock
  have hlast := hclock a (List.mem_append_right _ List.mem_cons_self)
  exact (ih fun b hb => hclock b (List.mem_append_left _ hb)).step hlast hq

/-- **The histogram is right.** In every run with a clock past September 2001, whatever is lost: on
each connection the times read from the replies are times that were sent there, in order, so no
message is measured twice; every reply is read; the counters count what was sent and what was read;
and with a clock that is not set back no latency is negative. -/
theorem echoes_sound (payload : ℤ) (spare : ℕ) {as : List (ExchangeAct C)} {s : Exchange C}
    {m : EchoLog C} (hclock : Clocked as)
    (hrun : run (withMonitor step watch) (start payload spare, ⟨[], []⟩) as = some (s, m)) :
    (∀ c, (timesOn c (m.read.map Prod.fst)).Sublist (timesOn c m.sent)) ∧
    (m.read.map Prod.fst).Subperm m.sent ∧
    s.echoLatency = m.read.map (fun e => e.2 - e.1.2) ∧
    as.countP ExchangeAct.isReceive = s.messagesReceived ∧
    s.messagesReceived = m.read.length ∧ s.messagesSent = m.sent.length ∧
    ((as.filterMap ExchangeAct.time).Pairwise (· ≤ ·) → ∀ l ∈ s.echoLatency, 0 ≤ l) := by
  have h := sound_of_run hclock hrun
  have hread (c : C) : (timesOn c (m.read.map Prod.fst)).Sublist (timesOn c m.sent) := by
    have hsome : ((timesOn c (m.read.map Prod.fst)).map some).Sublist
        ((timesOn c m.sent).map some) := by
      refine List.Sublist.trans ?_ (h.transit c)
      rw [transit, List.append_assoc]
      exact List.sublist_append_left _ _
    simpa [List.filterMap_map] using hsome.filterMap id
  refine ⟨hread, subperm_of_timesOn hread, h.latency, h.replies.trans h.received.symm, h.received,
    h.sent, ?_⟩
  intro hmono l hl
  rw [h.latency] at hl
  obtain ⟨e, he, rfl⟩ := List.mem_map.mp hl
  exact Int.sub_nonneg_of_le (h.ordered hmono e he)

/-- Two connections, on one of which a message is lost with the connection. -/
theorem echoes_sound_two : ∃ s m, run (withMonitor step watch)
    ((start 32 0 : Exchange ℕ), ⟨[], []⟩)
      [.send 1 1759190400000000000 true, .send 2 1759190400000000007 true, .echo 1 true,
        .close 2, .receive 1 1759190400000400000] = some (s, m) ∧
    s.echoLatency = m.read.map (fun e => e.2 - e.1.2) := by
  have hrun : (run (withMonitor step watch) ((start 32 0 : Exchange ℕ), ⟨[], []⟩)
      [.send 1 1759190400000000000 true, .send 2 1759190400000000007 true, .echo 1 true,
        .close 2, .receive 1 1759190400000400000]).isSome = true := by decide +kernel
  obtain ⟨⟨s, m⟩, hs⟩ := Option.isSome_iff_exists.mp hrun
  exact ⟨s, m, hs, (echoes_sound 32 0 (by simp [Clocked, ExchangeAct.stamp]) hs).2.2.1⟩

/-- **Nothing is missing.** If no echo fails and no connection is closed, then once nothing is in
flight every message that was written was measured: on each connection the times that were read are
the times that were sent, in order, and both counters agree. -/
theorem echoes_complete (payload : ℤ) (spare : ℕ) {as : List (ExchangeAct C)} {s : Exchange C}
    {m : EchoLog C} (hclock : Clocked as) (hloss : ∀ a ∈ as, a.lossless = true)
    (hrun : run (withMonitor step watch) (start payload spare, ⟨[], []⟩) as = some (s, m))
    (hidle : ∀ c, s.up c = [] ∧ s.down c = []) :
    (∀ c, timesOn c (m.read.map Prod.fst) = timesOn c m.sent) ∧
    (m.read.map Prod.fst).Perm m.sent ∧ s.messagesReceived = s.messagesSent := by
  have hkeep (c : C) : s.transit m c = (timesOn c m.sent).map some := by
    refine run_history (P := fun as p => Clocked as → (∀ a ∈ as, a.lossless = true) →
      Sound as p.1 p.2 ∧ p.1.transit p.2 c = (timesOn c p.2.sent).map some) ?_ ?_ hrun hclock hloss
      |>.2
    · intro _ _
      exact ⟨sound_start payload spare, by simp [transit, start]⟩
    · intro as p a q ih hq hclock hloss
      have hlast := hclock a (List.mem_append_right _ List.mem_cons_self)
      obtain ⟨h, heq⟩ := ih (fun b hb => hclock b (List.mem_append_left _ hb))
        (fun b hb => hloss b (List.mem_append_left _ hb))
      refine ⟨h.step hlast hq, ?_⟩
      rw [(transit_step hq h.buf hlast c).2 (hloss a (List.mem_append_right _ List.mem_cons_self))
        fun o ho => by obtain ⟨t, rfl, -⟩ := h.mem_sent ho; rfl]
      rw [heq, ← List.map_append, ← timesOn_append, (withMonitor_eq_some.mp hq).2, sent_watch]
  have hall (c : C) : timesOn c (m.read.map Prod.fst) = timesOn c m.sent := by
    have hsome := hkeep c
    rw [transit, (hidle c).1, (hidle c).2, List.map_nil, List.append_nil, List.append_nil] at hsome
    exact List.map_injective_iff.mpr (Option.some_injective ℤ) hsome
  have hperm : (m.read.map Prod.fst).Perm m.sent :=
    (subperm_of_timesOn fun c => (hall c) ▸ List.Sublist.refl _).antisymm
      (subperm_of_timesOn fun c => (hall c) ▸ List.Sublist.refl _)
  have h := sound_of_run hclock hrun
  refine ⟨hall, hperm, ?_⟩
  rw [h.received, h.sent, ← hperm.length_eq, List.length_map]

/-- Two connections, with the replies in the other order. -/
theorem echoes_complete_two : ∃ s m, run (withMonitor step watch)
    ((start 32 0 : Exchange Bool), ⟨[], []⟩)
      [.send false 1759190400000000000 true, .send true 1759190400000000007 true,
        .echo true true, .receive true 1759190400000000107, .echo false true,
        .receive false 1759190400000000207] = some (s, m) ∧
    s.messagesReceived = s.messagesSent := by
  have hrun : (run (withMonitor step watch) ((start 32 0 : Exchange Bool), ⟨[], []⟩)
      [.send false 1759190400000000000 true, .send true 1759190400000000007 true,
        .echo true true, .receive true 1759190400000000107, .echo false true,
        .receive false 1759190400000000207]).any
      (fun p => decide (∀ c, p.1.up c = [] ∧ p.1.down c = [])) = true := by decide +kernel
  obtain ⟨⟨s, m⟩, hs, hidle⟩ := (Option.any_eq_true _ _).mp hrun
  exact ⟨s, m, hs, (echoes_complete 32 0 (by simp [Clocked, ExchangeAct.stamp]) (by decide) hs
    (of_decide_eq_true hidle)).2.2⟩

end Exchange

end Millionws
