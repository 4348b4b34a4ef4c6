import ScopeScript.Machine

set_option autoImplicit false

/-!
A clock that shows moments taken from outside.

A program that waits for input is run again from an earlier point. The clock answers the readings
that it has answered before in the same way, and later ones by a later moment.
-/

namespace ScopeScript.CommandLine

structure Moment where
  hour : Nat
  minute : Nat
  seconds : Float

namespace Moment

def twoDigits (n : Nat) : String :=
  if n < 10 then "0" ++ n.repr else n.repr

def timeOfDay (m : Moment) : String :=
  let hour := if m.hour % 12 = 0 then 12 else m.hour % 12
  twoDigits hour ++ ":" ++ twoDigits m.minute ++ (if m.hour < 12 then " AM" else " PM")

end Moment

/-- A first moment, and later ones with the number of the reading from which on they show. The
latest stands in front. -/
structure Timeline where
  start : Moment
  later : List (Nat × Moment)

namespace Timeline

def add (line : Timeline) (reading : Nat) (m : Moment) : Timeline :=
  { line with later := (reading, m) :: line.later }

def moment (line : Timeline) (reading : Nat) : Moment :=
  match line.later.find? fun entry => decide (entry.1 ≤ reading) with
  | some entry => entry.2
  | none => line.start

/-- The clock of a timeline. A tenth of a microsecond passes between readings of one moment. -/
def clock (line : Timeline) : Clock where
  time reading := (line.moment reading).timeOfDay
  uptime reading :=
    (line.moment reading).seconds - line.start.seconds + Float.ofNat reading / 10000000

end Timeline

end ScopeScript.CommandLine
