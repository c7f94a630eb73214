/-!
# Times

A time is a whole number of nanoseconds. Arithmetic on times is exact; only the two bounds of the
64-bit range matter to the rest of the library. Most operations stop at them instead of going past;
what goes past the latest time all the same comes out at the earliest (`wrap`).
-/

namespace StateHistory

/-- A point in time, in nanoseconds. -/
abbrev Time := Int

namespace Time

/-- The earliest time of the 64-bit range. -/
def earliest : Time := -9223372036854775808

/-- The latest time of the 64-bit range. -/
def latest : Time := 9223372036854775807

/-- The times that fit in 64 bits. -/
def InRange (t : Time) : Prop := earliest ≤ t ∧ t ≤ latest

instance (t : Time) : Decidable (InRange t) := inferInstanceAs (Decidable (_ ∧ _))

/-- The time just before `t`, or the earliest time if there is none. -/
def before (t : Time) : Time := max (t - 1) earliest

/-- The time just after `t`, or the latest time if there is none. -/
def after (t : Time) : Time := min (t + 1) latest

/-- What is left of a time in 64 bits. -/
def wrap (t : Time) : Time := Int.bmod t 18446744073709551616

end Time

end StateHistory
