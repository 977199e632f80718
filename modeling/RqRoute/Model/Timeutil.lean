import Mathlib.Data.Rat.Floor
import RqRoute.Model.Arith

/-! # Time

`timeutil.c`, with every `double` an exact rational number. -/

namespace RqRoute

structure Timespec where
  tv_sec : ℤ
  tv_nsec : ℤ
deriving DecidableEq, Repr

namespace Timespec

/-- The time in seconds. -/
def seconds (ts : Timespec) : ℚ := ts.tv_sec + ts.tv_nsec / 10 ^ 9

/-- What `nanosleep` accepts; it returns at once with an error otherwise. -/
structure Valid (ts : Timespec) : Prop where
  sec : 0 ≤ ts.tv_sec
  nsec : 0 ≤ ts.tv_nsec
  nsec_lt : ts.tv_nsec < 10 ^ 9

/-- The nanoseconds are a part of a second. -/
structure Normal (ts : Timespec) : Prop where
  nsec : 0 ≤ ts.tv_nsec
  nsec_lt : ts.tv_nsec < 10 ^ 9

end Timespec

/-- The conversion from a floating-point type to an integer type drops the fraction. -/
def truncate (x : ℚ) : ℤ := if 0 ≤ x then ⌊x⌋ else ⌈x⌉

def getDeltaSeconds (a b : Timespec) : ℚ :=
  (a.tv_sec - b.tv_sec : ℤ) + (a.tv_nsec - b.tv_nsec : ℤ) / 10 ^ 9

/-- `none` where the assertion fails, and where `delta_int`, an `int`, cannot hold the whole
seconds. -/
def addDeltaTo (ts : Timespec) (delta : ℚ) : Option Timespec :=
  let delta_int := ⌊delta⌋
  if ¬FitsInt delta_int then none
  else
    let tv_sec := ts.tv_sec + delta_int
    let delta_frac := delta - delta_int
    let tv_nsec := truncate (ts.tv_nsec + delta_frac * 10 ^ 9)
    if tv_nsec ≥ 10 ^ 9 then
      let tv_nsec := tv_nsec - 10 ^ 9
      if tv_nsec < 10 ^ 9 then some { tv_sec := tv_sec + 1, tv_nsec } else none
    else some { tv_sec, tv_nsec }

def getTimespecFromSeconds (secs : ℚ) : Timespec :=
  let tv_sec := truncate secs
  { tv_sec, tv_nsec := truncate ((secs - tv_sec) * 10 ^ 9) }

end RqRoute
