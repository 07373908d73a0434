import ExpandTree.Double.Rounding

/-!
The shortest decimal digits of a finite number: the fewest significant digits that read back to it,
and of these the closest to its exact value. Every candidate with a given count of digits lies on a
grid of powers of ten; only the two grid points around the exact value can qualify.
-/
namespace ExpandTree.Double

/-- A decimal magnitude, `digits` times ten to the `exponent`. -/
structure DecimalForm where
  digits : Nat
  exponent : Int
  deriving DecidableEq

namespace DecimalForm

/-- Moves trailing zeros of the digits into the exponent; `fuel` bounds their count. -/
def trimFuel : Nat → DecimalForm → DecimalForm
  | 0, form => form
  | fuel + 1, form =>
      if form.digits % 10 = 0 ∧ form.digits ≠ 0 then
        trimFuel fuel ⟨form.digits / 10, form.exponent + 1⟩
      else form

def trim (form : DecimalForm) : DecimalForm := trimFuel form.digits.log2 form

end DecimalForm

/-- Which of two equally close decimals is written. -/
inductive Tie where
  | up
  | toEven
  deriving DecidableEq

/-- The decimals that read back to a number lie between two bounds. Bounds and value are counted in
one unit, a quarter of the number's last binary place, and the bounds belong to the interval
exactly when the significand is even. -/
structure ReadBack where
  low : Nat
  value : Nat
  high : Nat
  closed : Bool
  unit : Int

/-- Below a power of two the numbers lie twice as close, so the lower bound is nearer there. -/
def readBack (d : Double) : ReadBack where
  low := 4 * d.significand - if d.significand = fractionCount ∧ -1074 < d.exponent then 1 else 2
  value := 4 * d.significand
  high := 4 * d.significand + 2
  closed := d.significand % 2 == 0
  unit := d.exponent - 2

/-- A bound or value, counted in tenths of powers: the quotient `n · 2^unit / 10^exponent`. -/
def ReadBack.over (r : ReadBack) (n : Nat) (exponent : Int) : Nat × Nat :=
  timesPower 10 (-exponent) (timesPower 2 r.unit (n, 1))

def ReadBack.holds (r : ReadBack) (exponent : Int) (candidate : Nat) : Bool :=
  let low := r.over r.low exponent
  let high := r.over r.high exponent
  if r.closed then low.1 ≤ candidate * low.2 && candidate * high.2 ≤ high.1
  else low.1 < candidate * low.2 && candidate * high.2 < high.1

/-- The digits at one grid, if one of the two points around the value reads back. -/
def ReadBack.onGrid (r : ReadBack) (tie : Tie) (exponent : Int) : Option DecimalForm :=
  let exact := r.over r.value exponent
  let below := exact.1 / exact.2
  let twice := 2 * (exact.1 % exact.2)
  let upper := exact.2 < twice ∨ twice = exact.2 ∧ (tie = .up ∨ below % 2 = 1)
  let (near, far) := if upper then (below + 1, below) else (below, below + 1)
  if r.holds exponent near then some ⟨near, exponent⟩
  else if r.holds exponent far then some ⟨far, exponent⟩
  else none

/-- The exponent of the greatest power of ten that a positive quotient reaches, searched from an
estimate that is never too high. -/
def decimalLog (num den : Nat) : Int :=
  let estimate : Int := (binaryLog num den * 30103) / 100000 - 1
  let reached (e : Int) : Bool :=
    let scaled := timesPower 10 (-e) (num, den)
    scaled.2 ≤ scaled.1
  if reached (estimate + 2) then estimate + 2
  else if reached (estimate + 1) then estimate + 1
  else estimate

/-- Tries grids from coarse to fine; seventeen digits always read back. -/
def ReadBack.search (r : ReadBack) (tie : Tie) : Nat → Int → DecimalForm
  | 0, exponent => ⟨(r.over r.value exponent).1 / (r.over r.value exponent).2, exponent⟩
  | finer + 1, exponent => (r.onGrid tie exponent).getD (r.search tie finer (exponent - 1))

/-- The shortest digits of a finite number's absolute value. -/
def shortest (tie : Tie) (d : Double) : DecimalForm :=
  if d.isZero then ⟨0, 0⟩
  else
    let (num, den) := d.magnitude
    ((readBack d).search tie 17 (decimalLog num den)).trim

end ExpandTree.Double
