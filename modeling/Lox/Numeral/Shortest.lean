/-!
The shortest decimal that reads back as a given double.

A positive double is `m * 2 ^ q` and stands for every real that rounds to it, an interval around
it that contains its ends exactly when `m` is even. `shortest` finds the coarsest decimal grid with
a point in that interval and takes the point nearest to the double, the upper one on a tie.
-/

namespace Lox.Numeral

/-- The number `mantissa * 2 ^ exponent`. The gap below it is half the gap above when `narrow`. -/
structure Binary where
  mantissa : Nat
  exponent : Int
  narrow : Bool
  deriving Repr, DecidableEq

/-- The number `digits * 10 ^ exponent`. -/
structure Decimal where
  digits : Nat
  exponent : Int
  deriving Repr, DecidableEq

namespace Binary

/-- The finite number with the given exponent and fraction fields of a double. -/
def ofFields (biased fraction : Nat) : Binary :=
  if biased = 0 then ⟨fraction, -1074, false⟩
  else ⟨Nat.pow 2 52 + fraction, biased - 1075, fraction == 0 && 1 < biased⟩

/-- Factors `(a, b)` with `4 * x / 10 ^ k = 4 * mantissa * a / b`, for `x` the number itself. -/
def scale (x : Binary) (k : Int) : Nat × Nat :=
  (Nat.pow 2 (x.exponent - 2).toNat * Nat.pow 10 (-k).toNat,
    Nat.pow 2 (2 - x.exponent).toNat * Nat.pow 10 k.toNat)

/-- Does `d * 10 ^ k` round to `x`? Distances are measured in quarters of the gap above `x`. -/
def covers (x : Binary) (k : Int) (d : Nat) : Bool :=
  let (a, b) := x.scale k
  let low := (4 * x.mantissa - if x.narrow then 1 else 2) * a
  let high := (4 * x.mantissa + 2) * a
  if x.mantissa % 2 = 0 then low ≤ d * b && d * b ≤ high else low < d * b && d * b < high

/-- The multiple of `10 ^ k` at or next below `x`. -/
def floorAt (x : Binary) (k : Int) : Nat :=
  let (a, b) := x.scale k
  4 * x.mantissa * a / b

/-- The multiple of `10 ^ k` nearest to `x` among those that round to `x`. -/
def nearestAt? (x : Binary) (k : Int) : Option Nat :=
  let (a, b) := x.scale k
  let d := x.floorAt k
  match x.covers k d, x.covers k (d + 1) with
  | true, true => some (if 2 * (4 * x.mantissa * a - d * b) < b then d else d + 1)
  | true, false => some d
  | false, true => some (d + 1)
  | false, false => none

/-- Tries the grids `10 ^ k`, `10 ^ (k - 1)`, … -/
def search (x : Binary) : Nat → Int → Decimal
  | 0, k => ⟨x.floorAt k, k⟩
  | n + 1, k =>
    match x.nearestAt? k with
    | some d => ⟨d, k⟩
    | none => x.search n (k - 1)

/-- A power of ten not below `x`: `30103 / 100000` is the logarithm of two. -/
def ceilingExponent (x : Binary) : Int :=
  (x.mantissa.log2 + 1 + x.exponent) * 30103 / 100000 + 1

/-- Seventeen digits always suffice, and the first grid lies at most two powers above the first
digit. -/
def shortest (x : Binary) : Decimal := x.search 20 x.ceilingExponent

theorem covers_nearestAt? {x : Binary} {k : Int} {d : Nat} (h : x.nearestAt? k = some d) :
    x.covers k d = true := by
  simp only [nearestAt?] at h
  split at h <;> rename_i h₀ h₁
  · split at h <;> cases h <;> assumption
  · cases h; exact h₀
  · cases h; exact h₁
  · cases h

end Binary

end Lox.Numeral
