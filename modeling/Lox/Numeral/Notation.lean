import Lox.Numeral.Shortest

/-!
How numbers are written: the shortest digits, placed by a `Style`. `display` is the text that
programs print, `debug` the one that shows a number apart from an integer.
-/

namespace Lox.Numeral

/-- Numbers below `10 ^ low` or from `10 ^ high` on are written with an exponent, if such bounds
are given; `point` asks for a fraction also on integers. -/
structure Style where
  bounds : Option (Int × Int)
  point : Bool

namespace Decimal

def numerals (d : Decimal) : List Char := Nat.toDigits 10 d.digits

/-- The power of ten of the first digit. -/
def magnitude (d : Decimal) : Int := d.numerals.length - 1 + d.exponent

def positional (point : Bool) (d : Decimal) : List Char :=
  let ds := d.numerals
  if 0 ≤ d.exponent then
    ds ++ List.replicate d.exponent.toNat '0' ++ if point then ['.', '0'] else []
  else if 0 ≤ d.magnitude then
    let whole := d.magnitude.toNat + 1
    ds.take whole ++ '.' :: ds.drop whole
  else
    '0' :: '.' :: (List.replicate (-d.magnitude - 1).toNat '0' ++ ds)

def scientific (d : Decimal) : List Char :=
  let fraction := d.numerals.drop 1
  d.numerals.take 1 ++ (if fraction.isEmpty then [] else '.' :: fraction)
    ++ 'e' :: (toString d.magnitude).toList

def write (style : Style) (d : Decimal) : List Char :=
  match style.bounds with
  | none => d.positional style.point
  | some (low, high) =>
    if d.digits = 0 || low ≤ d.magnitude && d.magnitude < high then d.positional style.point
    else d.scientific

end Decimal

/-- The text of the double with these fields; a zero keeps its sign, a number that is none has
none. -/
def writeFields (style : Style) (negative : Bool) (biased fraction : Nat) : String :=
  let sign := if negative then ['-'] else []
  if biased = 2047 then
    if fraction = 0 then String.ofList (sign ++ "inf".toList) else "NaN"
  else if biased = 0 && fraction = 0 then String.ofList (sign ++ Decimal.write style ⟨0, 0⟩)
  else String.ofList (sign ++ (Binary.ofFields biased fraction).shortest.write style)

def write (style : Style) (x : Float) : String :=
  let bits := x.toBits.toNat
  writeFields style (bits >>> 63 == 1) ((bits >>> 52) % 2048) (bits % Nat.pow 2 52)

/-- Never an exponent, and no point on an integer. -/
def display : Float → String := write ⟨none, false⟩

/-- A point on every integer, and an exponent below `1e-4` and from `1e16` on. -/
def debug : Float → String := write ⟨some (-4, 16), true⟩

end Lox.Numeral
