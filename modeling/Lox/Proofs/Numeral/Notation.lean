import Lox.Numeral.Notation
import Lox.Numeral.Reading
import Lox.Proofs.Numeral.Shortest
import Lox.Proofs.Source.Partition

/-!
The text of a number. A finite double that is not negative is written with digits, and with a point
among them or without one, as a number is in a program. The text tells which decimal it writes, and the
decimal which double rounds to it, so no two of them are written the same.
-/

namespace Lox

namespace Numeral

open Source (IsDigits IsLexeme span_of_all)

theorem ofDigits_eq (cs : List Char) : ofDigits cs = Nat.ofDigitChars 10 cs 0 := rfl

/-- What digits with a point among them are worth. -/
def valueOf (cs : List Char) : ℚ :=
  let (whole, rest) := cs.span Char.isDigit
  ofDigits (whole ++ rest.tail) / 10 ^ rest.tail.length

theorem valueOf_whole {ds : List Char} (h : IsDigits ds) : valueOf ds = ofDigits ds := by
  have whole : ds.span Char.isDigit = (ds, []) := by
    have cut : (ds ++ []).span Char.isDigit = (ds, []) :=
      span_of_all h.2 fun _ none => by cases none
    rwa [List.append_nil] at cut
  rw [valueOf, whole]
  simp

theorem valueOf_fraction {ds fs : List Char} (h : IsDigits ds) :
    valueOf (ds ++ '.' :: fs) = ofDigits (ds ++ fs) / 10 ^ fs.length := by
  have cut : (ds ++ '.' :: fs).span Char.isDigit = (ds, '.' :: fs) :=
    span_of_all h.2 (by rintro _ ⟨⟩; decide)
  rw [valueOf, cut]
  rfl

namespace Decimal

variable (d : Decimal)

theorem isDigits_numerals : IsDigits d.numerals :=
  ⟨Nat.toDigits_ne_nil, fun _ => Nat.isDigit_of_mem_toDigits (by decide) (by decide)⟩

theorem ofDigits_numerals : ofDigits d.numerals = d.digits := Nat.ofDigitChars_ten_toDigits

theorem value_of_neg {n : Nat} (h : d.exponent = -n) : d.value = d.digits / 10 ^ n := by
  rw [value, h, zpow_neg, zpow_natCast, div_eq_mul_inv]

theorem isDigits_zeros {ds : List Char} (h : IsDigits ds) (n : Nat) :
    IsDigits (ds ++ List.replicate n '0') ∧ IsDigits (List.replicate n '0' ++ ds) := by
  have zeros : ∀ c ∈ List.replicate n '0', c.isDigit := fun c hc =>
    (List.eq_of_mem_replicate hc).symm ▸ by decide
  constructor
  · exact ⟨List.append_ne_nil_of_left_ne_nil h.1 _, List.forall_mem_append.mpr ⟨h.2, zeros⟩⟩
  · exact ⟨List.append_ne_nil_of_right_ne_nil _ h.1, List.forall_mem_append.mpr ⟨zeros, h.2⟩⟩

/-- A decimal is written like a number in a program, and the text is worth what the decimal is. -/
theorem positional_spec :
    IsLexeme .number (d.positional false) ∧ valueOf (d.positional false) = d.value := by
  have digits := d.isDigits_numerals
  have length : 0 < d.numerals.length := List.length_pos_iff.mpr digits.1
  rw [positional]
  split
  · -- zeros behind the digits
    rename_i whole
    obtain ⟨n, hn⟩ := Int.eq_ofNat_of_zero_le whole
    have all := (isDigits_zeros digits n).1
    have worth : ofDigits (d.numerals ++ List.replicate n '0') = 10 ^ n * d.digits := by
      rw [ofDigits_eq, Nat.ofDigitChars_append, Nat.ofDigitChars_replicate_zero, ← ofDigits_eq,
        ofDigits_numerals]
    rw [hn, Int.toNat_natCast, if_neg Bool.false_ne_true, List.append_nil]
    refine ⟨.whole all, ?_⟩
    rw [valueOf_whole all, worth, value, hn, zpow_natCast, Nat.cast_mul, Nat.cast_pow, mul_comm]
    rfl
  · rename_i small
    obtain ⟨n, hn⟩ := Int.eq_ofNat_of_zero_le (show 0 ≤ -d.exponent by omega)
    have exponent : d.exponent = -n := by omega
    split
    · -- the point among the digits
      rename_i point
      rw [magnitude] at point
      have within : d.magnitude.toNat + 1 + n = d.numerals.length := by
        rw [magnitude]
        omega
      have front : IsDigits (d.numerals.take (d.magnitude.toNat + 1)) :=
        ⟨List.ne_nil_of_length_pos (by rw [List.length_take]; omega),
          fun c hc => digits.2 c (List.mem_of_mem_take hc)⟩
      have back : (d.numerals.drop (d.magnitude.toNat + 1)).length = n := by
        rw [List.length_drop]
        omega
      refine ⟨.fraction front ⟨List.ne_nil_of_length_pos (by omega), fun c hc =>
        digits.2 c (List.mem_of_mem_drop hc)⟩, ?_⟩
      rw [valueOf_fraction front, List.take_append_drop, back, ofDigits_numerals, d.value_of_neg exponent]
    · -- zeros in front of the digits
      rename_i point
      rw [magnitude] at point
      have zero : IsDigits ['0'] := ⟨List.cons_ne_nil _ _, List.forall_mem_singleton.mpr rfl⟩
      have back := (isDigits_zeros digits (-d.magnitude - 1).toNat).2
      have behind : (List.replicate (-d.magnitude - 1).toNat '0' ++ d.numerals).length = n := by
        rw [List.length_append, List.length_replicate, magnitude]
        omega
      have worth : ofDigits (['0'] ++ (List.replicate (-d.magnitude - 1).toNat '0' ++ d.numerals)) =
          d.digits := by
        rw [← ofDigits_numerals d, ofDigits_eq, ofDigits_eq, Nat.ofDigitChars_append,
          Nat.ofDigitChars_append, Nat.ofDigitChars_replicate_zero]
        rfl
      refine ⟨.fraction zero back, ?_⟩
      rw [← List.singleton_append, valueOf_fraction zero, worth, behind, d.value_of_neg exponent]

end Decimal

/-! Doubles that are not negative. -/

/-- The number of a double, in the order of the doubles that are not negative. -/
def rank (x : Float) : Nat := x.toBits.toNat

/-- The number of the infinite double. -/
def infiniteRank : Nat := 2047 * 2 ^ 52

theorem rank_injective : Function.Injective rank := by
  intro x y h
  obtain ⟨⟨bits, _⟩⟩ := x
  obtain ⟨⟨bits', _⟩⟩ := y
  obtain rfl : bits = bits' := UInt64.toNat.inj h
  rfl

variable {x : Float}

theorem display_eq (h : rank x < 2 ^ 63) :
    display x = writeFields ⟨none, false⟩ false (rank x / 2 ^ 52) (rank x % 2 ^ 52) := by
  have sign : rank x >>> 63 = 0 := by
    rw [Nat.shiftRight_eq_div_pow, Nat.div_eq_of_lt h]
  have biased : rank x >>> 52 % 2048 = rank x / 2 ^ 52 := by
    rw [Nat.shiftRight_eq_div_pow]
    omega
  change writeFields _ (rank x >>> 63 == 1) (rank x >>> 52 % 2048) (rank x % Nat.pow 2 52) = _
  rw [sign, biased]
  rfl

/-- A finite double is written as a decimal that rounds to it. -/
theorem display_of_lt (h : rank x < infiniteRank) : ∃ d : Decimal,
    (display x).toList = d.positional false ∧
      (Binary.ofRank (rank x)).covers d.exponent d.digits = true := by
  rw [infiniteRank] at h
  rw [display_eq (by omega), writeFields, if_neg (by omega)]
  split
  · -- zero
    rename_i zero
    have zero : rank x = 0 := by
      rw [Bool.and_eq_true, decide_eq_true_eq, decide_eq_true_eq] at zero
      omega
    rw [zero]
    exact ⟨⟨0, 0⟩, by rw [String.toList_ofList]; rfl, Binary.covers_zero⟩
  · rename_i nonzero
    have positive : 0 < rank x := by
      rw [Bool.and_eq_true, decide_eq_true_eq, decide_eq_true_eq] at nonzero
      omega
    obtain ⟨low, high⟩ := Binary.ofRank_exponent h
    refine ⟨(Binary.ofRank (rank x)).shortest, by rw [String.toList_ofList]; rfl, ?_⟩
    exact Binary.covers_shortest (Binary.ofRank_mantissa_lt _) (Binary.ofRank_mantissa_pos positive)
      low high

theorem display_of_eq (h : rank x = infiniteRank) : display x = "inf" := by
  rw [display_eq (by rw [h]; decide), h]
  rfl

/-- A finite double that is not negative is written like a number in a program. -/
theorem isLexeme_display (h : rank x < infiniteRank) : IsLexeme .number (display x).toList := by
  obtain ⟨d, text, -⟩ := display_of_lt h
  exact text ▸ d.positional_spec.1

/-- No two of them are written the same. -/
theorem injOn_display : Set.InjOn display {x | rank x < infiniteRank} := by
  intro x hx y hy same
  obtain ⟨d, text, covers⟩ := display_of_lt hx
  obtain ⟨d', text', covers'⟩ := display_of_lt hy
  have value : d.value = d'.value := by
    rw [← d.positional_spec.2, ← text, same, text', d'.positional_spec.2]
  exact rank_injective (Binary.rank_unique covers covers' value)

end Numeral

end Lox
