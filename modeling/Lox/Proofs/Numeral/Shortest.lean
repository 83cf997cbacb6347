import Lox.Numeral.Shortest
import Mathlib.Algebra.Order.Field.Power
import Mathlib.Data.Rat.Cast.Order
import Mathlib.Order.Monotone.Basic
import Mathlib.Tactic.Linarith
import Mathlib.Tactic.NormNum
import Mathlib.Tactic.Positivity
import Mathlib.Tactic.Ring

/-!
The shortest decimal of a double. The search for it ends in a decimal that rounds to the double. The
doubles that are not negative are numbered in their order; a real that rounds to one of them lies
between two edges, the upper edge of each is the lower one of the next, and only the doubles with an
even number have their edges. So no decimal rounds to two doubles.
-/

namespace Lox.Numeral

theorem pow_toNat {c : ℚ} (hc : c ≠ 0) (z : Int) : c ^ z.toNat = c ^ (-z).toNat * c ^ z := by
  rw [← zpow_natCast, ← zpow_natCast, ← zpow_add₀ hc]
  congr 1
  omega

theorem pow_le_pow_of_pow_le {a b i j m n : Nat} (h : a ^ i ≤ b ^ j) (hi : i ≠ 0) (hb : 0 < b)
    (hn : j * m ≤ i * n) : a ^ m ≤ b ^ n := by
  refine (Nat.pow_le_pow_iff_left hi).mp ?_
  calc (a ^ m) ^ i
    _ = (a ^ i) ^ m := by rw [← pow_mul, ← pow_mul, Nat.mul_comm]
    _ ≤ (b ^ j) ^ m := Nat.pow_le_pow_left h m
    _ = b ^ (j * m) := (pow_mul ..).symm
    _ ≤ b ^ (i * n) := Nat.pow_le_pow_right hb hn
    _ = (b ^ n) ^ i := by rw [← pow_mul, Nat.mul_comm]

/-- The number that a decimal writes. -/
def Decimal.value (d : Decimal) : ℚ := d.digits * 10 ^ d.exponent

namespace Binary

/-! What rounds to a double. -/

/-- A quarter of the gap above the number. -/
def quarter (x : Binary) : ℚ := 2 ^ (x.exponent - 2)

/-- Where the reals begin that round to the number. -/
def low (x : Binary) : ℚ := (4 * x.mantissa - if x.narrow then 1 else 2 : Nat) * x.quarter

/-- Where they end. -/
def high (x : Binary) : ℚ := (4 * x.mantissa + 2 : Nat) * x.quarter

theorem quarter_pos (x : Binary) : 0 < x.quarter := zpow_pos two_pos _

theorem low_lt_high (x : Binary) : x.low < x.high := by
  refine mul_lt_mul_of_pos_right (Nat.cast_lt.mpr ?_) x.quarter_pos
  split <;> omega

section Scale

variable (x : Binary) (k : Int) (d n : Nat)

theorem scale_pos : 0 < (x.scale k).2 :=
  Nat.mul_pos (Nat.pow_pos (by decide)) (Nat.pow_pos (by decide))

/-- The factors are those between a quarter of the gap and the grid. -/
theorem scale_eq : ((x.scale k).1 : ℚ) * 10 ^ k = (x.scale k).2 * x.quarter := by
  have two := pow_toNat (two_ne_zero (α := ℚ)) (x.exponent - 2)
  have ten := pow_toNat (by norm_num : (10 : ℚ) ≠ 0) k
  rw [neg_sub] at two
  have first : ((x.scale k).1 : ℚ) = 2 ^ (x.exponent - 2).toNat * 10 ^ (-k).toNat := by
    simp [scale]
  have second : ((x.scale k).2 : ℚ) = 2 ^ (2 - x.exponent).toNat * 10 ^ k.toNat := by
    simp [scale]
  rw [first, second, two, ten, quarter]
  ring

/-- Quarters and points of the grid are compared as multiples of the factors. -/
theorem scaled : ((n * (x.scale k).1 : Nat) : ℚ) = (x.scale k).2 * (n * x.quarter) / 10 ^ k ∧
    ((d * (x.scale k).2 : Nat) : ℚ) = (x.scale k).2 * (d * 10 ^ k) / 10 ^ k := by
  have ten : (10 : ℚ) ^ k ≠ 0 := zpow_ne_zero k (by norm_num)
  constructor
  · rw [eq_div_iff ten, Nat.cast_mul, mul_assoc, scale_eq]
    ring
  · rw [eq_div_iff ten, Nat.cast_mul]
    ring

theorem scaled_le : n * (x.scale k).1 ≤ d * (x.scale k).2 ↔ n * x.quarter ≤ d * 10 ^ k := by
  obtain ⟨quarters, points⟩ := x.scaled k d n
  have ten : (0 : ℚ) < 10 ^ k := zpow_pos (by norm_num) k
  have scale : (0 : ℚ) < (x.scale k).2 := Nat.cast_pos.mpr (x.scale_pos k)
  rw [← Nat.cast_le (α := ℚ), quarters, points, div_le_div_iff_of_pos_right ten,
    mul_le_mul_iff_of_pos_left scale]

theorem le_scaled : d * (x.scale k).2 ≤ n * (x.scale k).1 ↔ d * 10 ^ k ≤ n * x.quarter := by
  obtain ⟨quarters, points⟩ := x.scaled k d n
  have ten : (0 : ℚ) < 10 ^ k := zpow_pos (by norm_num) k
  have scale : (0 : ℚ) < (x.scale k).2 := Nat.cast_pos.mpr (x.scale_pos k)
  rw [← Nat.cast_le (α := ℚ), quarters, points, div_le_div_iff_of_pos_right ten,
    mul_le_mul_iff_of_pos_left scale]

/-- The decimal rounds to the number if it lies between the edges, or on one if they are included. -/
theorem covers_iff : x.covers k d = true ↔ if x.mantissa % 2 = 0
    then x.low ≤ d * 10 ^ k ∧ d * 10 ^ k ≤ x.high
    else x.low < d * 10 ^ k ∧ d * 10 ^ k < x.high := by
  simp only [covers]
  split
  · rw [Bool.and_eq_true, decide_eq_true_eq, decide_eq_true_eq, scaled_le, le_scaled]
    rfl
  · rw [Bool.and_eq_true, decide_eq_true_eq, decide_eq_true_eq, ← Nat.not_le, ← Nat.not_le, le_scaled,
      scaled_le, not_le, not_le]
    rfl

end Scale

variable {x : Binary} {k : Int} {d : Nat}

theorem covers_of_between (hl : x.low < d * 10 ^ k) (hh : d * 10 ^ k < x.high) :
    x.covers k d = true := by
  rw [covers_iff]
  split
  · exact ⟨hl.le, hh.le⟩
  · exact ⟨hl, hh⟩

theorem between_of_covers (h : x.covers k d = true) :
    x.low ≤ d * 10 ^ k ∧ d * 10 ^ k ≤ x.high := by
  rw [covers_iff] at h
  split at h
  · exact h
  · exact ⟨h.1.le, h.2.le⟩

/-! The search. -/

/-- On a grid that is fine enough the point below the number rounds to it. -/
theorem covers_floorAt (hm : 0 < x.mantissa) (hk : (10 : ℚ) ^ k ≤ x.quarter) :
    x.covers k (x.floorAt k) = true := by
  have below : (x.floorAt k : ℚ) * 10 ^ k ≤ (4 * x.mantissa : Nat) * x.quarter :=
    (x.le_scaled k _ _).mp (Nat.div_mul_le_self _ _)
  have above : (4 * x.mantissa : Nat) * x.quarter < (x.floorAt k + 1 : Nat) * 10 ^ k := by
    rw [← not_le, ← le_scaled, Nat.not_le]
    exact Nat.lt_mul_of_div_lt (Nat.lt_succ_self _) (x.scale_pos k)
  rw [Nat.cast_add_one, add_one_mul] at above
  apply covers_of_between
  · have narrow : x.low ≤ ((4 * x.mantissa : Nat) - 1) * x.quarter := by
      refine mul_le_mul_of_nonneg_right ?_ x.quarter_pos.le
      rw [← Nat.cast_pred (by omega), Nat.cast_le]
      split <;> omega
    rw [sub_one_mul] at narrow
    linarith
  · refine below.trans_lt (mul_lt_mul_of_pos_right (Nat.cast_lt.mpr ?_) x.quarter_pos)
    omega

theorem covers_search {n : Nat} {k : Int} (h : ∃ j < n, (x.nearestAt? (k - j)).isSome) :
    x.covers (x.search n k).exponent (x.search n k).digits = true := by
  induction n generalizing k with
  | zero =>
    obtain ⟨j, hj, -⟩ := h
    omega
  | succ n ih =>
    rw [search]
    cases found : x.nearestAt? k with
    | some d => exact covers_nearestAt? found
    | none =>
      obtain ⟨_ | j, hj, hit⟩ := h
      · rw [Nat.cast_zero, sub_zero, found] at hit
        cases hit
      · refine ih ⟨j, Nat.lt_of_succ_lt_succ hj, ?_⟩
        rwa [Nat.cast_add_one, add_comm, ← sub_sub] at hit

theorem isSome_nearestAt? (h : x.covers k (x.floorAt k) = true) : (x.nearestAt? k).isSome := by
  simp only [nearestAt?, h]
  cases x.covers k (x.floorAt k + 1) <;> rfl

/-- Nineteen grids below the first one a step is at most a quarter of the gap above a double. A power
of ten is compared with one of two through `10 ^ 3 ≤ 2 ^ 10` and `2 ^ 93 ≤ 10 ^ 28`. -/
theorem last_grid_le (hm : x.mantissa < 2 ^ 53) (hl : -1074 ≤ x.exponent) (hh : x.exponent ≤ 971) :
    (10 : ℚ) ^ (x.ceilingExponent - (19 : Nat)) ≤ x.quarter := by
  have bits : x.mantissa.log2 ≤ 52 := by
    by_contra h
    have := Nat.log2_self_le (n := x.mantissa) (by rintro h0; simp [h0] at h)
    have := Nat.pow_le_pow_right (n := 2) two_pos (Nat.lt_of_not_le h)
    omega
  have bound : 100000 * (x.ceilingExponent - 1) ≤ 30103 * (53 + x.exponent) := by
    rw [ceilingExponent]
    omega
  rw [quarter]
  generalize x.ceilingExponent = c at bound
  rcases le_total 0 (c - (19 : Nat)) with hc | hc
  · obtain ⟨m, hm⟩ := Int.eq_ofNat_of_zero_le hc
    obtain ⟨n, hn⟩ := Int.eq_ofNat_of_zero_le (show 0 ≤ x.exponent - 2 by omega)
    rw [hm, hn]
    norm_cast
    exact pow_le_pow_of_pow_le (i := 3) (j := 10) (by norm_num) (by decide) two_pos (by omega)
  · obtain ⟨m, hm⟩ := Int.eq_ofNat_of_zero_le (Int.neg_nonneg.mpr hc)
    rw [← neg_neg (c - _), hm, zpow_neg]
    rcases le_total 0 (x.exponent - 2) with hq | hq
    · exact (inv_le_one_of_one_le₀ (one_le_zpow₀ (by norm_num) (by omega))).trans
        (one_le_zpow₀ one_le_two hq)
    · obtain ⟨n, hn⟩ := Int.eq_ofNat_of_zero_le (Int.neg_nonneg.mpr hq)
      rw [← neg_neg (x.exponent - 2), hn, zpow_neg]
      refine inv_anti₀ (zpow_pos two_pos _) ?_
      norm_cast
      exact pow_le_pow_of_pow_le (i := 93) (j := 28) (by norm_num) (by decide) (by decide) (by omega)

/-- The search ends in a decimal that rounds to the number. -/
theorem covers_shortest (hm : x.mantissa < 2 ^ 53) (hp : 0 < x.mantissa) (hl : -1074 ≤ x.exponent)
    (hh : x.exponent ≤ 971) : x.covers x.shortest.exponent x.shortest.digits = true :=
  covers_search ⟨19, by decide,
    isSome_nearestAt? (covers_floorAt hp (last_grid_le hm hl hh))⟩

/-! The doubles in their order. -/

/-- The double that is not negative and has this number: the fields, one behind the other. -/
def ofRank (n : Nat) : Binary := ofFields (n / 2 ^ 52) (n % 2 ^ 52)

theorem ofRank_mantissa_mod (n : Nat) : (ofRank n).mantissa % 2 = n % 2 := by
  rw [ofRank, ofFields]
  split
  · dsimp only
    omega
  · dsimp only
    have := Nat.pow_eq (m := 2) (n := 52)
    omega

theorem ofRank_mantissa_lt (n : Nat) : (ofRank n).mantissa < 2 ^ 53 := by
  rw [ofRank, ofFields]
  have := Nat.mod_lt n (Nat.two_pow_pos 52)
  split <;> dsimp only
  · omega
  · have := Nat.pow_eq (m := 2) (n := 52)
    omega

theorem ofRank_mantissa_pos {n : Nat} (h : 0 < n) : 0 < (ofRank n).mantissa := by
  rw [ofRank, ofFields]
  split <;> dsimp only
  · omega
  · exact Nat.add_pos_left (Nat.pow_pos two_pos) _

theorem ofRank_exponent {n : Nat} (h : n < 2047 * 2 ^ 52) :
    -1074 ≤ (ofRank n).exponent ∧ (ofRank n).exponent ≤ 971 := by
  rw [ofRank, ofFields]
  split <;> dsimp only <;> omega

theorem high_mk (m : Nat) (q : Int) (narrow : Bool) :
    high ⟨m, q, narrow⟩ = low ⟨m + 1, q, false⟩ := by
  have same : 4 * m + 2 = 4 * (m + 1) - 2 := by omega
  rw [high, same]
  rfl

/-- With a greater exponent the gap doubles, but the one below the first mantissa does not. -/
theorem high_mk_carry (q : Int) (narrow : Bool) :
    high ⟨2 ^ 53 - 1, q, narrow⟩ = low ⟨2 ^ 52, q + 1, true⟩ := by
  have double : (2 : ℚ) ^ (q + 1 - 2) = 2 ^ (q - 2) * 2 := by
    rw [← zpow_add_one₀ two_ne_zero]
    congr 1
    omega
  rw [high, low, quarter, quarter, double]
  norm_num
  ring

/-- Where the reals end that round to a double, those begin that round to the next one. -/
theorem high_ofRank (n : Nat) : (ofRank n).high = (ofRank (n + 1)).low := by
  obtain ⟨b, f, hf, rfl⟩ : ∃ b f, f < 2 ^ 52 ∧ n = b * 2 ^ 52 + f :=
    ⟨n / 2 ^ 52, n % 2 ^ 52, Nat.mod_lt _ (by decide), (Nat.div_add_mod' n _).symm⟩
  have fields {b f : Nat} (hf : f < 2 ^ 52) : ofRank (b * 2 ^ 52 + f) = ofFields b f := by
    rw [ofRank]
    congr 1 <;> omega
  rw [fields hf]
  by_cases next : f + 1 < 2 ^ 52
  · -- the exponent stays
    rw [Nat.add_assoc, fields next, ofFields, ofFields]
    split
    · exact high_mk _ _ _
    · exact high_mk _ _ _
  · -- the fraction starts again
    obtain rfl : f = 2 ^ 52 - 1 := by omega
    have carry : b * 2 ^ 52 + (2 ^ 52 - 1) + 1 = (b + 1) * 2 ^ 52 + 0 := by omega
    rw [carry, fields (by decide)]
    rcases b with _ | b
    · exact high_mk _ _ _
    · rw [ofFields, ofFields, if_neg (Nat.succ_ne_zero _), if_neg (Nat.succ_ne_zero _)]
      have wide : (decide (1 < b + 1 + 1)) = true := decide_eq_true (by omega)
      have exponent : ((b + 1 + 1 : Nat) : Int) - 1075 = ((b + 1 : Nat) - 1075) + 1 := by omega
      rw [wide, exponent]
      exact high_mk_carry _ _

theorem strictMono_low : StrictMono fun n => (ofRank n).low :=
  strictMono_nat_of_lt_succ fun n => high_ofRank n ▸ (ofRank n).low_lt_high

/-- Zero rounds to the first double. -/
theorem covers_zero : (ofRank 0).covers 0 0 = true := by
  have zero : (ofRank 0).low = 0 := by simp [low, ofRank, ofFields]
  have above := (ofRank 0).low_lt_high
  rw [covers_iff, if_pos (ofRank_mantissa_mod 0), Nat.cast_zero, zero_mul]
  exact ⟨zero.le, (zero ▸ above).le⟩

/-- No decimal rounds to two doubles. -/
theorem rank_unique {n m : Nat} {k k' : Int} {d d' : Nat} (hn : (ofRank n).covers k d = true)
    (hm : (ofRank m).covers k' d' = true) (same : (d * 10 ^ k : ℚ) = d' * 10 ^ k') : n = m := by
  have apart {n m : Nat} {k k' : Int} {d d' : Nat} (hn : (ofRank n).covers k d = true)
      (hm : (ofRank m).covers k' d' = true) (same : (d * 10 ^ k : ℚ) = d' * 10 ^ k') : ¬ n < m := by
    intro less
    have upper := (between_of_covers hn).2
    have lower := (between_of_covers hm).1
    rw [high_ofRank] at upper
    have next : (ofRank m).low ≤ (ofRank (n + 1)).low := lower.trans (same ▸ upper)
    obtain rfl : m = n + 1 := Nat.le_antisymm (strictMono_low.le_iff_le.mp next) less
    -- the edge between them belongs to the one with the even number
    rw [covers_iff, ofRank_mantissa_mod] at hn hm
    rw [high_ofRank] at hn
    split at hn
    · rw [if_neg (by omega)] at hm
      linarith
    · linarith
  exact Nat.le_antisymm (Nat.le_of_not_lt (apart hm hn same.symm)) (Nat.le_of_not_lt (apart hn hm same))

end Binary

end Lox.Numeral
