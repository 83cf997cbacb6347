import Lox.Proofs.Numeral.Notation

/-!
The numbers of a program. A number is read as a double that is neither negative nor no number at all,
so it is finite or infinite by its place in the order of the doubles.
-/

namespace Lox

namespace Numeral

open Float.Model Float.Model.UnpackedFloat

/-- A double with a positive sign that is a number. -/
inductive Positive : UnpackedFloat → Prop
  | infinity : Positive (.infinity .positive)
  | zero : Positive (.zero .positive)
  | finite (m : Nat) (e : Int) (h : 0 < m) : Positive (.finite .positive m e h)

namespace Positive

theorem of_dite {p : Prop} [Decidable p] {x : p → UnpackedFloat} {y : ¬ p → UnpackedFloat}
    (hx : ∀ h, Positive (x h)) (hy : ∀ h, Positive (y h)) :
    Positive (if h : p then x h else y h) := by
  split
  · exact hx _
  · exact hy _

theorem roundWithAccuracy (m : Nat) (e : Int) (a : Accuracy) :
    Positive (roundWithAccuracy Format.binary64 .positive m e a) := by
  unfold UnpackedFloat.roundWithAccuracy
  exact of_dite (fun _ => zero) fun _ => finite _ _ _

theorem mul {x : UnpackedFloat} (hx : Positive x) (m : Nat) (e : Int) (h : 0 < m) :
    Positive (x.mul Format.binary64 (.finite .positive m e h)) := by
  cases hx with
  | infinity => exact infinity
  | zero => exact zero
  | finite => exact roundWithAccuracy _ _ _

theorem div {x : UnpackedFloat} (hx : Positive x) (m : Nat) (e : Int) (h : 0 < m) :
    Positive (x.div Format.binary64 (.finite .positive m e h)) := by
  cases hx with
  | infinity => exact infinity
  | zero => exact zero
  | finite => exact roundWithAccuracy _ _ _

theorem ofNat (n : Nat) : Positive (UnpackedFloat.ofNat Format.binary64 n) := by
  unfold UnpackedFloat.ofNat UnpackedFloat.ofInt UnpackedFloat.normalize
  cases h : compare (n : Int) 0 with
  | lt => exact absurd (compare_lt_iff_lt.mp h) (by omega)
  | eq => exact zero
  | gt => exact roundWithAccuracy _ _ _

theorem ofScientific (m : Nat) (e : Int) :
    Positive (UnpackedFloat.ofScientific Format.binary64 m e) := by
  unfold UnpackedFloat.ofScientific
  refine of_dite (fun _ => zero) fun _ => ?_
  refine of_dite (fun _ => infinity) fun _ => of_dite (fun _ => zero) fun _ => of_dite ?_ ?_
  · exact fun _ => mul (finite _ _ _) _ _ _
  · exact fun _ => div (finite _ _ _) _ _ _

/-! Fields. -/

theorem toNat_packComponents (e : BitVec 11) (m : BitVec 52) :
    (packComponents Format.binary64 .positive e m).toNat = e.toNat * 2 ^ 52 + m.toNat := by
  unfold packComponents
  rw [BitVec.toNat_append, BitVec.toNat_append, ← Nat.shiftLeft_add_eq_or_of_lt e.isLt,
    ← Nat.shiftLeft_add_eq_or_of_lt m.isLt, Nat.shiftLeft_eq, Nat.shiftLeft_eq]
  simp [Sign.toBitVec]

theorem toNat_pack_le {x : UnpackedFloat} (h : Positive x) :
    (UnpackedFloat.pack Format.binary64 x).toNat ≤ infiniteRank := by
  have infinite : (packedInfinity Format.binary64 .positive).toNat = infiniteRank :=
    toNat_packComponents _ _
  cases h with
  | infinity => exact infinite.le
  | zero =>
    have zero : (packedZero Format.binary64 .positive).toNat = 0 := toNat_packComponents _ _
    exact zero.trans_le (Nat.zero_le _)
  | finite m e h =>
    unfold UnpackedFloat.pack
    dsimp only
    split
    · exact infinite.le
    · rename_i small
      rw [infiniteRank]
      split
      · rw [toNat_packComponents, BitVec.toNat_ofNat, BitVec.toNat_ofNat]
        have := Nat.mod_lt m (Nat.two_pow_pos 52)
        omega
      · rw [toNat_packComponents, BitVec.toNat_ofNat, BitVec.toNat_ofNat]
        have := Nat.mod_lt m (Nat.two_pow_pos 52)
        omega

end Positive

/-- What a double is can be seen from its place among those that are not negative. -/
theorem unpack_cases {b : BitVec 64} (h : b.toNat ≤ infiniteRank) :
    (b.toNat = infiniteRank ∧ unpack Format.binary64 b = .infinity .positive) ∨
    (b.toNat = 0 ∧ unpack Format.binary64 b = .zero .positive) ∨
    (0 < b.toNat ∧ b.toNat < infiniteRank ∧
      ∃ m e h, unpack Format.binary64 b = .finite .positive m e h) := by
  have sign : Sign.ofBitVec (@unpackSign Format.binary64 b) = .positive := by
    have zero : @unpackSign Format.binary64 b = 0#1 := by
      apply BitVec.eq_of_toNat_eq
      unfold unpackSign
      rw [infiniteRank] at h
      simp only [BitVec.cast_eq, BitVec.extractLsb_toNat, BitVec.toNat_ofNat]
      omega
    rw [zero]
    rfl
  have exponent : (@unpackExponent Format.binary64 b).toNat = b.toNat / 2 ^ 52 := by
    unfold unpackExponent
    rw [infiniteRank] at h
    simp only [BitVec.cast_eq, BitVec.extractLsb_toNat]
    omega
  have mantissa : (@unpackMantissa Format.binary64 b).toNat = b.toNat % 2 ^ 52 := by
    unfold unpackMantissa
    simp
  rw [infiniteRank] at h ⊢
  unfold UnpackedFloat.unpack
  dsimp only
  rw [sign]
  by_cases last : @unpackExponent Format.binary64 b = -1#_
  · have top : b.toNat / 2 ^ 52 = 2047 := exponent.symm.trans (congrArg BitVec.toNat last)
    have none : @unpackMantissa Format.binary64 b = 0#_ := by
      apply BitVec.eq_of_toNat_eq
      rw [mantissa, BitVec.toNat_zero]
      omega
    exact .inl ⟨by omega, (if_pos last).trans (if_pos none)⟩
  · have below : b.toNat / 2 ^ 52 ≠ 2047 := fun top =>
      last (BitVec.eq_of_toNat_eq (exponent.trans top))
    by_cases first : @unpackExponent Format.binary64 b = 0#_
    · have bottom : b.toNat / 2 ^ 52 = 0 := exponent.symm.trans (congrArg BitVec.toNat first)
      by_cases none : @unpackMantissa Format.binary64 b = 0#_
      · have fraction : b.toNat % 2 ^ 52 = 0 := mantissa.symm.trans (congrArg BitVec.toNat none)
        exact .inr (.inl ⟨by omega, (if_neg last).trans ((if_pos first).trans (dif_pos none))⟩)
      · have fraction : b.toNat % 2 ^ 52 ≠ 0 := fun zero =>
          none (BitVec.eq_of_toNat_eq (mantissa.trans zero))
        have positive : 0 < (@unpackMantissa Format.binary64 b).toNat := by omega
        exact .inr (.inr ⟨by omega, by omega, _, _, positive,
          (if_neg last).trans ((if_pos first).trans (dif_neg none))⟩)
    · have above : b.toNat / 2 ^ 52 ≠ 0 := fun bottom =>
        first (BitVec.eq_of_toNat_eq (exponent.trans bottom))
      have positive : 0 < (1#1 ++ @unpackMantissa Format.binary64 b).toNat := by
        rw [BitVec.toNat_append]
        exact (Nat.two_pow_pos 52).trans_le Nat.left_le_or
      exact .inr (.inr ⟨by omega, by omega, _, _, positive, (if_neg last).trans (if_neg first)⟩)

variable {x : Float}

theorem positive_unpack (h : rank x ≤ infiniteRank) : Positive x.toModel.unpack := by
  change Positive (UnpackedFloat.unpack Format.binary64 x.toBits.toBitVec)
  obtain ⟨-, unpacked⟩ | ⟨-, unpacked⟩ | ⟨-, -, m, e, hm, unpacked⟩ := unpack_cases h
  · exact unpacked ▸ .infinity
  · exact unpacked ▸ .zero
  · exact unpacked ▸ .finite m e hm

theorem isInf_iff (h : rank x ≤ infiniteRank) : x.isInf ↔ rank x = infiniteRank := by
  change (UnpackedFloat.unpack Format.binary64 x.toBits.toBitVec).isInf ↔
    x.toBits.toBitVec.toNat = infiniteRank
  obtain ⟨place, unpacked⟩ | ⟨place, unpacked⟩ | ⟨-, place, m, e, hm, unpacked⟩ := unpack_cases h
  · exact unpacked ▸ iff_of_true rfl place
  · exact unpacked ▸ iff_of_false nofun (place ▸ by decide)
  · exact unpacked ▸ iff_of_false nofun place.ne

/-- What is made of it is no more than infinite. -/
theorem rank_pack_le {x : UnpackedFloat} (h : Positive x) :
    rank (.ofModel (.pack x)) ≤ infiniteRank := h.toNat_pack_le

theorem exists_power (e : Nat) (he : e < Float.exactlyRepresentablePowersOfTen.size) : ∃ m k h,
    Float.exactlyRepresentablePowersOfTen[e].toModel.unpack = .finite .positive m k h := by
  have all : ∀ x ∈ Float.exactlyRepresentablePowersOfTen.toList, 0 < rank x ∧ rank x < infiniteRank := by
    decide +kernel
  obtain ⟨above, below⟩ := all _ (Array.getElem_mem_toList he)
  obtain ⟨place, -⟩ | ⟨place, -⟩ | ⟨-, -, found⟩ := unpack_cases below.le
  · exact absurd place below.ne
  · exact absurd place above.ne'
  · exact found

theorem rank_ofScientific_le (m : Nat) (negative : Bool) (e : Nat) :
    rank (Float.ofScientific m negative e) ≤ infiniteRank := by
  unfold Float.ofScientific
  split
  · rename_i small
    have whole : Positive m.toUInt64.toFloat.toModel.unpack :=
      positive_unpack (rank_pack_le (.ofNat _))
    obtain ⟨n, k, hn, power⟩ := exists_power e (by
      simp [Float.exactlyRepresentablePowersOfTen]
      omega)
    dsimp only
    split
    · refine rank_pack_le ?_
      rw [power]
      exact whole.div n k hn
    · refine rank_pack_le ?_
      rw [power]
      exact whole.mul n k hn
  · exact rank_pack_le (.ofScientific _ _)

theorem rank_infinity : rank (1 / 0) = infiniteRank := by
  decide +kernel

theorem rank_nearest_le (mantissa : Nat) (exponent : Int) :
    rank (nearest mantissa exponent) ≤ infiniteRank := by
  unfold nearest
  dsimp only
  split
  · exact rank_ofScientific_le 0 false 0
  · split
    · exact rank_infinity.le
    · exact rank_ofScientific_le _ _ _

end Numeral

end Lox
