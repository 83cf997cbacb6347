import Lox.Text.Utf8
import Mathlib.Data.List.Basic

/-!
UTF-8 and strings. The bytes that stand for a code point are told by a table. Reading a segment finds
just the bytes of the table, so a byte sequence is text if and only if it is what some string is
encoded as, and then that string is read.
-/

namespace Lox.Text.Utf8

/-! The table. -/

/-- The bytes that stand for a code point. -/
inductive Encodes : Nat → Bytes → Prop
  | one {v : Nat} {b : UInt8} (hb : b.toNat = v) (high : v < 0x80) : Encodes v [b]
  | two {v : Nat} {b d : UInt8} (hb : b.toNat = 0xc0 + v / 64) (hd : d.toNat = 0x80 + v % 64)
      (low : 0x80 ≤ v) (high : v < 0x800) : Encodes v [b, d]
  | three {v : Nat} {b d e : UInt8} (hb : b.toNat = 0xe0 + v / 4096)
      (hd : d.toNat = 0x80 + v / 64 % 64) (he : e.toNat = 0x80 + v % 64) (low : 0x800 ≤ v)
      (high : v < 0x10000) (valid : v.isValidChar) : Encodes v [b, d, e]
  | four {v : Nat} {b d e f : UInt8} (hb : b.toNat = 0xf0 + v / 262144)
      (hd : d.toNat = 0x80 + v / 4096 % 64) (he : e.toNat = 0x80 + v / 64 % 64)
      (hf : f.toNat = 0x80 + v % 64) (low : 0x10000 ≤ v) (high : v < 0x110000) :
      Encodes v [b, d, e, f]

section Table

variable {v : Nat} {bs : Bytes} {b : UInt8}

theorem Encodes.valid (h : Encodes v bs) : v.isValidChar := by
  cases h with
  | three => assumption
  | one | two | four =>
    simp only [Nat.isValidChar]
    omega

theorem toNat_ofNat (h : v.isValidChar) : (Char.ofNat v).toNat = v := by
  rw [Char.ofNat, dif_pos h]
  rfl

theorem toNat_byte (h : v < 256) : (UInt8.ofNat v).toNat = v := UInt8.toNat_ofNat_of_lt' h

theorem byte_eq (h : b.toNat = v) : UInt8.ofNat v = b := by
  rw [← h, UInt8.ofNat_toNat]

theorem Encodes.bytes_eq (h : Encodes v bs) : String.utf8EncodeChar (Char.ofNat v) = bs := by
  have hv : (Char.ofNat v).val.toNat = v := toNat_ofNat h.valid
  rw [String.utf8EncodeChar, hv]
  cases h with
  | one hb high => rw [if_pos (by omega), byte_eq hb]
  | two hb hd low high =>
    rw [if_neg (by omega), if_pos (by omega), byte_eq (hb.trans (by omega)),
      byte_eq (hd.trans (by omega))]
  | three hb hd he low high valid =>
    rw [if_neg (by omega), if_neg (by omega), if_pos (by omega), byte_eq (hb.trans (by omega)),
      byte_eq (hd.trans (by omega)), byte_eq (he.trans (by omega))]
  | four hb hd he hf low high =>
    rw [if_neg (by omega), if_neg (by omega), if_neg (by omega), byte_eq (hb.trans (by omega)),
      byte_eq (hd.trans (by omega)), byte_eq (he.trans (by omega)), byte_eq (hf.trans (by omega))]

theorem exists_encodes (valid : v.isValidChar) : ∃ bs, Encodes v bs := by
  have limit : v < 0x110000 := by
    simp only [Nat.isValidChar] at valid
    omega
  by_cases h₁ : v < 0x80
  · exact ⟨_, .one (toNat_byte (by omega)) h₁⟩
  by_cases h₂ : v < 0x800
  · exact ⟨_, .two (toNat_byte (by omega)) (toNat_byte (by omega)) (by omega) h₂⟩
  by_cases h₃ : v < 0x10000
  · exact ⟨_, .three (toNat_byte (by omega)) (toNat_byte (by omega)) (toNat_byte (by omega))
      (by omega) h₃ valid⟩
  · exact ⟨_, .four (toNat_byte (by omega)) (toNat_byte (by omega)) (toNat_byte (by omega))
      (toNat_byte (by omega)) (by omega) limit⟩

theorem encodes (c : Char) : Encodes c.toNat (String.utf8EncodeChar c) := by
  obtain ⟨bs, h⟩ := exists_encodes (v := c.toNat) c.valid
  have eq := h.bytes_eq
  rw [Char.ofNat_toNat] at eq
  rwa [eq]

/-- A byte below the others stands for itself. -/
theorem Encodes.of_low (h : Encodes v bs) (hb : b ∈ bs) (low : b.toNat < 0x80) : v = b.toNat := by
  cases h <;> simp only [List.mem_cons, List.not_mem_nil, or_false] at hb
  case one => rw [hb]; exact Eq.symm ‹_›
  case two => rcases hb with rfl | rfl <;> omega
  case three => rcases hb with rfl | rfl | rfl <;> omega
  case four => rcases hb with rfl | rfl | rfl | rfl <;> omega

end Table

/-! Reading a segment. -/

theorem lead?_run (b : UInt8) : lead? b =
    if b.toNat < 0x80 then some (0, 0x80, 0xbf)
    else if b.toNat < 0xc2 then none
    else if b.toNat < 0xe0 then some (1, 0x80, 0xbf)
    else if b.toNat < 0xf0 then
      some (2, if b.toNat = 0xe0 then 0xa0 else 0x80, if b.toNat = 0xed then 0x9f else 0xbf)
    else if b.toNat < 0xf5 then
      some (3, if b.toNat = 0xf0 then 0x90 else 0x80, if b.toNat = 0xf4 then 0x8f else 0xbf)
    else none := by
  simp only [lead?, UInt8.lt_iff_toNat_lt, beq_iff_eq, ← UInt8.toNat_inj]
  simp only [UInt8.reduceToNat]
  grind

theorem fitting_succ_eq {low high : UInt8} {n : Nat} {bs : Bytes} :
    fitting low high (n + 1) bs = n + 1 ↔ ∃ d ds, bs = d :: ds ∧ low.toNat ≤ d.toNat ∧
      d.toNat ≤ high.toNat ∧ fitting 0x80 0xbf n ds = n := by
  cases bs with
  | nil => simp [fitting]
  | cons d ds =>
    by_cases h : low ≤ d ∧ d ≤ high
    · simp [fitting, h, ← UInt8.le_iff_toNat_le, Nat.add_comm 1]
    · simp only [fitting, Bool.and_eq_true, decide_eq_true_eq, if_neg h]
      rw [UInt8.le_iff_toNat_le, UInt8.le_iff_toNat_le] at h
      grind

section Heads

variable {b : UInt8} {bs rest : Bytes} {v n : Nat} {low high : UInt8}

theorem head_run (hl : lead? b = some (n, low, high)) (hf : fitting low high n bs = n) :
    head b bs = (.char (Char.ofNat (codePoint n b (bs.take n))), bs.drop n) := by
  simp [head, hl, hf]

/-- Only a whole encoding is read as a character. -/
theorem of_head {c : Char} (h : head b bs = (.char c, rest)) : ∃ n low high,
    lead? b = some (n, low, high) ∧ fitting low high n bs = n ∧
      c = Char.ofNat (codePoint n b (bs.take n)) ∧ rest = bs.drop n := by
  unfold head at h
  split at h
  · cases h
  · next n low high hl =>
    dsimp only at h
    split at h
    · next hf =>
      cases h
      exact ⟨n, low, high, hl, hf, rfl, rfl⟩
    · split at h <;> cases h

theorem head_encodes (h : Encodes v bs) (rest : Bytes) : ∃ b ds, bs = b :: ds ∧
    head b (ds ++ rest) = (.char (Char.ofNat v), rest) := by
  cases h with
  | @one b hb high =>
    refine ⟨b, [], rfl, ?_⟩
    have lead : lead? b = some (0, 0x80, 0xbf) := by rw [lead?_run, if_pos (by omega)]
    rw [head_run lead rfl, ← hb]
    rfl
  | @two b d hb hd low high =>
    refine ⟨b, [d], rfl, ?_⟩
    have lead : lead? b = some (1, 0x80, 0xbf) := by
      rw [lead?_run, if_neg (by omega), if_neg (by omega), if_pos (by omega)]
    have fits : fitting 0x80 0xbf 1 ([d] ++ rest) = 1 :=
      fitting_succ_eq.mpr ⟨d, rest, rfl, by simp; omega, by simp; omega, rfl⟩
    have point : codePoint 1 b [d] = v := by
      change 64 * (b.toNat % 32) + d.toNat % 64 = v
      omega
    rw [head_run lead fits]
    exact congrArg (fun v => (Segment.char (Char.ofNat v), rest)) point
  | @three b d e hb hd he low high valid =>
    refine ⟨b, [d, e], rfl, ?_⟩
    have lead : lead? b = some (2, if b.toNat = 0xe0 then 0xa0 else 0x80,
        if b.toNat = 0xed then 0x9f else 0xbf) := by
      rw [lead?_run, if_neg (by omega), if_neg (by omega), if_neg (by omega), if_pos (by omega)]
    have last : fitting 0x80 0xbf 1 (e :: rest) = 1 :=
      fitting_succ_eq.mpr ⟨e, rest, rfl, by simp; omega, by simp; omega, rfl⟩
    have fits : fitting (if b.toNat = 0xe0 then 0xa0 else 0x80)
        (if b.toNat = 0xed then 0x9f else 0xbf) 2 ([d, e] ++ rest) = 2 := by
      refine fitting_succ_eq.mpr ⟨d, e :: rest, rfl, ?_, ?_, last⟩
      · split <;> simp <;> omega
      · -- no code point for a surrogate
        simp only [Nat.isValidChar] at valid
        split <;> simp <;> omega
    have point : codePoint 2 b [d, e] = v := by
      change 64 * (64 * (b.toNat % 16) + d.toNat % 64) + e.toNat % 64 = v
      omega
    rw [head_run lead fits]
    exact congrArg (fun v => (Segment.char (Char.ofNat v), rest)) point
  | @four b d e f hb hd he hf low high =>
    refine ⟨b, [d, e, f], rfl, ?_⟩
    have lead : lead? b = some (3, if b.toNat = 0xf0 then 0x90 else 0x80,
        if b.toNat = 0xf4 then 0x8f else 0xbf) := by
      rw [lead?_run, if_neg (by omega), if_neg (by omega), if_neg (by omega), if_neg (by omega),
        if_pos (by omega)]
    have last : fitting 0x80 0xbf 1 (f :: rest) = 1 :=
      fitting_succ_eq.mpr ⟨f, rest, rfl, by simp; omega, by simp; omega, rfl⟩
    have next : fitting 0x80 0xbf 2 (e :: f :: rest) = 2 :=
      fitting_succ_eq.mpr ⟨e, f :: rest, rfl, by simp; omega, by simp; omega, last⟩
    have fits : fitting (if b.toNat = 0xf0 then 0x90 else 0x80)
        (if b.toNat = 0xf4 then 0x8f else 0xbf) 3 ([d, e, f] ++ rest) = 3 := by
      refine fitting_succ_eq.mpr ⟨d, e :: f :: rest, rfl, ?_, ?_, next⟩
      · split <;> simp <;> omega
      · split <;> simp <;> omega
    have point : codePoint 3 b [d, e, f] = v := by
      change 64 * (64 * (64 * (b.toNat % 8) + d.toNat % 64) + e.toNat % 64) + f.toNat % 64 = v
      omega
    rw [head_run lead fits]
    exact congrArg (fun v => (Segment.char (Char.ofNat v), rest)) point

theorem Encodes.toNat_ofNat (h : Encodes v bs) : Encodes (Char.ofNat v).toNat bs := by
  rwa [Utf8.toNat_ofNat h.valid]

theorem encodes_of_head {c : Char} (h : head b bs = (.char c, rest)) :
    ∃ ds, bs = ds ++ rest ∧ Encodes c.toNat (b :: ds) := by
  obtain ⟨n, low, high, lead, fits, rfl, rfl⟩ := of_head h
  refine ⟨bs.take n, (List.take_append_drop n bs).symm, ?_⟩
  apply Encodes.toNat_ofNat
  rw [lead?_run] at lead
  split at lead
  · next hb =>
    cases lead
    exact .one rfl hb
  split at lead
  · cases lead
  split at lead
  · cases lead
    obtain ⟨d, ds, rfl, ld, hd, -⟩ := fitting_succ_eq.mp fits
    simp only [UInt8.reduceToNat] at ld hd
    have point : codePoint 1 b [d] = 64 * (b.toNat % 32) + d.toNat % 64 := rfl
    change Encodes (codePoint 1 b [d]) [b, d]
    rw [point]
    exact .two (by omega) (by omega) (by omega) (by omega)
  split at lead
  · cases lead
    obtain ⟨d, ds, rfl, ld, hd, fits⟩ := fitting_succ_eq.mp fits
    obtain ⟨e, es, rfl, le, he, -⟩ := fitting_succ_eq.mp fits
    simp only [UInt8.reduceToNat] at le he
    have ld : 0x80 ≤ d.toNat ∧ (b.toNat = 0xe0 → 0xa0 ≤ d.toNat) := by
      split at ld <;> simp only [UInt8.reduceToNat] at ld <;> omega
    have hd : d.toNat ≤ 0xbf ∧ (b.toNat = 0xed → d.toNat ≤ 0x9f) := by
      split at hd <;> simp only [UInt8.reduceToNat] at hd <;> omega
    have point : codePoint 2 b [d, e] =
        64 * (64 * (b.toNat % 16) + d.toNat % 64) + e.toNat % 64 := rfl
    change Encodes (codePoint 2 b [d, e]) [b, d, e]
    rw [point]
    refine .three (by omega) (by omega) (by omega) (by omega) (by omega) ?_
    simp only [Nat.isValidChar]
    omega
  split at lead
  · cases lead
    obtain ⟨d, ds, rfl, ld, hd, fits⟩ := fitting_succ_eq.mp fits
    obtain ⟨e, es, rfl, le, he, fits⟩ := fitting_succ_eq.mp fits
    obtain ⟨f, fs, rfl, lf, hf, -⟩ := fitting_succ_eq.mp fits
    simp only [UInt8.reduceToNat] at le he lf hf
    have ld : 0x80 ≤ d.toNat ∧ (b.toNat = 0xf0 → 0x90 ≤ d.toNat) := by
      split at ld <;> simp only [UInt8.reduceToNat] at ld <;> omega
    have hd : d.toNat ≤ 0xbf ∧ (b.toNat = 0xf4 → d.toNat ≤ 0x8f) := by
      split at hd <;> simp only [UInt8.reduceToNat] at hd <;> omega
    have point : codePoint 3 b [d, e, f] =
        64 * (64 * (64 * (b.toNat % 8) + d.toNat % 64) + e.toNat % 64) + f.toNat % 64 := rfl
    change Encodes (codePoint 3 b [d, e, f]) [b, d, e, f]
    rw [point]
    exact .four (by omega) (by omega) (by omega) (by omega) (by omega) (by omega)
  · cases lead

end Heads

/-! Reading all of it. -/

theorem encode_eq (s : String) : encode s = s.toList.flatMap String.utf8EncodeChar := by
  have h : s.toUTF8 = (s.toList.flatMap String.utf8EncodeChar).toByteArray := by
    conv => lhs; rw [← String.ofList_toList (s := s)]
    rw [String.toUTF8_eq_toByteArray, String.toByteArray_ofList, List.utf8Encode]
  rw [encode, h, List.toList_data_toByteArray]

@[simp] theorem encode_ofList (cs : List Char) :
    encode (String.ofList cs) = cs.flatMap String.utf8EncodeChar := by
  rw [encode_eq, String.toList_ofList]

@[simp] theorem encode_append (s t : String) : encode (s ++ t) = encode s ++ encode t := by
  simp only [encode_eq, String.toList_append, List.flatMap_append]

theorem encode_singleton (c : Char) : encode (String.singleton c) = String.utf8EncodeChar c := by
  rw [encode_eq, String.toList_singleton, List.flatMap_singleton]

theorem mem_of_mem_encode {s : String} {c : Char} {b : UInt8} (hb : b ∈ encode s)
    (low : b.toNat < 0x80) (hc : c.toNat = b.toNat) : c ∈ s.toList := by
  rw [encode_eq] at hb
  obtain ⟨d, hd, hb⟩ := List.mem_flatMap.mp hb
  have same : c = d := by
    rw [← Char.ofNat_toNat c, ← Char.ofNat_toNat d, hc, (encodes d).of_low hb low]
  rwa [same]

theorem head_encodeChar (c : Char) (rest : Bytes) : ∃ b ds, String.utf8EncodeChar c = b :: ds ∧
    head b (ds ++ rest) = (.char c, rest) := by
  have h := head_encodes (encodes c) rest
  rwa [Char.ofNat_toNat] at h

theorem segmentsWithin_flatMap {cs : List Char} {n : Nat}
    (h : (cs.flatMap String.utf8EncodeChar).length ≤ n) :
    segmentsWithin n (cs.flatMap String.utf8EncodeChar) = cs.map .char := by
  induction cs generalizing n with
  | nil => cases n <;> rfl
  | cons c cs ih =>
    obtain ⟨b, ds, hb, head⟩ := head_encodeChar c (cs.flatMap String.utf8EncodeChar)
    simp only [List.flatMap_cons, hb, List.cons_append, List.length_cons, List.length_append] at h ⊢
    cases n with
    | zero => omega
    | succ n =>
      simp only [segmentsWithin, head, List.map_cons]
      rw [ih (by omega)]

theorem charsFrom_map_char (cs : List Char) (index : Nat) :
    charsFrom index (cs.map .char) = .ok cs := by
  induction cs generalizing index with
  | nil => rfl
  | cons c cs ih => rw [List.map_cons, charsFrom, ih]; rfl

@[simp] theorem decode_encode (s : String) : decode (encode s) = .ok s := by
  rw [decode, segments, encode_eq, segmentsWithin_flatMap (Nat.le_refl _), charsFrom_map_char]
  exact congrArg Except.ok String.ofList_toList

theorem flatMap_of_charsFrom {n index : Nat} {bs : Bytes} {cs : List Char} (hn : bs.length ≤ n)
    (h : charsFrom index (segmentsWithin n bs) = .ok cs) :
    cs.flatMap String.utf8EncodeChar = bs := by
  induction n generalizing index bs cs with
  | zero =>
    obtain rfl := List.length_eq_zero_iff.mp (Nat.le_zero.mp hn)
    cases h
    rfl
  | succ n ih =>
    cases bs with
    | nil =>
      cases h
      rfl
    | cons b bs =>
      rw [segmentsWithin] at h
      cases hh : head b bs with
      | mk segment rest =>
        simp only [hh] at h
        cases segment with
        | char c =>
          obtain ⟨ds, rfl, encoded⟩ := encodes_of_head hh
          have bytes := encoded.bytes_eq
          rw [Char.ofNat_toNat] at bytes
          rw [charsFrom] at h
          cases hr : charsFrom (index + c.utf8Size) (segmentsWithin n rest) with
          | error fault =>
            rw [hr] at h
            cases h
          | ok cs' =>
            rw [hr] at h
            cases h
            have fits : rest.length ≤ n := by
              rw [List.length_cons, List.length_append] at hn
              omega
            rw [List.flatMap_cons, bytes, ih fits hr, List.cons_append]
        | malformed width => cases h
        | cut width => cases h

/-- A byte sequence is text just where it is what some string is encoded as. -/
theorem decode_eq_ok_iff {bs : Bytes} {s : String} : decode bs = .ok s ↔ encode s = bs := by
  constructor
  · intro h
    rw [decode] at h
    cases hc : charsFrom 0 (segments bs) with
    | error fault =>
      rw [hc] at h
      cases h
    | ok cs =>
      rw [hc] at h
      cases h
      rw [encode_ofList]
      exact flatMap_of_charsFrom (Nat.le_refl _) hc
  · rintro rfl
    exact decode_encode s

end Lox.Text.Utf8
