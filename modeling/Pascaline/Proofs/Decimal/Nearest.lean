/-
  Pascaline.Proofs.Decimal.Nearest — which double is the nearest one to a number.

  Without its sign bit a double is a number below `2 ^ 63`, its index. The doubles from zero
  to infinity have the indices from 0 to `top`, and their magnitudes grow with the index
  (`place_strictMono`), each by one unit in the last place of the one before
  (`place_succ`). Infinity has the place of `2 ^ 1024`, where the next double would be.

  A double is the nearest one to a number if the magnitude of no other double is as near,
  but for a tie, which goes to the even one (`NearestTo`). So a number rounds to an index
  if it lies between the half-way points next to its place, or on one of them if the index
  is even (`nearestTo_iff`), and it rounds to one index only (`Rounds.unique`).
-/

import Mathlib.Algebra.Order.Field.Power
import Mathlib.Tactic.Linarith
import Mathlib.Tactic.Ring
import Pascaline.Decimal.Plain

namespace Pascaline.Double

open Float.Model Float.Model.UnpackedFloat

/-! ## Magnitudes -/

/-- The absolute value of a double, with infinity one step above the greatest finite one. -/
def magnitude? (x : Float) : Option ℚ :=
  match x.toModel.unpack with
  | .zero _ => some 0
  | .finite _ m e _ => some (m * 2 ^ e)
  | .infinity _ => some (2 ^ 1024)
  | .notANumber => none

/-- The sign bit is set, be it on a zero. -/
def IsNegative (x : Float) : Prop := 2 ^ 63 ≤ x.toBits.toNat

/-- The double's bits without the sign. -/
def index (x : Float) : ℕ := x.toBits.toNat % 2 ^ 63

/-- The first `2 ^ 52` numbers have the least exponent, and so have the next ones. -/
def mantissa (i : ℕ) : ℕ := if i < 2 ^ 52 then i else 2 ^ 52 + i % 2 ^ 52
def exponent (i : ℕ) : ℤ := if i < 2 ^ 52 then -1074 else (i / 2 ^ 52 : ℕ) - 1075

/-- The magnitude at an index. -/
def place (i : ℕ) : ℚ := mantissa i * 2 ^ exponent i

/-- The index of infinity. -/
def top : ℕ := 2047 * 2 ^ 52

theorem mantissa_exponent_succ (i : ℕ) : mantissa (i + 1) = mantissa i + 1 ∧ exponent (i + 1) = exponent i ∨
    mantissa i = 2 ^ 53 - 1 ∧ mantissa (i + 1) = 2 ^ 52 ∧ exponent (i + 1) = exponent i + 1 := by
  simp only [mantissa, exponent]
  split_ifs <;> omega

theorem place_succ (i : ℕ) : place (i + 1) = place i + 2 ^ exponent i := by
  unfold place
  rcases mantissa_exponent_succ i with ⟨hm, he⟩ | ⟨hm, hm', he⟩
  · rw [hm, he, Nat.cast_add_one]
    ring
  · rw [hm, hm', he, zpow_add_one₀ (by norm_num : (2 : ℚ) ≠ 0)]
    norm_num
    ring

theorem place_strictMono : StrictMono place := by
  refine strictMono_nat_of_lt_succ fun i => ?_
  rw [place_succ]
  exact lt_add_of_pos_right _ (zpow_pos two_pos _)

theorem place_zero : place 0 = 0 := by simp [place, mantissa]

theorem place_top : place top = 2 ^ 1024 := by
  have hpow : (2 : ℚ) ^ 1024 = 2 ^ 52 * 2 ^ 972 := by rw [← pow_add]
  simp only [place, mantissa, exponent, top, hpow]
  norm_num

theorem toNat_unpackMantissa (b : BitVec 64) :
    (@unpackMantissa Format.binary64 b).toNat = b.toNat % 2 ^ 52 := by
  simp [unpackMantissa, BitVec.extractLsb_toNat]

theorem toNat_unpackExponent (b : BitVec 64) :
    (@unpackExponent Format.binary64 b).toNat = b.toNat / 2 ^ 52 % 2 ^ 11 := by
  simp [unpackExponent, BitVec.extractLsb_toNat, Nat.shiftRight_eq_div_pow]

theorem magnitude?_eq (x : Float) : magnitude? x = if index x ≤ top then some (place (index x)) else none := by
  have hbits : x.toModel.toBits.toBitVec.toNat = x.toBits.toNat := rfl
  have hbias : ((Format.binary64.exponentBias : ℕ) : ℤ) + ((52 : ℕ) : ℤ) = 1075 := rfl
  obtain ⟨m, hm⟩ : ∃ m : BitVec 52, @unpackMantissa Format.binary64 x.toModel.toBits.toBitVec = m := ⟨_, rfl⟩
  obtain ⟨e, he⟩ : ∃ e : BitVec 11, @unpackExponent Format.binary64 x.toModel.toBits.toBitVec = e := ⟨_, rfl⟩
  have hmlt := m.isLt
  have helt := e.isLt
  have hi : index x = e.toNat * 2 ^ 52 + m.toNat := by
    rw [← hm, ← he, toNat_unpackMantissa, toNat_unpackExponent, hbits, index]
    omega
  unfold magnitude? Float.Model.unpack UnpackedFloat.unpack
  dsimp only
  by_cases h1 : e = -1#_
  · rw [h1, show ((-1#_ : BitVec 11)).toNat = 2047 from rfl] at hi
    rw [if_pos (he.trans h1)]
    by_cases h2 : m = 0#_
    · rw [h2, BitVec.toNat_zero] at hi
      rw [if_pos (hm.trans h2), show index x = top from hi, if_pos le_rfl, place_top]
    · have hpos : m.toNat ≠ 0 := BitVec.toNat_ne_iff_ne.2 h2
      have htop : ¬index x ≤ top := by
        unfold top
        omega
      rw [if_neg (hm ▸ h2), if_neg htop]
  · have hne : e.toNat ≠ 2047 := fun h => h1 (BitVec.eq_of_toNat_eq h)
    have htop : index x ≤ top := by
      unfold top
      omega
    rw [if_neg (he ▸ h1), if_pos htop]
    by_cases h2 : e = 0#_
    · rw [h2, BitVec.toNat_zero] at hi
      rw [if_pos (he.trans h2)]
      by_cases h3 : m = 0#_
      · rw [h3, BitVec.toNat_zero] at hi
        rw [dif_pos (hm.trans h3), show index x = 0 from hi, place_zero]
      · have hlt : index x < 2 ^ 52 := by omega
        rw [dif_neg (hm ▸ h3)]
        dsimp only
        rw [hm, he, h2, BitVec.toNat_zero, hbias, place, mantissa, exponent, if_pos hlt, if_pos hlt, hi]
        norm_num
    · have hpos : e.toNat ≠ 0 := BitVec.toNat_ne_iff_ne.2 h2
      have hge : ¬index x < 2 ^ 52 := by omega
      have hexponent : index x / 2 ^ 52 = e.toNat := by omega
      have hmantissa : index x % 2 ^ 52 = m.toNat := by omega
      have happend : (1#1 ++ m).toNat = 2 ^ 52 + m.toNat := by
        rw [BitVec.toNat_append, ← Nat.shiftLeft_add_eq_or_of_lt hmlt]
        rfl
      rw [if_neg (he ▸ h2)]
      dsimp only
      rw [hm, he, place, mantissa, exponent, if_neg hge, if_neg hge, hexponent, hmantissa, ← happend, ← hbias]

/-- All numbers up to `top` are the bits of a double. -/
theorem exists_index {i : ℕ} (h : i ≤ top) : ∃ x, index x = i := by
  have htop : top = 2047 * 2 ^ 52 := rfl
  have hnat : (BitVec.ofNat 64 i).toNat = i := by rw [BitVec.toNat_ofNat, Nat.mod_eq_of_lt (by omega)]
  have hvalid : Format.binary64.Valid (BitVec.ofNat 64 i) := by
    refine ⟨fun hexponent hmantissa => absurd (BitVec.eq_of_toNat_eq ?_) hmantissa⟩
    -- the greatest exponent is left to one number alone
    have he := congrArg BitVec.toNat hexponent
    rw [toNat_unpackExponent, hnat, show ((-1#_ : BitVec 11)).toNat = 2047 from rfl] at he
    rw [toNat_unpackMantissa, hnat, BitVec.toNat_zero]
    omega
  refine ⟨.ofModel ⟨.ofBitVec (BitVec.ofNat 64 i), hvalid⟩, ?_⟩
  show (BitVec.ofNat 64 i).toNat % 2 ^ 63 = i
  rw [hnat]
  omega

/-! ## The nearest double -/

/-- No double is nearer to the number, and one that is as near has the same magnitude or odd
    bits. -/
def NearestTo (q : ℚ) (x : Float) : Prop :=
  ∃ v, magnitude? x = some v ∧ ∀ y w, magnitude? y = some w →
    |q - v| < |q - w| ∨ |q - v| = |q - w| ∧ (w = v ∨ x.toBits.toNat % 2 = 0)

theorem nearestTo_iff_index {q : ℚ} {x : Float} : NearestTo q x ↔ index x ≤ top ∧ ∀ j ≤ top,
    |q - place (index x)| < |q - place j| ∨
      |q - place (index x)| = |q - place j| ∧ (j = index x ∨ index x % 2 = 0) := by
  have heven : x.toBits.toNat % 2 = index x % 2 := by
    unfold index
    omega
  constructor
  · rintro ⟨v, hv, hnearest⟩
    rw [magnitude?_eq] at hv
    split at hv
    · rename_i hx
      obtain rfl := Option.some.inj hv
      refine ⟨hx, fun j hj => ?_⟩
      obtain ⟨y, rfl⟩ := exists_index hj
      have h := hnearest y (place (index y)) (by rw [magnitude?_eq, if_pos hj])
      rwa [place_strictMono.injective.eq_iff, heven] at h
    · cases hv
  · rintro ⟨hx, hnearest⟩
    refine ⟨place (index x), by rw [magnitude?_eq, if_pos hx], fun y w hw => ?_⟩
    rw [magnitude?_eq] at hw
    split at hw
    · rename_i hy
      obtain rfl := Option.some.inj hw
      rw [place_strictMono.injective.eq_iff, heven]
      exact hnearest _ hy
    · cases hw

/-! ## Half way between neighbours -/

section

variable {a b q : ℚ}

theorem abs_sub_lt_abs_sub_iff (h : a < b) : |q - b| < |q - a| ↔ (a + b) / 2 < q := by
  have hpos := sub_pos.2 h
  rw [← sq_lt_sq]
  constructor
  · intro hlt
    by_contra hq
    nlinarith
  · intro hlt
    nlinarith

theorem abs_sub_eq_abs_sub_iff (h : a < b) : |q - b| = |q - a| ↔ (a + b) / 2 = q := by
  rw [abs_eq_abs]
  constructor
  · rintro (heq | heq) <;> linarith
  · intro heq
    right
    linarith

theorem abs_sub_lt_abs_sub_iff' (h : a < b) : |q - a| < |q - b| ↔ q < (a + b) / 2 := by
  rw [← not_le, le_iff_lt_or_eq, abs_sub_lt_abs_sub_iff h, abs_sub_eq_abs_sub_iff h, ← le_iff_lt_or_eq, not_le]

end

/-- Half way to the next place. -/
def half (i : ℕ) : ℚ := (place i + place (i + 1)) / 2

theorem half_strictMono : StrictMono half := by
  intro i j h
  have := place_strictMono h
  have := place_strictMono (Nat.succ_lt_succ h)
  unfold half
  linarith

/-- The number lies no further than half way to the neighbours of the place, and half way only
    if the place is even. -/
def Rounds (q : ℚ) (i : ℕ) : Prop :=
  (∀ j, i = j + 1 → half j < q ∨ half j = q ∧ i % 2 = 0) ∧ (i < top → q < half i ∨ half i = q ∧ i % 2 = 0)

theorem nearestTo_iff {q : ℚ} {x : Float} : NearestTo q x ↔ index x ≤ top ∧ Rounds q (index x) := by
  rw [nearestTo_iff_index]
  refine and_congr_right fun hx => ?_
  generalize index x = i at *
  constructor
  · intro h
    refine ⟨?_, fun hi => ?_⟩
    · rintro j rfl
      have hlt := place_strictMono (Nat.lt_succ_self j)
      rcases h j (by omega) with hj | ⟨hj, hself | heven⟩
      · exact Or.inl ((abs_sub_lt_abs_sub_iff hlt).1 hj)
      · omega
      · exact Or.inr ⟨(abs_sub_eq_abs_sub_iff hlt).1 hj, heven⟩
    · have hlt := place_strictMono (Nat.lt_succ_self i)
      rcases h (i + 1) hi with hj | ⟨hj, hself | heven⟩
      · exact Or.inl ((abs_sub_lt_abs_sub_iff' hlt).1 hj)
      · omega
      · exact Or.inr ⟨(abs_sub_eq_abs_sub_iff hlt).1 hj.symm, heven⟩
  · rintro ⟨hbelow, habove⟩ j hj
    rcases Nat.lt_trichotomy j i with hji | rfl | hij
    · obtain ⟨k, rfl⟩ := Nat.exists_eq_succ_of_ne_zero (Nat.ne_zero_of_lt hji)
      have hlt := place_strictMono hji
      have hle := place_strictMono.monotone (Nat.le_of_lt_succ hji)
      rw [abs_sub_lt_abs_sub_iff hlt, abs_sub_eq_abs_sub_iff hlt]
      have hmid : (place j + place (k + 1)) / 2 ≤ half k := by
        unfold half
        linarith
      rcases hbelow k rfl with hq | ⟨hq, heven⟩
      · exact Or.inl (hmid.trans_lt hq)
      · rcases hmid.lt_or_eq with hlt | heq
        · exact Or.inl (hlt.trans_eq hq)
        · exact Or.inr ⟨heq.trans hq, Or.inr heven⟩
    · exact Or.inr ⟨rfl, Or.inl rfl⟩
    · have hlt := place_strictMono hij
      have hle := place_strictMono.monotone (Nat.succ_le_of_lt hij)
      rw [abs_sub_lt_abs_sub_iff' hlt, @eq_comm _ |q - place i|, abs_sub_eq_abs_sub_iff hlt]
      have hmid : half i ≤ (place i + place j) / 2 := by
        unfold half
        linarith
      rcases habove (by omega) with hq | ⟨hq, heven⟩
      · exact Or.inl (hq.trans_le hmid)
      · rcases hmid.lt_or_eq with hlt | heq
        · exact Or.inl (hq.symm.trans_lt hlt)
        · exact Or.inr ⟨heq.symm.trans hq, Or.inr heven⟩

/-- No number rounds to two places. -/
theorem Rounds.unique {q : ℚ} {i j : ℕ} (hi : Rounds q i) (hj : Rounds q j) (htop : i ≤ top) (htop' : j ≤ top) :
    i = j := by
  wlog hij : i < j generalizing i j
  · rcases Nat.lt_or_eq_of_le (Nat.le_of_not_lt hij) with hji | rfl
    · exact (this hj hi htop' htop hji).symm
    · rfl
  · exfalso
    obtain ⟨k, rfl⟩ := Nat.exists_eq_succ_of_ne_zero (Nat.ne_zero_of_lt hij)
    have hle := half_strictMono.monotone (Nat.le_of_lt_succ hij)
    rcases hi.2 (by omega) with hq | ⟨hq, heven⟩ <;> rcases hj.1 k rfl with hq' | ⟨hq', heven'⟩
    · linarith
    · linarith
    · linarith
    · have := half_strictMono.injective (hq.trans hq'.symm)
      omega

/-! ## The double that a literal stands for -/

/-- The double that a number without a sign is read as: the nearest one, without a sign. -/
def ReadsAs (q : ℚ) (x : Float) : Prop := NearestTo q x ∧ ¬IsNegative x

theorem eq_of_index_eq {x y : Float} (h : index x = index y) (hx : ¬IsNegative x) (hy : ¬IsNegative y) : x = y := by
  have hbits : x.toBits.toNat = y.toBits.toNat := by
    unfold index at h
    unfold IsNegative at hx hy
    omega
  have hmodel : x.toModel.toBits = y.toModel.toBits := UInt64.toNat_inj.1 hbits
  obtain ⟨⟨b, hb⟩⟩ := x
  obtain ⟨⟨c, hc⟩⟩ := y
  obtain rfl : b = c := hmodel
  rfl

theorem ReadsAs.unique {q : ℚ} {x y : Float} (hx : ReadsAs q x) (hy : ReadsAs q y) : x = y := by
  obtain ⟨htop, hrounds⟩ := nearestTo_iff.1 hx.1
  obtain ⟨htop', hrounds'⟩ := nearestTo_iff.1 hy.1
  exact eq_of_index_eq (hrounds.unique hrounds' htop htop') hx.2 hy.2

end Pascaline.Double
