/-
  Pascaline.Proofs.Decimal.Rounding — decimals become the nearest double.

  The conversion divides or multiplies out the power of ten, shifts the quotient until it
  has no more bits than a double has, and rounds it. A mantissa with its round and sticky
  bits stands for a number between two mantissas; what is cut off to the right is still
  part of that number (`Extends`), whose half-way points the two bits tell apart
  (`Extends.rounded`). Packed, the mantissa is an index at the right place
  (`rounds_index`, `toNat_pack`), and the index is the one that the number rounds to
  (`isRounded_roundWithAccuracy`).

  So every decimal is read as the nearest double (`readsAs_toFloat`), whatever its digits
  and its exponent are, and so is every literal (`Decimal.readsAs_ofDigits`).
-/

import Mathlib.Algebra.Order.Field.Basic
import Mathlib.Tactic.Positivity
import Pascaline.Proofs.Decimal.Nearest
import Pascaline.Proofs.Decimal.Positional

namespace Pascaline

namespace Double

open Float.Model Float.Model.UnpackedFloat

/-! ## Mantissas with a rest -/

/-- The number is the mantissa with the rest that the two bits tell of: a half or none, and
    more than that or not. -/
def Extends (em : ExtendedMantissa) (t : ℚ) : Prop :=
  ∃ δ : ℚ, 0 ≤ δ ∧ δ < 1 / 2 ∧ (em.stickyBit ↔ 0 < δ) ∧ t = em.mantissa + em.roundBit.toNat / 2 + δ

theorem Extends.mantissa_le {em : ExtendedMantissa} {t : ℚ} (h : Extends em t) : em.mantissa ≤ t := by
  obtain ⟨δ, hpos, -, -, rfl⟩ := h
  have hbit : (0 : ℚ) ≤ em.roundBit.toNat / 2 := by positivity
  linarith

theorem Extends.lt_mantissa {em : ExtendedMantissa} {t : ℚ} (h : Extends em t) : t < em.mantissa + 1 := by
  obtain ⟨δ, -, hlt, -, rfl⟩ := h
  have hbit : (em.roundBit.toNat : ℚ) ≤ 1 := by exact_mod_cast Bool.toNat_le _
  linarith

theorem Extends.shiftRightOne {em : ExtendedMantissa} {t : ℚ} (h : Extends em t) :
    Extends em.shiftRightOne (t / 2) := by
  obtain ⟨δ, hpos, hlt, hsticky, rfl⟩ := h
  obtain ⟨m, r, s⟩ := em
  have hmod : (m : ℚ) = 2 * (m / 2 : ℕ) + (m % 2 : ℕ) := by exact_mod_cast (Nat.div_add_mod m 2).symm
  have hround : (m % 2 != 0).toNat = m % 2 := by
    rcases Nat.mod_two_eq_zero_or_one m with h | h <;> rw [h] <;> rfl
  refine ⟨(r.toNat / 2 + δ) / 2, ?_, ?_, ?_, ?_⟩
  · cases r <;> simp <;> linarith
  · cases r <;> simp <;> linarith
  · cases r with
    | false =>
      rw [Bool.toNat_false, Nat.cast_zero, zero_div, zero_add, div_pos_iff_of_pos_right two_pos]
      exact hsticky
    | true =>
      simp only [ExtendedMantissa.shiftRightOne, Bool.true_or, Bool.toNat_true, true_iff]
      push_cast
      linarith
  · show ((m : ℚ) + r.toNat / 2 + δ) / 2 = (m / 2 : ℕ) + ((m % 2 != 0).toNat : ℕ) / 2 + _
    rw [hround, hmod]
    ring

theorem Extends.shiftRight {em : ExtendedMantissa} {t : ℚ} (h : Extends em t) (k : ℕ) :
    Extends (em >>> k) (t / 2 ^ k) := by
  induction k with
  | zero =>
    rw [pow_zero, div_one]
    exact h
  | succ k ih =>
    rw [pow_succ, ← div_div]
    exact ih.shiftRightOne

theorem Extends.rounded {em : ExtendedMantissa} {t : ℚ} (h : Extends em t) :
    (em.roundedMantissa - 1 / 2 < t ∨ em.roundedMantissa - 1 / 2 = t ∧ em.roundedMantissa % 2 = 0) ∧
      (t < em.roundedMantissa + 1 / 2 ∨ em.roundedMantissa + 1 / 2 = t ∧ em.roundedMantissa % 2 = 0) := by
  obtain ⟨δ, hpos, hlt, hsticky, rfl⟩ := h
  obtain ⟨m, r, s⟩ := em
  have heven : (m + m % 2) % 2 = 0 := by omega
  cases r with
  | false =>
    -- below the half of a unit the mantissa stays
    have hM : ExtendedMantissa.roundedMantissa ⟨m, false, s⟩ = m := by cases s <;> rfl
    rw [hM, Bool.toNat_false, Nat.cast_zero]
    exact ⟨Or.inl (by linarith), Or.inl (by linarith)⟩
  | true =>
    rw [Bool.toNat_true, Nat.cast_one]
    cases s with
    | true =>
      have hδ : 0 < δ := hsticky.1 rfl
      have hM : ExtendedMantissa.roundedMantissa ⟨m, true, true⟩ = m + 1 := rfl
      rw [hM, Nat.cast_add_one]
      exact ⟨Or.inl (by linarith), Or.inl (by linarith)⟩
    | false =>
      -- just at the half it goes to the even neighbour
      obtain rfl : δ = 0 := le_antisymm (not_lt.1 fun h => absurd (hsticky.2 h) nofun) hpos
      have hM : ExtendedMantissa.roundedMantissa ⟨m, true, false⟩ = m + m % 2 := rfl
      rw [hM, Nat.cast_add]
      rcases Nat.mod_two_eq_zero_or_one m with h | h
      · rw [h] at heven ⊢
        exact ⟨Or.inl (by push_cast; linarith), Or.inr ⟨by push_cast; ring, heven⟩⟩
      · rw [h] at heven ⊢
        exact ⟨Or.inr ⟨by push_cast; ring, heven⟩, Or.inl (by push_cast; linarith)⟩

@[simp]
theorem mantissa_ofMantissaAndAccuracy (m : ℕ) (a : Accuracy) :
    (ExtendedMantissa.ofMantissaAndAccuracy m a).mantissa = m := by
  rcases a with _ | (_ | _ | _) <;> rfl

theorem extends_exact (m : ℕ) : Extends (.ofMantissaAndAccuracy m .exact) m :=
  ⟨0, le_rfl, by norm_num, by simp [ExtendedMantissa.ofMantissaAndAccuracy], by
    simp [ExtendedMantissa.ofMantissaAndAccuracy]⟩

/-- The remainder of a division says on which side of the half the quotient lies. -/
theorem extends_accuracyOfFraction (m n d : ℕ) (hn : n < d) :
    Extends (.ofMantissaAndAccuracy m (accuracyOfFraction n d)) (m + n / d) := by
  have hd : (0 : ℚ) < d := by exact_mod_cast Nat.zero_lt_of_lt hn
  have hlt : (n : ℚ) / d < 1 := by
    rw [div_lt_one hd]
    exact_mod_cast hn
  unfold accuracyOfFraction
  split
  · rename_i hzero
    rw [hzero, Nat.cast_zero, zero_div, add_zero]
    exact extends_exact m
  · rename_i hzero
    have hpos : (0 : ℚ) < n / d := div_pos (by exact_mod_cast Nat.pos_of_ne_zero hzero) hd
    cases hcmp : compare (2 * n) d with
    | lt =>
      have hhalf : (n : ℚ) / d < 1 / 2 := by
        rw [div_lt_div_iff₀ hd two_pos]
        have := Nat.compare_eq_lt.1 hcmp
        exact_mod_cast by omega
      exact ⟨n / d, hpos.le, hhalf, by simpa [ExtendedMantissa.ofMantissaAndAccuracy] using hpos, by
        simp [ExtendedMantissa.ofMantissaAndAccuracy]⟩
    | eq =>
      have hhalf : (n : ℚ) / d = 1 / 2 := by
        rw [div_eq_div_iff hd.ne' two_ne_zero]
        have := Nat.compare_eq_eq.1 hcmp
        exact_mod_cast by omega
      exact ⟨0, le_rfl, by norm_num, by simp [ExtendedMantissa.ofMantissaAndAccuracy], by
        simp [ExtendedMantissa.ofMantissaAndAccuracy, hhalf]⟩
    | gt =>
      have hhalf : 1 / 2 < (n : ℚ) / d := by
        rw [div_lt_div_iff₀ two_pos hd]
        have := Nat.compare_eq_gt.1 hcmp
        exact_mod_cast by omega
      refine ⟨n / d - 1 / 2, by linarith, by linarith, ?_, ?_⟩
      · simpa [ExtendedMantissa.ofMantissaAndAccuracy] using hhalf
      · simp [ExtendedMantissa.ofMantissaAndAccuracy]

/-! ## Where a mantissa is placed -/

/-- A mantissa of all its bits, or of fewer at the least exponent, is placed as it is. -/
theorem place_add {E M : ℕ} (hM : M ≤ 2 ^ 53) (hE : E = 0 ∨ 2 ^ 52 ≤ M) :
    place (E * 2 ^ 52 + M) = M * 2 ^ ((E : ℤ) - 1074) := by
  rcases Nat.lt_or_ge M (2 ^ 52) with h | h
  · obtain rfl : E = 0 := by omega
    rw [place, mantissa, exponent, if_pos (by omega), if_pos (by omega), Nat.zero_mul, Nat.zero_add]
    norm_num
  · rw [place, mantissa, exponent, if_neg (by omega), if_neg (by omega)]
    rcases Nat.lt_or_eq_of_le hM with hlt | rfl
    · rw [show 2 ^ 52 + (E * 2 ^ 52 + M) % 2 ^ 52 = M by omega, show (E * 2 ^ 52 + M) / 2 ^ 52 = E + 1 by omega]
      push_cast
      ring_nf
    · rw [show 2 ^ 52 + (E * 2 ^ 52 + 2 ^ 53) % 2 ^ 52 = 2 ^ 52 by omega,
        show (E * 2 ^ 52 + 2 ^ 53) / 2 ^ 52 = E + 2 by omega,
        show (((E + 2 : ℕ) : ℤ) - 1075) = (E : ℤ) - 1074 + 1 by omega, zpow_add_one₀ two_ne_zero]
      norm_num
      ring

theorem half_add {E M : ℕ} (hM : M < 2 ^ 53) (hE : E = 0 ∨ 2 ^ 52 ≤ M) :
    half (E * 2 ^ 52 + M) = (M + 1 / 2) * 2 ^ ((E : ℤ) - 1074) := by
  have hnext := place_add (E := E) (M := M + 1) (by omega) (by omega)
  unfold half
  rw [Nat.add_assoc, hnext, place_add hM.le hE]
  push_cast
  ring

/-- A number rounds to the index of the mantissa that it is rounded to. -/
theorem rounds_index {E M : ℕ} {t : ℚ} (hM : M ≤ 2 ^ 53) (hE : E = 0 ∨ 2 ^ 52 ≤ M ∧ 2 ^ 52 ≤ t)
    (hbelow : M - 1 / 2 < t ∨ M - 1 / 2 = t ∧ M % 2 = 0) (habove : t < M + 1 / 2 ∨ M + 1 / 2 = t ∧ M % 2 = 0) :
    Rounds (t * 2 ^ ((E : ℤ) - 1074)) (E * 2 ^ 52 + M) := by
  have hunit : (0 : ℚ) < 2 ^ ((E : ℤ) - 1074) := zpow_pos two_pos _
  have heven : (E * 2 ^ 52 + M) % 2 = M % 2 := by omega
  have hE' : E = 0 ∨ 2 ^ 52 ≤ M := hE.imp_right And.left
  rw [Rounds, heven]
  refine ⟨fun j hj => ?_, fun _ => ?_⟩
  · by_cases hleast : E = 0 ∨ 2 ^ 52 < M
    · obtain ⟨N, rfl⟩ : ∃ N, M = N + 1 := ⟨M - 1, by omega⟩
      obtain rfl : j = E * 2 ^ 52 + N := by omega
      rw [half_add (by omega) (by omega), mul_lt_mul_iff_left₀ hunit, mul_left_inj' hunit.ne']
      push_cast at hbelow
      rwa [show (N : ℚ) + 1 - 1 / 2 = N + 1 / 2 by ring] at hbelow
    · -- below the least mantissa the places are twice as close
      obtain ⟨D, rfl⟩ : ∃ D, E = D + 1 := ⟨E - 1, by omega⟩
      obtain rfl : M = 2 ^ 52 := by omega
      obtain rfl : j = D * 2 ^ 52 + (2 ^ 53 - 1) := by omega
      left
      have ht : (2 : ℚ) ^ 52 ≤ t := (hE.resolve_left (by omega)).2
      rw [half_add (by omega) (by omega), show ((D + 1 : ℕ) : ℤ) - 1074 = (D : ℤ) - 1074 + 1 by omega,
        zpow_add_one₀ two_ne_zero, mul_comm ((2 : ℚ) ^ _) 2, ← mul_assoc,
        mul_lt_mul_iff_left₀ (zpow_pos two_pos _)]
      norm_num at ht ⊢
      linarith
  · rcases Nat.lt_or_eq_of_le hM with hlt | rfl
    · rwa [half_add hlt hE', mul_lt_mul_iff_left₀ hunit, mul_left_inj' hunit.ne']
    · -- and above the greatest one they are twice as far apart
      left
      have hnext := place_add (E := E + 1) (M := 2 ^ 52 + 1) (by omega) (by omega)
      have hhalf : half (E * 2 ^ 52 + 2 ^ 53) = (2 ^ 53 + 1) * 2 ^ ((E : ℤ) - 1074) := by
        rw [half, place_add hM hE', show E * 2 ^ 52 + 2 ^ 53 + 1 = (E + 1) * 2 ^ 52 + (2 ^ 52 + 1) by ring, hnext,
          show ((E + 1 : ℕ) : ℤ) - 1074 = (E : ℤ) - 1074 + 1 by omega, zpow_add_one₀ two_ne_zero]
        push_cast
        ring
      rw [hhalf, mul_lt_mul_iff_left₀ hunit]
      push_cast at habove
      rcases habove with h | ⟨h, -⟩ <;> linarith

/-- What is too great for every finite double rounds to infinity. -/
theorem Rounds.min_top {q : ℚ} {i : ℕ} (h : Rounds q i) : Rounds q (min i top) := by
  rcases Nat.le_total i top with hle | hle
  · rwa [Nat.min_eq_left hle]
  · rw [Nat.min_eq_right hle]
    refine ⟨fun j hj => ?_, fun hlt => absurd hlt (lt_irrefl _)⟩
    obtain ⟨k, rfl⟩ : ∃ k, i = k + 1 := ⟨i - 1, by unfold top at hle; omega⟩
    rcases Nat.lt_or_eq_of_le (show j ≤ k by omega) with hjk | rfl
    · left
      rcases h.1 k rfl with hk | ⟨hk, -⟩
      · exact (half_strictMono hjk).trans hk
      · exact (half_strictMono hjk).trans_eq hk
    · exact hj ▸ h.1 j rfl

/-! ## Packing -/

theorem toNat_packComponents (e : BitVec 11) (m : BitVec 52) :
    (packComponents Format.binary64 .positive e m).toNat = e.toNat * 2 ^ 52 + m.toNat := by
  have hm := m.isLt
  have he := e.isLt
  rw [packComponents, BitVec.toNat_append, BitVec.toNat_append, ← Nat.shiftLeft_add_eq_or_of_lt hm,
    ← Nat.shiftLeft_add_eq_or_of_lt he]
  simp [Sign.toBitVec, Nat.shiftLeft_eq]

theorem toNat_packedInfinity : (packedInfinity Format.binary64 .positive).toNat = top := by
  rw [packedInfinity, toNat_packComponents]
  rfl

/-- A mantissa is packed as the index of its place, and as infinity beyond all places. -/
theorem toNat_pack {M : ℕ} {e : ℤ} {E : ℕ} (hpos : 0 < M) (he : e = E - 1074) (hM : M < 2 ^ 53)
    (hE : E = 0 ∨ 2 ^ 52 ≤ M) :
    (UnpackedFloat.pack Format.binary64 (.finite .positive M e hpos)).toNat = min (E * 2 ^ 52 + M) top := by
  have hbiased : (e + Format.binary64.exponentBias + Format.binary64.mantissaBitsWithoutImplicit).toNat = E + 1 := by
    rw [he, show ((Format.binary64.exponentBias : ℕ) : ℤ) = 1023 from rfl]
    show ((E : ℤ) - 1074 + 1023 + (52 : ℕ)).toNat = E + 1
    omega
  have htop : top = 2047 * 2 ^ 52 := rfl
  unfold UnpackedFloat.pack
  dsimp only
  rw [hbiased]
  by_cases hinf : 2 ^ 11 ≤ E + 1 + 1
  · rw [if_pos hinf, toNat_packedInfinity]
    omega
  · rw [if_neg hinf]
    by_cases hfull : 2 ^ 52 ≤ M
    · have hlog : M.log2 + 1 = Format.binary64.mantissaBits := by
        show M.log2 + 1 = 1 + 52
        rw [(Nat.log2_eq_iff hpos.ne').2 ⟨hfull, hM⟩]
      rw [if_pos hlog, toNat_packComponents, BitVec.toNat_ofNat, BitVec.toNat_ofNat]
      omega
    · have hlog : M.log2 + 1 ≠ Format.binary64.mantissaBits := by
        show M.log2 + 1 ≠ 1 + 52
        have := (Nat.log2_lt hpos.ne').2 (Nat.lt_of_not_le hfull)
        omega
      rw [if_neg hlog, toNat_packComponents, BitVec.toNat_ofNat, BitVec.toNat_ofNat]
      omega

/-! ## Rounding -/

theorem targetExponent_eq (m : ℕ) (e : ℤ) :
    Format.binary64.targetExponent (totalExponent m e) = max (m.log2 + e - 52) (-1074) := by
  show max ((m.log2 : ℤ) + 1 + e - (1 + 52 : ℕ)) (-1074) = _
  omega

theorem roundedMantissa_mem (em : ExtendedMantissa) :
    em.mantissa ≤ em.roundedMantissa ∧ em.roundedMantissa ≤ em.mantissa + 1 := by
  obtain ⟨m, r, s⟩ := em
  cases r <;> cases s <;>
    simp [ExtendedMantissa.roundedMantissa, ExtendedMantissa.accuracy, Accuracy.roundToNearestEven]
  omega

theorem shiftToTargetExponent_eq {m k : ℕ} {e : ℤ} (a : Accuracy) (hk : (max (m.log2 + e - 52) (-1074) - e).toNat = k) :
    shiftToTargetExponent Format.binary64 m e a = (ExtendedMantissa.ofMantissaAndAccuracy m a >>> k, e + k) := by
  simp only [shiftToTargetExponent, shiftToExponent, targetExponent_eq, hk]

/-- What the rounded mantissa is made of: it has one bit too many only as `2 ^ 53`. -/
def settle (M : ℕ) (e : ℤ) : UnpackedFloat :=
  let (em, e') := shiftToTargetExponent Format.binary64 M e .exact
  if h : em.mantissa = 0 then .zero .positive else .finite .positive em.mantissa e' (Nat.pos_of_ne_zero h)

theorem toNat_pack_settle {M E : ℕ} (hM : M ≤ 2 ^ 53) (hE : E = 0 ∨ 2 ^ 52 ≤ M) :
    (UnpackedFloat.pack Format.binary64 (settle M ((E : ℤ) - 1074))).toNat = min (E * 2 ^ 52 + M) top := by
  unfold settle
  rcases Nat.lt_or_eq_of_le hM with hlt | rfl
  · have hlog : M.log2 ≤ 52 := by
      by_cases hzero : M = 0
      · rw [hzero]
        exact Nat.zero_le 52
      · have := (Nat.log2_lt hzero).2 hlt
        omega
    rw [@shiftToTargetExponent_eq M 0 ((E : ℤ) - 1074) .exact (by omega)]
    show (UnpackedFloat.pack _ (if h : M = 0 then _ else .finite _ M ((E : ℤ) - 1074 + (0 : ℕ)) _)).toNat = _
    by_cases hzero : M = 0
    · obtain rfl : E = 0 := by omega
      rw [dif_pos hzero, hzero]
      rfl
    · rw [dif_neg hzero]
      exact toNat_pack (Nat.pos_of_ne_zero hzero) (by omega) hlt hE
  · rw [shiftToTargetExponent_eq (k := 1) .exact (by rw [Nat.log2_two_pow]; omega)]
    show (UnpackedFloat.pack _ (.finite .positive (2 ^ 52) ((E : ℤ) - 1074 + (1 : ℕ)) _)).toNat = _
    rw [toNat_pack (E := E + 1) (by omega) (by omega) (by omega) (by omega)]
    omega

/-- The float is packed as the index that the number rounds to. -/
def IsRounded (q : ℚ) (u : UnpackedFloat) : Prop :=
  (UnpackedFloat.pack Format.binary64 u).toNat ≤ top ∧ Rounds q (UnpackedFloat.pack Format.binary64 u).toNat

/-- A mantissa with enough bits is rounded as its number is. -/
theorem isRounded_roundWithAccuracy {m : ℕ} {e : ℤ} {a : Accuracy} {t : ℚ}
    (ht : Extends (.ofMantissaAndAccuracy m a) t) (hm : 52 ≤ m.log2 ∨ e ≤ -1074) :
    IsRounded (t * 2 ^ e) (roundWithAccuracy Format.binary64 .positive m e a) := by
  obtain ⟨k, hk⟩ : ∃ k, (max (m.log2 + e - 52) (-1074) - e).toNat = k := ⟨_, rfl⟩
  obtain ⟨E, hE⟩ : ∃ E : ℕ, e + k = (E : ℤ) - 1074 := ⟨(e + k + 1074).toNat, by omega⟩
  have hlog : E = 0 ∨ m.log2 = 52 + k := by omega
  obtain ⟨em, hem⟩ : ∃ em, ExtendedMantissa.ofMantissaAndAccuracy m a >>> k = em := ⟨_, rfl⟩
  have hround : roundWithAccuracy Format.binary64 .positive m e a = settle em.roundedMantissa ((E : ℤ) - 1074) := by
    unfold roundWithAccuracy
    rw [shiftToTargetExponent_eq a hk, hem, hE]
    rfl
  have hext : Extends em (t / 2 ^ k) := hem ▸ ht.shiftRight k
  have hpow : (0 : ℚ) < 2 ^ k := by positivity
  have hmem := roundedMantissa_mem em
  -- the shift leaves at most 53 bits
  have hupper : em.mantissa < 2 ^ 53 := by
    have hm : m + 1 ≤ 2 ^ 53 * 2 ^ k := by
      rw [← pow_add]
      exact Nat.lt_log2_self.trans_le (Nat.pow_le_pow_right two_pos (by omega))
    have hlt := ht.lt_mantissa
    rw [mantissa_ofMantissaAndAccuracy] at hlt
    have : t / 2 ^ k < 2 ^ 53 := by
      rw [div_lt_iff₀ hpow]
      exact hlt.trans_le (by exact_mod_cast hm)
    exact_mod_cast hext.mantissa_le.trans_lt this
  -- and leaves 53 of them if the exponent is not the least
  have hlower : E = 0 ∨ (2 : ℚ) ^ 52 ≤ t / 2 ^ k := by
    refine hlog.imp_right fun hlog => ?_
    have hne : m ≠ 0 := by
      rintro rfl
      rw [Nat.log2_zero] at hlog
      omega
    have hm : 2 ^ 52 * 2 ^ k ≤ m := by
      rw [← pow_add, ← hlog]
      exact Nat.log2_self_le hne
    have hle := ht.mantissa_le
    rw [mantissa_ofMantissaAndAccuracy] at hle
    rw [le_div_iff₀ hpow]
    exact le_trans (by exact_mod_cast hm) hle
  have hfull : E = 0 ∨ 2 ^ 52 ≤ em.roundedMantissa ∧ 2 ^ 52 ≤ t / 2 ^ k := by
    refine hlower.imp_right fun hlower => ⟨le_trans ?_ hmem.1, hlower⟩
    have : (2 : ℚ) ^ 52 < em.mantissa + 1 := hlower.trans_lt hext.lt_mantissa
    exact Nat.le_of_lt_succ (by exact_mod_cast this)
  have hscale : t * 2 ^ e = t / 2 ^ k * 2 ^ ((E : ℤ) - 1074) := by
    rw [← hE, zpow_add₀ two_ne_zero, zpow_natCast]
    field_simp
  have hrounds := rounds_index (by omega) hfull hext.rounded.1 hext.rounded.2
  rw [IsRounded, hround, toNat_pack_settle (by omega) (hfull.imp_right And.left), hscale]
  exact ⟨Nat.min_le_right _ _, hrounds.min_top⟩

/-! ## Powers of ten -/

theorem isRounded_zero {q : ℚ} (h : q < half 0) : IsRounded q (.zero .positive) := by
  have hbits : (UnpackedFloat.pack Format.binary64 (.zero .positive)).toNat = 0 := rfl
  rw [IsRounded, hbits]
  exact ⟨Nat.zero_le _, nofun, fun _ => Or.inl h⟩

theorem isRounded_infinity {q : ℚ} (h : 2 ^ 1024 ≤ q) : IsRounded q (.infinity .positive) := by
  have hbits : (UnpackedFloat.pack Format.binary64 (.infinity .positive)).toNat = top := toNat_packedInfinity
  rw [IsRounded, hbits]
  refine ⟨le_rfl, fun j hj => Or.inl ?_, fun hlt => absurd hlt (lt_irrefl _)⟩
  have hlt := place_strictMono (show j < top by omega)
  rw [← place_top] at h
  rw [half, ← hj]
  linarith

theorem half_zero : half 0 = 2 ^ (-1075 : ℤ) := by
  have hone := half_add (E := 0) (M := 0) (by norm_num) (Or.inl rfl)
  rw [Nat.zero_mul, Nat.zero_add] at hone
  rw [hone, show ((0 : ℕ) : ℤ) - 1074 = -1075 + 1 by norm_num, zpow_add_one₀ two_ne_zero]
  generalize (2 : ℚ) ^ (-1075 : ℤ) = unit
  push_cast
  ring

/-- With a power of ten that is not negative the digits are multiplied out. -/
theorem isRounded_mul {m : ℕ} (e : ℕ) (hm : 0 < m) :
    IsRounded (m * 10 ^ e) (roundWithAccuracy Format.binary64 .positive ((m <<< 53) * 10 ^ e) (-53 + 0) .exact) := by
  have hpos : (m <<< 53) * 10 ^ e ≠ 0 := by
    rw [Nat.shiftLeft_eq]
    positivity
  have hlog : 52 ≤ ((m <<< 53) * 10 ^ e).log2 := by
    rw [Nat.le_log2 hpos, Nat.shiftLeft_eq]
    nlinarith [Nat.one_le_pow e 10 (by norm_num)]
  have hvalue : (m : ℚ) * (10 : ℚ) ^ e = ((m <<< 53 * 10 ^ e : ℕ) : ℚ) * 2 ^ (-53 + 0 : ℤ) := by
    rw [Nat.shiftLeft_eq]
    push_cast
    norm_num
    ring
  rw [hvalue]
  exact isRounded_roundWithAccuracy (extends_exact _) (Or.inl hlog)

/-- With a negative power of ten the digits are divided by it, to enough bits. -/
theorem isRounded_div {m d : ℕ} (hm : 0 < m) (hd : 0 < d) :
    IsRounded (m / d) (UnpackedFloat.div Format.binary64 (.finite .positive m 0 hm) (.finite .positive d 0 hd)) := by
  obtain ⟨k, hk⟩ : ∃ k : ℕ, min 0 (max ((m.log2 : ℤ) - d.log2 - 53) (-1074)) = -(k : ℤ) :=
    ⟨(-min 0 (max ((m.log2 : ℤ) - d.log2 - 53) (-1074))).toNat, by omega⟩
  have htarget :
      min (0 - 0 : ℤ) (Format.binary64.targetExponent (totalExponent m 0 - totalExponent d 0)) = -(k : ℤ) := by
    rw [← hk]
    show min 0 (max ((m.log2 : ℤ) + 1 + 0 - (d.log2 + 1 + 0) - (1 + 52 : ℕ)) (-1074)) = _
    omega
  have hcore : divCore Format.binary64 m 0 d 0 =
      (m * 2 ^ k / d, -(k : ℤ), accuracyOfFraction (m * 2 ^ k % d) d) := by
    simp only [divCore, htarget, Nat.shiftLeft_eq]
    rw [show (0 - 0 - -(k : ℤ)).toNat = k by omega]
  have hdiv : UnpackedFloat.div Format.binary64 (.finite .positive m 0 hm) (.finite .positive d 0 hd) =
      roundWithAccuracy Format.binary64 .positive (m * 2 ^ k / d) (-(k : ℤ))
        (accuracyOfFraction (m * 2 ^ k % d) d) := by
    unfold UnpackedFloat.div
    dsimp only
    rw [hcore]
    rfl
  have hlog : 52 ≤ (m * 2 ^ k / d).log2 ∨ -(k : ℤ) ≤ -1074 := by
    by_cases hleast : -(k : ℤ) ≤ -1074
    · exact Or.inr hleast
    · left
      have hle : 2 ^ 52 ≤ m * 2 ^ k / d := by
        rw [Nat.le_div_iff_mul_le hd]
        calc 2 ^ 52 * d ≤ 2 ^ 52 * 2 ^ (d.log2 + 1) := Nat.mul_le_mul_left _ Nat.lt_log2_self.le
          _ = 2 ^ (d.log2 + 53) := by rw [← pow_add]; ring_nf
          _ ≤ 2 ^ (m.log2 + k) := Nat.pow_le_pow_right two_pos (by omega)
          _ = 2 ^ m.log2 * 2 ^ k := pow_add ..
          _ ≤ m * 2 ^ k := Nat.mul_le_mul_right _ (Nat.log2_self_le hm.ne')
      exact (Nat.le_log2 (by omega)).2 hle
  have hvalue : (m : ℚ) / d = ((m * 2 ^ k / d : ℕ) + (m * 2 ^ k % d : ℕ) / d) * 2 ^ (-(k : ℤ)) := by
    have hsplit : (m : ℚ) * 2 ^ k = d * (m * 2 ^ k / d : ℕ) + (m * 2 ^ k % d : ℕ) := by
      exact_mod_cast (Nat.div_add_mod (m * 2 ^ k) d).symm
    have hne : (d : ℚ) ≠ 0 := by exact_mod_cast hd.ne'
    rw [zpow_neg, zpow_natCast]
    field_simp
    linarith
  rw [hdiv, hvalue]
  exact isRounded_roundWithAccuracy (extends_accuracyOfFraction _ _ _ (Nat.mod_lt _ hd)) hlog

theorem le_mul_zpow {m : ℕ} {e : ℤ} (hm : 0 < m) (he : 1024 ≤ e) : (2 : ℚ) ^ 1024 ≤ m * 10 ^ e :=
  calc (2 : ℚ) ^ 1024 ≤ 10 ^ 1024 := pow_le_pow_left₀ two_pos.le (by norm_num) _
    _ = 10 ^ (1024 : ℤ) := (zpow_natCast ..).symm
    _ ≤ 10 ^ e := zpow_le_zpow_right₀ (by norm_num) he
    _ ≤ m * 10 ^ e := le_mul_of_one_le_left (zpow_pos (by norm_num) _).le (by exact_mod_cast hm)

theorem mul_zpow_lt_half_zero {m : ℕ} {e : ℤ} (he : e < -(2 ^ 11 + (m.log2 : ℤ))) : (m : ℚ) * 10 ^ e < half 0 := by
  obtain ⟨k, rfl⟩ : ∃ k : ℕ, e = -(k : ℤ) := ⟨(-e).toNat, by omega⟩
  rw [half_zero, zpow_neg, zpow_natCast, ← div_eq_mul_inv, div_lt_iff₀ (by positivity)]
  calc (m : ℚ) < 2 ^ (m.log2 + 1) := by exact_mod_cast Nat.lt_log2_self
    _ = 2 ^ ((m.log2 + 1 : ℕ) : ℤ) := (zpow_natCast ..).symm
    _ ≤ 2 ^ (-1075 + (k : ℤ)) := zpow_le_zpow_right₀ one_le_two (by omega)
    _ = 2 ^ (-1075 : ℤ) * 2 ^ k := by rw [zpow_add₀ two_ne_zero, zpow_natCast]
    _ ≤ 2 ^ (-1075 : ℤ) * 10 ^ k :=
      mul_le_mul_of_nonneg_left (pow_le_pow_left₀ two_pos.le (by norm_num) _) (zpow_pos two_pos _).le

/-- The conversion of a decimal rounds it. -/
theorem isRounded_ofScientific (m : ℕ) (e : ℤ) :
    IsRounded (m * 10 ^ e) (UnpackedFloat.ofScientific Format.binary64 m e) := by
  unfold UnpackedFloat.ofScientific
  by_cases hzero : m = 0
  · rw [dif_pos hzero, hzero, Nat.cast_zero, zero_mul]
    refine isRounded_zero ?_
    rw [half_zero]
    exact zpow_pos two_pos _
  have hm : 0 < m := Nat.pos_of_ne_zero hzero
  rw [dif_neg hzero]
  by_cases hgreat : e > 2 ^ Format.binary64.exponentBits
  · rw [if_pos hgreat]
    exact isRounded_infinity (le_mul_zpow hm (le_trans (by norm_num) hgreat.le))
  rw [if_neg hgreat]
  by_cases hsmall : e < -(2 ^ 11 + (m.log2 : ℤ))
  · rw [if_pos hsmall]
    exact isRounded_zero (mul_zpow_lt_half_zero hsmall)
  rw [if_neg hsmall]
  by_cases hnonneg : 0 ≤ e
  · rw [if_pos hnonneg]
    obtain ⟨k, rfl⟩ := Int.eq_ofNat_of_zero_le hnonneg
    rw [zpow_natCast]
    exact isRounded_mul k hm
  · rw [if_neg hnonneg]
    have hvalue : (m : ℚ) * 10 ^ e = m / (10 ^ (-e).toNat : ℕ) := by
      rw [Nat.cast_pow, Nat.cast_ofNat, ← zpow_natCast, Int.toNat_of_nonneg (by omega), zpow_neg, div_inv_eq_mul]
    rw [hvalue]
    exact isRounded_div hm _

/-- Every decimal is read as the nearest double. -/
theorem readsAs_toFloat (d : Decimal) : ReadsAs (d.digits * 10 ^ d.exponent) d.toFloat := by
  obtain ⟨htop, hrounds⟩ := isRounded_ofScientific d.digits d.exponent
  have hbits : d.toFloat.toBits.toNat =
      (UnpackedFloat.pack Format.binary64 (UnpackedFloat.ofScientific Format.binary64 d.digits d.exponent)).toNat := rfl
  have htop' : top = 2047 * 2 ^ 52 := rfl
  rw [← hbits] at htop hrounds
  have hindex : index d.toFloat = d.toFloat.toBits.toNat := by
    unfold index
    omega
  refine ⟨nearestTo_iff.2 ?_, ?_⟩
  · rw [hindex]
    exact ⟨htop, hrounds⟩
  · unfold IsNegative
    omega

end Double

namespace Decimal

/-- A literal is read as the double nearest to the number that is written. -/
theorem readsAs_ofDigits (whole fraction : List Char) :
    Double.ReadsAs (written whole fraction) (ofDigits whole fraction).toFloat := by
  rw [← ofDigits_eq_written]
  exact Double.readsAs_toFloat _

end Decimal

end Pascaline
