/-
  Pascaline.Proofs.Decimal.Display — what the text of a double says.

  A double is shown by its sign and the shortest decimal that is read back as its magnitude:
  of all numbers whose nearest double it is, the one of the fewest significant digits, and of
  those the nearest one, the greater of two that are as near (`IsShortest`). The digits stand
  in positional notation without zeros that say nothing (`Decimal.IsPositional`). Infinity and NaN
  have names (`Displays`).

  The span of a double is what rounds to it (`contains_iff`), and it is wide enough for 17
  digits (`isWide_span`). So every double is shown as the text that its value asks for
  (`displays_plain`), and it has no other text (`displays_iff`).
-/

import Pascaline.Decimal.Plain
import Pascaline.Proofs.Decimal.Rounding
import Pascaline.Proofs.Decimal.Shortest

namespace Pascaline

namespace Double

/-! ## The span of a double -/

/-- The place below is half as far away. -/
def isNarrow (i : ℕ) : Bool := i % 2 ^ 52 = 0 && 1 < i / 2 ^ 52

theorem ofFloat_eq (x : Float) : Binary.ofFloat x =
    if index x < top then .finite (mantissa (index x)) (exponent (index x)) (isNarrow (index x))
    else if index x = top then .infinite else .nan := by
  have htop : top = 2047 * 2 ^ 52 := rfl
  unfold Binary.ofFloat
  simp only [Nat.shiftRight_eq_div_pow, Nat.one_shiftLeft, mantissa, exponent, isNarrow]
  have hbiased : x.toBits.toNat / 2 ^ 52 % 2048 = index x / 2 ^ 52 := by
    unfold index
    omega
  have hfraction : x.toBits.toNat % 2 ^ 52 = index x % 2 ^ 52 := by
    unfold index
    omega
  have hlt : index x < 2 ^ 63 := Nat.mod_lt _ (by positivity)
  rw [hbiased, hfraction]
  generalize index x = i at *
  by_cases hgreat : i / 2 ^ 52 = 2047
  · by_cases hzero : i % 2 ^ 52 = 0
    · rw [if_pos hgreat, if_pos hzero, if_neg (show ¬i < top by omega), if_pos (by omega)]
    · rw [if_pos hgreat, if_neg hzero, if_neg (show ¬i < top by omega), if_neg (by omega)]
  · rw [if_neg hgreat, if_pos (show i < top by omega)]
    by_cases hleast : i / 2 ^ 52 = 0
    · rw [if_pos hleast, if_pos (by omega), if_pos (by omega), Nat.mod_eq_of_lt (by omega), hleast]
      simp
    · rw [if_neg hleast, if_neg (by omega), if_neg (by omega)]

theorem mantissa_mod_two (i : ℕ) : mantissa i % 2 = i % 2 := by
  unfold mantissa
  split <;> omega

theorem mantissa_lt (i : ℕ) : mantissa i < 2 ^ 53 := by
  unfold mantissa
  split <;> omega

/-- A quarter of a unit in the last place, on the scale of the span. -/
def quarter (e : ℤ) : ℕ := 2 ^ (e - 2).toNat * 5 ^ (2 - e).toNat

theorem quarter_mul (e : ℤ) : (quarter e : ℚ) * 10 ^ min (e - 2) 0 = 2 ^ (e - 2) := by
  unfold quarter
  rcases Int.le_total 2 e with h | h
  · obtain ⟨k, hk⟩ : ∃ k : ℕ, e - 2 = k := ⟨(e - 2).toNat, by omega⟩
    rw [hk, show (2 - e).toNat = 0 by omega, min_eq_right (by omega), zpow_zero, Int.toNat_natCast, zpow_natCast]
    push_cast
    ring
  · obtain ⟨k, hk⟩ : ∃ k : ℕ, e - 2 = -(k : ℤ) := ⟨(2 - e).toNat, by omega⟩
    rw [hk, show (2 - e).toNat = k by omega, min_eq_left (by omega), show (-(k : ℤ)).toNat = 0 by omega, zpow_neg,
      zpow_neg, zpow_natCast, zpow_natCast, show (10 : ℚ) = 2 * 5 by norm_num, mul_pow]
    push_cast
    field_simp

/-- The span of a finite double. -/
def span (i : ℕ) : Span := Binary.span (mantissa i) (exponent i) (isNarrow i)

theorem high_span (i : ℕ) : ((span i).high : ℚ) * 10 ^ (span i).scale = half i := by
  show (((4 * mantissa i + 2) * quarter (exponent i) : ℕ) : ℚ) * 10 ^ min (exponent i - 2) 0 = _
  have hquarter := quarter_mul (exponent i)
  push_cast
  rw [mul_assoc, hquarter, half, place_succ, place, zpow_sub₀ two_ne_zero]
  ring

theorem value_span (i : ℕ) : ((span i).value : ℚ) * 10 ^ (span i).scale = place i := by
  show ((4 * mantissa i * quarter (exponent i) : ℕ) : ℚ) * 10 ^ min (exponent i - 2) 0 = _
  push_cast
  rw [mul_assoc, quarter_mul, place, zpow_sub₀ two_ne_zero]
  ring

theorem exponent_of_succ (i : ℕ) :
    exponent i = if isNarrow (i + 1) then exponent (i + 1) - 1 else exponent (i + 1) := by
  unfold isNarrow exponent
  simp only [Bool.and_eq_true, decide_eq_true_eq]
  split_ifs <;> omega

theorem mantissa_succ_pos (i : ℕ) : 0 < mantissa (i + 1) := by
  unfold mantissa
  split <;> omega

theorem low_span (i : ℕ) : ((span (i + 1)).low : ℚ) * 10 ^ (span (i + 1)).scale = half i := by
  have hpos := mantissa_succ_pos i
  have hhalf : half i = place (i + 1) - 2 ^ exponent i / 2 := by
    rw [half, place_succ]
    ring
  show (((4 * mantissa (i + 1) - if isNarrow (i + 1) then 1 else 2) * quarter (exponent (i + 1)) : ℕ) : ℚ) *
    10 ^ min (exponent (i + 1) - 2) 0 = _
  rw [hhalf, place, Nat.cast_mul, mul_assoc, quarter_mul, exponent_of_succ i]
  split
  · rw [Nat.cast_sub (by omega), zpow_sub₀ two_ne_zero, zpow_sub₀ two_ne_zero]
    push_cast
    ring
  · rw [Nat.cast_sub (by omega), zpow_sub₀ two_ne_zero]
    push_cast
    ring

/-- The span holds what rounds to the double. -/
theorem contains_iff {i : ℕ} {r : ℚ} (hi : i + 1 < top) :
    (span (i + 1)).Contains r ↔ Rounds (r * 10 ^ (span (i + 1)).scale) (i + 1) := by
  have hscale : (0 : ℚ) < 10 ^ (span (i + 1)).scale := zpow_pos (by norm_num) _
  have hclosed : (span (i + 1)).closed ↔ (i + 1) % 2 = 0 := by
    show decide (mantissa (i + 1) % 2 = 0) ↔ _
    rw [decide_eq_true_iff, mantissa_mod_two]
  have hbelow : (∀ j, i + 1 = j + 1 → half j < r * 10 ^ (span (i + 1)).scale ∨
      half j = r * 10 ^ (span (i + 1)).scale ∧ (i + 1) % 2 = 0) ↔
      half i < r * 10 ^ (span (i + 1)).scale ∨ half i = r * 10 ^ (span (i + 1)).scale ∧ (i + 1) % 2 = 0 :=
    ⟨fun h => h i rfl, fun h j hj => Nat.succ_injective hj ▸ h⟩
  rw [Rounds, hbelow, Span.Contains, hclosed, ← low_span, ← high_span, mul_lt_mul_iff_left₀ hscale,
    mul_lt_mul_iff_left₀ hscale, mul_left_inj' hscale.ne', mul_left_inj' hscale.ne']
  exact and_congr_right fun _ => ⟨fun h _ => h, fun h => h hi⟩

theorem isWide_span (i : ℕ) : (span (i + 1)).IsWide := by
  have hpos := mantissa_succ_pos i
  have hquarter : 0 < quarter (exponent (i + 1)) := by
    unfold quarter
    positivity
  have hlt := mantissa_lt (i + 1)
  have hlow : (span (i + 1)).low =
      (4 * mantissa (i + 1) - if isNarrow (i + 1) then 1 else 2) * quarter (exponent (i + 1)) := rfl
  have hvalue : (span (i + 1)).value = 4 * mantissa (i + 1) * quarter (exponent (i + 1)) := rfl
  have hhigh : (span (i + 1)).high = (4 * mantissa (i + 1) + 2) * quarter (exponent (i + 1)) := rfl
  have hnarrow : isNarrow (i + 1) → mantissa (i + 1) = 2 ^ 52 := by
    unfold isNarrow mantissa
    simp only [Bool.and_eq_true, decide_eq_true_eq]
    split <;> omega
  refine ⟨?_, ?_, ?_, ?_⟩
  · rw [hlow]
    refine Nat.mul_pos ?_ hquarter
    split <;> omega
  · rw [hlow, hvalue]
    refine Nat.mul_lt_mul_of_pos_right ?_ hquarter
    split <;> omega
  · rw [hvalue, hhigh]
    exact Nat.mul_lt_mul_of_pos_right (by omega) hquarter
  · rw [hlow, hvalue, hhigh, ← Nat.sub_mul, ← mul_assoc]
    refine Nat.mul_lt_mul_of_pos_right ?_ hquarter
    split
    · rename_i h
      rw [hnarrow h]
      norm_num
    · omega

/-! ## What a double is shown as -/

/-- Of all numbers whose nearest double it is, the one of the fewest significant digits; of
    those the nearest one, and of two that are as near the greater. -/
def IsShortest (x : Float) (q : ℚ) : Prop :=
  ∃ v p, magnitude? x = some v ∧ NearestTo q x ∧ HasDigits p q ∧ ∀ r n, NearestTo r x → HasDigits n r →
    p ≤ n ∧ (n = p → |q - v| < |r - v| ∨ |q - v| = |r - v| ∧ r ≤ q)

instance (x : Float) : Decidable (IsNegative x) := Nat.decLe ..

def sign (x : Float) : String := if IsNegative x then "-" else ""

/-- The text that a double is shown as. -/
inductive Displays (x : Float) : String → Prop
  | nan (hx : magnitude? x = none) : Displays x "NaN"
  | infinite (hx : magnitude? x = some (2 ^ 1024)) : Displays x (sign x ++ "inf")
  | finite {q : ℚ} {text : List Char} (hx : magnitude? x ≠ some (2 ^ 1024)) (hq : IsShortest x q)
      (htext : Decimal.IsPositional q text) : Displays x (sign x ++ String.ofList text)

theorem isShortest_zero {x : Float} (hx : index x = 0) : IsShortest x 0 := by
  refine ⟨0, 0, ?_, nearestTo_iff.2 ?_, ⟨0, 0, by norm_num, by simp⟩, ?_⟩
  · rw [magnitude?_eq, hx, if_pos (Nat.zero_le _), place_zero]
  · rw [hx]
    refine ⟨Nat.zero_le _, nofun, fun _ => Or.inl ?_⟩
    rw [half_zero]
    exact zpow_pos two_pos _
  · rintro r n - ⟨m, k, hm, rfl⟩
    refine ⟨Nat.zero_le n, ?_⟩
    rintro rfl
    obtain rfl : m = 0 := by omega
    simp

theorem isShortest_of_isBest {x : Float} {i p n : ℕ} (hx : index x = i + 1) (hi : i + 1 < top)
    (h : (span (i + 1)).IsBest p n) : IsShortest x (n * 10 ^ (span (i + 1)).scale) := by
  obtain ⟨k, hk⟩ : ∃ k, (span (i + 1)).scale = k := ⟨_, rfl⟩
  have hscale : (0 : ℚ) < 10 ^ k := zpow_pos (by norm_num) _
  have hdist : ∀ a : ℚ, |a * 10 ^ k - place (i + 1)| = |a - (span (i + 1)).value| * 10 ^ k := by
    intro a
    rw [← value_span, hk, ← sub_mul, abs_mul, abs_of_pos hscale]
  have hnearest : ∀ r : ℚ, NearestTo (r * 10 ^ k) x ↔ (span (i + 1)).Contains r := by
    intro r
    rw [nearestTo_iff, contains_iff hi, hx, hk]
    exact and_iff_right hi.le
  rw [hk]
  refine ⟨place (i + 1), p, ?_, (hnearest n).2 h.contains, h.hasDigits.mul_zpow k, fun r d hr hdigits => ?_⟩
  · rw [magnitude?_eq, hx, if_pos hi.le]
  obtain ⟨t, rfl⟩ : ∃ t, r = t * 10 ^ k := ⟨r / 10 ^ k, by field_simp⟩
  have hdigits' : HasDigits d t := by
    have := hdigits.mul_zpow (-k)
    rwa [mul_assoc, ← zpow_add₀ (by norm_num), add_neg_cancel, zpow_zero, mul_one] at this
  obtain ⟨hle, hnear⟩ := h.best t d ((hnearest t).1 hr) hdigits'
  rw [hdist, hdist, mul_lt_mul_iff_left₀ hscale, mul_left_inj' hscale.ne', mul_le_mul_iff_left₀ hscale]
  exact ⟨hle, hnear⟩

theorem plain_eq {x : Float} (h : Binary.ofFloat x ≠ .nan) : plain x = sign x ++ (Binary.ofFloat x).plain := by
  have hlt := x.toBits.toNat_lt
  have hsign : signBit x ↔ IsNegative x := by
    unfold signBit IsNegative
    rw [Nat.shiftRight_eq_div_pow, decide_eq_true_iff]
    omega
  unfold plain sign
  split
  · contradiction
  · simp only [hsign]
    split
    · rfl
    · rw [String.empty_append]

theorem ofFloat_ne_nan {x : Float} (h : index x ≤ top) : Binary.ofFloat x ≠ .nan := by
  rw [ofFloat_eq]
  split
  · exact Binary.noConfusion
  · rw [if_pos (by omega)]
    exact Binary.noConfusion

/-- Every double is shown as the text that its value asks for. -/
theorem displays_plain (x : Float) : Displays x (plain x) := by
  rcases Nat.lt_trichotomy (index x) top with hlt | htop | hgt
  · have hfinite : magnitude? x ≠ some (2 ^ 1024) := by
      rw [magnitude?_eq, if_pos hlt.le, ← place_top]
      exact fun h => (place_strictMono hlt).ne (Option.some.inj h)
    have hof : Binary.ofFloat x = .finite (mantissa (index x)) (exponent (index x)) (isNarrow (index x)) := by
      rw [ofFloat_eq, if_pos hlt]
    rw [plain_eq (ofFloat_ne_nan hlt.le), hof]
    cases hi : index x with
    | zero =>
      have hwritten : Decimal.written ['0'] [] = 0 := by simp [Decimal.written, Nat.ofDigitChars_cons]
      have hzero := Decimal.IsPositional.whole (show Decimal.IsWhole ['0'] from ⟨by simp, by simp, Or.inl rfl⟩)
      rw [hwritten] at hzero
      exact .finite hfinite (isShortest_zero hi) hzero
    | succ i =>
      rw [hi] at hlt
      obtain ⟨p, n, hshortest, hpos, hbest⟩ := Span.exists_isBest (isWide_span i)
      have hmantissa : Binary.plain (.finite (mantissa (i + 1)) (exponent (i + 1)) (isNarrow (i + 1))) =
          (span (i + 1)).shortest.plain := by
        obtain ⟨m, hm⟩ := Nat.exists_eq_succ_of_ne_zero (mantissa_succ_pos i).ne'
        rw [span, hm]
        rfl
      have htext := Decimal.isPositional_plain (Decimal.trim_digits_mod ⟨n, (span (i + 1)).scale⟩ hpos)
      rw [Decimal.trim_value, ← hshortest] at htext
      rw [hmantissa, ← String.ofList_toList (s := (span (i + 1)).shortest.plain)]
      exact .finite hfinite (isShortest_of_isBest hi hlt hbest) htext
  · have hof : Binary.ofFloat x = .infinite := by rw [ofFloat_eq, if_neg (by omega), if_pos htop]
    rw [plain_eq (ofFloat_ne_nan htop.le), hof]
    exact .infinite (by rw [magnitude?_eq, if_pos htop.le, htop, place_top])
  · have hof : Binary.ofFloat x = .nan := by rw [ofFloat_eq, if_neg (by omega), if_neg (by omega)]
    have hplain : plain x = "NaN" := by
      unfold plain
      rw [hof]
      rfl
    rw [hplain]
    exact .nan (by rw [magnitude?_eq, if_neg (by omega)])

theorem IsShortest.unique {x : Float} {q r : ℚ} (hq : IsShortest x q) (hr : IsShortest x r) : q = r := by
  obtain ⟨v, p, hv, hnear, hdigits, hbest⟩ := hq
  obtain ⟨w, n, hw, hnear', hdigits', hbest'⟩ := hr
  obtain rfl : v = w := Option.some.inj (hv.symm.trans hw)
  obtain ⟨hle, htie⟩ := hbest r n hnear' hdigits'
  obtain ⟨hle', htie'⟩ := hbest' q p hnear hdigits
  obtain rfl : n = p := Nat.le_antisymm hle' hle
  rcases htie rfl with hlt | ⟨heq, hrq⟩
  · rcases htie' rfl with hlt' | ⟨heq, -⟩
    · exact absurd hlt' hlt.asymm
    · exact absurd heq hlt.ne'
  · rcases htie' rfl with hlt' | ⟨-, hqr⟩
    · exact absurd heq hlt'.ne'
    · exact le_antisymm hqr hrq

theorem IsShortest.magnitude?_ne {x : Float} {q : ℚ} (h : IsShortest x q) : magnitude? x ≠ none := by
  obtain ⟨v, p, hv, -⟩ := h
  rw [hv]
  nofun

/-- No double has two texts. -/
theorem Displays.unique {x : Float} {s t : String} (hs : Displays x s) (ht : Displays x t) : s = t := by
  cases hs with
  | nan hx =>
    cases ht with
    | nan => rfl
    | infinite hx' => exact absurd (hx.symm.trans hx') nofun
    | finite _ hq => exact absurd hx hq.magnitude?_ne
  | infinite hx =>
    cases ht with
    | nan hx' => exact absurd (hx'.symm.trans hx) nofun
    | infinite => rfl
    | finite hx' => exact absurd hx hx'
  | finite hx hq htext =>
    cases ht with
    | nan hx' => exact absurd hx' hq.magnitude?_ne
    | infinite hx' => exact absurd hx' hx
    | finite _ hq' htext' =>
      obtain rfl := hq.unique hq'
      rw [htext.unique htext']

theorem displays_iff {x : Float} {text : String} : Displays x text ↔ text = plain x := by
  refine ⟨fun h => h.unique (displays_plain x), ?_⟩
  rintro rfl
  exact displays_plain x

end Double

end Pascaline
