/-
  Pascaline.Proofs.Decimal.Shortest — the fewest digits in a span, and the nearest of those.

  A number has `p` significant digits if it is `n · 10 ^ k` for a number `n` of `p` digits.
  The numbers of `p` digits next to the value of a span are the two of a grid: no other one
  lies between them (`le_or_le_of_hasDigits`). So where the grid has no point in the span, no
  number of `p` digits lies in it (`not_contains_of_onGrid?`), and where it has one, the one
  that is chosen is nearest to the value (`nearest_of_onGrid?`), a tie going up.

  A span whose width is more than `10 ^ -16` of its value has a point on one of the grids of
  up to 17 digits, so the first grid with a point gives the fewest digits
  (`exists_isBest`).
-/

import Mathlib.Tactic.Linarith
import Mathlib.Tactic.Ring
import Pascaline.Decimal.Shortest

namespace Pascaline

/-- The number has at most so many significant digits. -/
def HasDigits (p : ℕ) (r : ℚ) : Prop := ∃ (n : ℕ) (k : ℤ), n < 10 ^ p ∧ r = n * 10 ^ k

theorem HasDigits.mul_zpow {p : ℕ} {r : ℚ} (h : HasDigits p r) (j : ℤ) : HasDigits p (r * 10 ^ j) := by
  obtain ⟨n, k, hn, rfl⟩ := h
  refine ⟨n, k + j, hn, ?_⟩
  rw [zpow_add₀ (by norm_num), mul_assoc]

/-- A carry makes one digit of them all. -/
theorem hasDigits_of_le {p n : ℕ} (h : n ≤ 10 ^ (p + 1)) (k : ℤ) : HasDigits (p + 1) (n * 10 ^ k) := by
  rcases Nat.lt_or_eq_of_le h with hlt | rfl
  · exact ⟨n, k, hlt, rfl⟩
  · refine ⟨1, (p + 1 : ℕ) + k, Nat.one_lt_pow (Nat.succ_ne_zero p) (by norm_num), ?_⟩
    rw [zpow_add₀ (by norm_num), zpow_natCast]
    push_cast
    ring

namespace Span

/-! ## The numbers of a span -/

/-- The number lies in the span. -/
def Contains (s : Span) (r : ℚ) : Prop :=
  (s.low < r ∨ s.low = r ∧ s.closed) ∧ (r < s.high ∨ s.high = r ∧ s.closed)

variable {s : Span}

theorem holds_iff {n : ℕ} : s.holds n ↔ s.Contains n := by
  unfold holds Contains
  split
  · rename_i hclosed
    simp only [hclosed, Bool.and_eq_true, decide_eq_true_eq, and_true, ← le_iff_lt_or_eq, Nat.cast_le]
    rw [eq_comm (a := (s.high : ℚ)), ← le_iff_lt_or_eq, Nat.cast_le]
  · rename_i hclosed
    simp [hclosed]

theorem Contains.between {a b r : ℚ} (ha : s.Contains a) (hb : s.Contains b) (har : a ≤ r) (hrb : r ≤ b) :
    s.Contains r := by
  refine ⟨?_, ?_⟩
  · rcases ha.1 with h | ⟨h, hclosed⟩
    · exact Or.inl (h.trans_le har)
    · exact (h.trans_le har).lt_or_eq.imp_right fun h => ⟨h, hclosed⟩
  · rcases hb.2 with h | ⟨h, hclosed⟩
    · exact Or.inl (hrb.trans_lt h)
    · exact (hrb.trans_eq h.symm).lt_or_eq.imp_right fun h => ⟨h.symm, hclosed⟩

/-- The value lies inside the span, and the span is not too narrow for 17 digits. -/
structure IsWide (s : Span) : Prop where
  low_pos : 0 < s.low
  low_lt : s.low < s.value
  lt_high : s.value < s.high
  width : s.value < 10 ^ 16 * (s.high - s.low)

theorem IsWide.contains_value (h : s.IsWide) : s.Contains s.value :=
  ⟨Or.inl (by exact_mod_cast h.low_lt), Or.inl (by exact_mod_cast h.lt_high)⟩

/-! ## A grid -/

/-- The point of the grid next below the value. -/
def below (s : Span) (unit : ℕ) : ℕ := s.value / unit * unit

theorem onGrid?_eq_none {unit : ℕ} (h : s.onGrid? unit = none) :
    ¬s.holds (s.below unit) ∧ ¬s.holds (s.below unit + unit) := by
  unfold onGrid? at h
  unfold below
  grind

theorem onGrid?_eq_some {unit n : ℕ} (h : s.onGrid? unit = some n) :
    n = s.below unit ∧ (s.holds (s.below unit + unit) → s.value - s.below unit < s.below unit + unit - s.value) ∨
      n = s.below unit + unit ∧ (s.holds (s.below unit) → s.below unit + unit - s.value ≤ s.value - s.below unit) := by
  unfold onGrid? at h
  unfold below
  grind

theorem below_le (s : Span) (unit : ℕ) : s.below unit ≤ s.value := Nat.div_mul_le_self ..

theorem lt_above (s : Span) {unit : ℕ} (h : 0 < unit) : s.value < s.below unit + unit :=
  Nat.lt_div_mul_add h

/-- A number next to the value but for the points of the grid is not in the span without one of them. -/
theorem not_contains_of_onGrid? {unit : ℕ} {r : ℚ} (hw : s.IsWide) (hu : 0 < unit) (hnone : s.onGrid? unit = none)
    (hr : r ≤ s.below unit ∨ ((s.below unit + unit : ℕ) : ℚ) ≤ r) : ¬s.Contains r := by
  obtain ⟨hbelow, habove⟩ := onGrid?_eq_none hnone
  intro hcontains
  rcases hr with hr | hr
  · exact hbelow (holds_iff.2 (hcontains.between hw.contains_value hr (by exact_mod_cast s.below_le unit)))
  · exact habove (holds_iff.2 (hw.contains_value.between hcontains (by exact_mod_cast (s.lt_above hu).le) hr))

/-- The number is nearer to the value than the other, or as near and not below it. -/
def Nearer (s : Span) (q r : ℚ) : Prop := |q - s.value| < |r - s.value| ∨ |q - s.value| = |r - s.value| ∧ r ≤ q

theorem nearest_of_onGrid? {unit n : ℕ} {r : ℚ} (hw : s.IsWide) (hu : 0 < unit) (hn : s.onGrid? unit = some n)
    (hr : r ≤ s.below unit ∨ ((s.below unit + unit : ℕ) : ℚ) ≤ r) (hcontains : s.Contains r) : s.Nearer n r := by
  have hbelow : (s.below unit : ℚ) ≤ s.value := by exact_mod_cast s.below_le unit
  have habove : (s.value : ℚ) < (s.below unit + unit : ℕ) := by exact_mod_cast s.lt_above hu
  unfold Nearer
  rcases onGrid?_eq_some hn with ⟨rfl, hnear⟩ | ⟨rfl, hnear⟩
  · rcases hr with hr | hr
    · rw [abs_sub_comm, abs_of_nonneg (by linarith), abs_sub_comm, abs_of_nonneg (by linarith)]
      rcases hr.lt_or_eq with hlt | rfl
      · exact Or.inl (by linarith)
      · exact Or.inr ⟨rfl, le_rfl⟩
    · left
      have hnear := hnear (holds_iff.2 (hw.contains_value.between hcontains habove.le hr))
      have : (s.value : ℚ) + s.value < (s.below unit + unit : ℕ) + s.below unit := by
        have := s.lt_above hu
        exact_mod_cast (by omega : s.value + s.value < s.below unit + unit + s.below unit)
      rw [abs_sub_comm, abs_of_nonneg (by linarith), abs_of_nonneg (by linarith)]
      linarith
  · rcases hr with hr | hr
    · have hnear := hnear (holds_iff.2 (hcontains.between hw.contains_value hr hbelow))
      have : ((s.below unit + unit : ℕ) : ℚ) + s.below unit ≤ s.value + s.value := by
        have := s.below_le unit
        exact_mod_cast (by omega : s.below unit + unit + s.below unit ≤ s.value + s.value)
      rw [abs_of_nonneg (by linarith), abs_sub_comm r, abs_of_nonneg (by linarith)]
      exact (show _ ≤ _ by linarith : (s.below unit + unit : ℕ) - (s.value : ℚ) ≤ s.value - r).lt_or_eq.imp_right
        fun h => ⟨h, by linarith⟩
    · rw [abs_of_nonneg (by linarith), abs_of_nonneg (by linarith)]
      rcases hr.lt_or_eq with hlt | rfl
      · exact Or.inl (by linarith)
      · exact Or.inr ⟨rfl, le_rfl⟩

/-! ## The grid of some number of digits -/

/-- How many digits the value has. -/
def places (s : Span) : ℕ := (Nat.toDigits 10 s.value).length

theorem value_lt (s : Span) : s.value < 10 ^ s.places :=
  (Nat.length_toDigits_le_iff (by norm_num) Nat.length_toDigits_pos).1 le_rfl

theorem pow_le_value {p : ℕ} (hp : p + 1 = s.places) (h : 0 < s.value) : 10 ^ p ≤ s.value := by
  by_contra hlt
  rcases Nat.eq_zero_or_pos p with rfl | hpos
  · omega
  · have := (Nat.length_toDigits_le_iff (by norm_num) hpos).2 (Nat.lt_of_not_le hlt)
    unfold places at hp
    omega

/-- No number of so many digits lies between the points of their grid. -/
theorem le_or_le_of_hasDigits {p : ℕ} {r : ℚ} (hp : p + 1 ≤ s.places) (hpos : 0 < s.value) (hr : HasDigits (p + 1) r) :
    r ≤ s.below (10 ^ (s.places - (p + 1))) ∨
      ((s.below (10 ^ (s.places - (p + 1))) + 10 ^ (s.places - (p + 1)) : ℕ) : ℚ) ≤ r := by
  obtain ⟨n, k, hn, rfl⟩ := hr
  obtain ⟨d, hd⟩ : ∃ d, s.places = p + 1 + d := ⟨s.places - (p + 1), by omega⟩
  rw [hd, Nat.add_sub_cancel_left]
  rcases Int.lt_or_le k d with hlt | hle
  · -- smaller than any number with as many digits as the value
    left
    have hle : 10 ^ p * 10 ^ d ≤ s.below (10 ^ d) := by
      have := pow_le_value (p := p + d) (by omega) hpos
      rw [pow_add] at this
      exact Nat.mul_le_mul_right _ ((Nat.le_div_iff_mul_le (by positivity)).2 this)
    calc (n : ℚ) * 10 ^ k ≤ 10 ^ (p + 1) * 10 ^ k :=
          mul_le_mul_of_nonneg_right (by exact_mod_cast hn.le) (zpow_pos (by norm_num) _).le
      _ = 10 ^ ((p + 1 : ℕ) + k) := by rw [zpow_add₀ (by norm_num), zpow_natCast]
      _ ≤ 10 ^ ((p + d : ℕ) : ℤ) := zpow_le_zpow_right₀ (by norm_num) (by omega)
      _ = ((10 ^ p * 10 ^ d : ℕ) : ℚ) := by rw [zpow_natCast, pow_add]; push_cast; ring
      _ ≤ s.below (10 ^ d) := by exact_mod_cast hle
  · -- a point of the grid itself
    obtain ⟨j, rfl⟩ : ∃ j : ℕ, k = d + j := ⟨(k - d).toNat, by omega⟩
    have hpoint : (n : ℚ) * 10 ^ ((d : ℤ) + j) = ((n * 10 ^ j * 10 ^ d : ℕ) : ℚ) := by
      rw [zpow_add₀ (by norm_num), zpow_natCast, zpow_natCast]
      push_cast
      ring
    rw [hpoint]
    rcases Nat.lt_or_ge (s.value / 10 ^ d) (n * 10 ^ j) with hlt | hge
    · right
      have := Nat.mul_le_mul_right (10 ^ d) hlt
      rw [Nat.succ_mul] at this
      exact_mod_cast this
    · left
      exact_mod_cast Nat.mul_le_mul_right (10 ^ d) hge

/-- What a grid gives is a number of so many digits. -/
theorem hasDigits_of_onGrid? {p n : ℕ} (hp : p + 1 ≤ s.places) (hn : s.onGrid? (10 ^ (s.places - (p + 1))) = some n) :
    HasDigits (p + 1) n := by
  obtain ⟨d, hd⟩ : ∃ d, s.places = p + 1 + d := ⟨s.places - (p + 1), by omega⟩
  rw [hd, Nat.add_sub_cancel_left] at hn
  obtain ⟨c, rfl⟩ := dvd_onGrid hn
  have hbelow : s.below (10 ^ d) < 10 ^ (p + 1) * 10 ^ d := by
    rw [← pow_add, ← hd]
    exact (s.below_le _).trans_lt s.value_lt
  have hc : 10 ^ d * c ≤ 10 ^ (p + 1) * 10 ^ d := by
    rcases onGrid?_eq_some hn with ⟨heq, -⟩ | ⟨heq, -⟩
    · exact heq.trans_le hbelow.le
    · rw [heq, below, ← Nat.succ_mul]
      exact Nat.mul_le_mul_right _ (Nat.lt_of_mul_lt_mul_right hbelow)
  rw [mul_comm] at hc
  have hdigits := hasDigits_of_le (Nat.le_of_mul_le_mul_right hc (by positivity)) (d : ℤ)
  rw [zpow_natCast] at hdigits
  rwa [Nat.cast_mul, mul_comm, Nat.cast_pow]

/-- Of the numbers in the span it is the one of the fewest digits, and of those the nearest. -/
structure IsBest (s : Span) (p : ℕ) (q : ℚ) : Prop where
  contains : s.Contains q
  hasDigits : HasDigits p q
  best : ∀ r n, s.Contains r → HasDigits n r → p ≤ n ∧ (n = p → s.Nearer q r)

/-- Zero is not in the span, so every number in it has a digit. -/
theorem digits_pos {p : ℕ} {r : ℚ} (hw : s.IsWide) (hr : s.Contains r) (h : HasDigits p r) : 0 < p := by
  rcases Nat.eq_zero_or_pos p with rfl | hpos
  · obtain ⟨n, k, hn, rfl⟩ := h
    obtain rfl : n = 0 := by omega
    rw [Nat.cast_zero, zero_mul] at hr
    have hlow : (0 : ℚ) < s.low := by exact_mod_cast hw.low_pos
    rcases hr.1 with h | ⟨h, -⟩ <;> linarith
  · exact hpos

theorem eq_some_of_findSome?_range {β : Type} {f : ℕ → Option β} {n : ℕ} {b : β}
    (h : (List.range n).findSome? f = some b) : ∃ j < n, f j = some b ∧ ∀ k < j, f k = none := by
  obtain ⟨l, j, l', hrange, hj, hnone⟩ := List.findSome?_eq_some_iff.1 h
  have hget : ∀ k < l.length + 1 + l'.length, (l ++ j :: l')[k]? = some k := by
    intro k hk
    rw [← hrange, List.getElem?_range]
    have := congrArg List.length hrange
    simp at this
    omega
  obtain rfl : j = l.length := by simpa using hget l.length (by omega)
  have hlength := congrArg List.length hrange
  simp at hlength
  refine ⟨l.length, by omega, hj, fun k hk => hnone k ?_⟩
  have := hget k (by omega)
  rw [List.getElem?_append_left hk] at this
  exact List.mem_of_getElem? this

/-- A span that is wide enough has a point on the grid of 17 digits, or of as many as its value has. -/
theorem exists_onGrid? (hw : s.IsWide) : ∃ p < 17, p < s.places ∧ s.onGrid? (10 ^ (s.places - (p + 1))) ≠ none := by
  have hplaces : 0 < s.places := Nat.length_toDigits_pos
  have hpos : 0 < s.value := Nat.zero_lt_of_lt hw.low_lt
  rcases Nat.lt_or_ge 17 s.places with hlt | hge
  · refine ⟨16, by omega, by omega, fun hnone => ?_⟩
    obtain ⟨hbelow, habove⟩ := onGrid?_eq_none hnone
    obtain ⟨d, hd⟩ : ∃ d, s.places = 16 + d + 1 := ⟨s.places - 17, by omega⟩
    rw [show s.places - (16 + 1) = d by omega] at hbelow habove
    -- both points lie outside, so the span is no wider than the grid
    have hlow : s.below (10 ^ d) ≤ s.low := by
      by_contra h
      refine hbelow (holds_iff.2 ⟨Or.inl (by exact_mod_cast Nat.lt_of_not_le h), Or.inl ?_⟩)
      exact_mod_cast (s.below_le _).trans_lt hw.lt_high
    have hhigh : s.high ≤ s.below (10 ^ d) + 10 ^ d := by
      by_contra h
      refine habove (holds_iff.2 ⟨Or.inl ?_, Or.inl (by exact_mod_cast Nat.lt_of_not_le h)⟩)
      exact_mod_cast hw.low_lt.trans (s.lt_above (by positivity))
    have hvalue := pow_le_value hd.symm hpos
    rw [pow_add] at hvalue
    have hwidth := hw.width
    omega
  · refine ⟨s.places - 1, by omega, by omega, fun hnone => ?_⟩
    rw [Nat.sub_add_cancel hplaces, Nat.sub_self, pow_zero] at hnone
    refine not_contains_of_onGrid? hw Nat.one_pos hnone (Or.inl ?_) hw.contains_value
    rw [below, Nat.div_one, Nat.mul_one]

/-- The number that the grids give is the best one. -/
theorem exists_isBest (hw : s.IsWide) : ∃ p n : ℕ, s.shortest = Decimal.trim ⟨n, s.scale⟩ ∧ 0 < n ∧ s.IsBest p n := by
  obtain ⟨p, hp, hplaces, hsome⟩ := exists_onGrid? hw
  have hpos : 0 < s.value := Nat.zero_lt_of_lt hw.low_lt
  have hgrids : (grids s.places 17).findSome? s.onGrid? =
      (List.range 17).findSome? fun j => s.onGrid? (10 ^ (s.places - (j + 1))) := List.findSome?_map
  cases hfound : (grids s.places 17).findSome? s.onGrid? with
  | none =>
    rw [hgrids] at hfound
    exact absurd (List.findSome?_eq_none_iff.1 hfound p (List.mem_range.2 hp)) hsome
  | some n =>
    have hshortest : s.shortest = Decimal.trim ⟨n, s.scale⟩ := by
      show Decimal.trim ⟨((grids s.places 17).findSome? s.onGrid?).getD s.value, s.scale⟩ = _
      rw [hfound]
      rfl
    rw [hgrids] at hfound
    obtain ⟨j, -, hj, hnone⟩ := eq_some_of_findSome?_range hfound
    have hjp : j ≤ p := Nat.le_of_not_lt fun h => hsome (hnone p h)
    have hcontains := holds_iff.1 (holds_onGrid hj)
    refine ⟨j + 1, n, hshortest, ?_, hcontains, hasDigits_of_onGrid? (by omega) hj, fun r d hr hdigits => ?_⟩
    · have hlow : s.low ≤ n := by
        rcases hcontains.1 with h | ⟨h, -⟩
        · exact_mod_cast h.le
        · exact_mod_cast h.le
      exact hw.low_pos.trans_le hlow
    obtain ⟨d, rfl⟩ := Nat.exists_eq_succ_of_ne_zero (digits_pos hw hr hdigits).ne'
    constructor
    · by_contra hlt
      have hgrid := le_or_le_of_hasDigits (by omega) hpos hdigits
      exact not_contains_of_onGrid? hw (by positivity) (hnone d (by omega)) hgrid hr
    · rintro hd
      obtain rfl := Nat.succ_injective hd
      exact nearest_of_onGrid? hw (by positivity) hj (le_or_le_of_hasDigits (by omega) hpos hdigits) hr

end Span

end Pascaline
