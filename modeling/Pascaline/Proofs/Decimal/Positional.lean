/-
  Pascaline.Proofs.Decimal.Positional — numbers as they are written.

  A number `whole.fraction` has the value that the places of its digits give it (`written`).
  Written without zeros that say nothing, it has one text only (`IsPositional.unique`), and
  for digits that do not end in a zero that text is what `plain` gives
  (`Decimal.isPositional_plain`).
-/

import Mathlib.Tactic.FieldSimp
import Mathlib.Tactic.Linarith
import Mathlib.Tactic.Ring
import Pascaline.Decimal.Plain

namespace Pascaline.Decimal

/-- The number written `whole.fraction`, by the places of its digits. -/
def written (whole fraction : List Char) : ℚ :=
  Nat.ofDigitChars 10 whole 0 + Nat.ofDigitChars 10 fraction 0 / 10 ^ fraction.length

theorem natural_eq (ds : List Char) : natural ds = Nat.ofDigitChars 10 ds 0 := Nat.ofDigitChars_eq_foldl.symm

theorem ofDigits_eq_written (whole fraction : List Char) :
    ((ofDigits whole fraction).digits : ℚ) * 10 ^ (ofDigits whole fraction).exponent = written whole fraction := by
  show ((natural (whole ++ fraction) : ℕ) : ℚ) * 10 ^ (-(fraction.length : ℤ)) = _
  rw [natural_eq, Nat.ofDigitChars_append, Nat.ofDigitChars_eq_ofDigitChars_zero, written, zpow_neg, zpow_natCast]
  push_cast
  field_simp

/-! ## Positional notation -/

/-- Digits before the point: a zero leads only if there is no other digit. -/
structure IsWhole (ds : List Char) : Prop where
  ne_nil : ds ≠ []
  isDigit : ∀ d ∈ ds, d.isDigit
  lead : ds = ['0'] ∨ ds.head? ≠ some '0'

/-- Digits behind the point: no zero is the last one. -/
structure IsFraction (es : List Char) : Prop where
  isDigit : ∀ e ∈ es, e.isDigit
  last : es.getLast? ≠ some '0'

/-- A number in positional notation, with a point only if digits follow it. -/
inductive IsPositional : ℚ → List Char → Prop
  | whole {ds : List Char} (hds : IsWhole ds) : IsPositional (written ds []) ds
  | fraction {ds es : List Char} (hds : IsWhole ds) (hes : IsFraction es) (hne : es ≠ []) :
      IsPositional (written ds es) (ds ++ '.' :: es)

theorem value_cons (c : Char) (cs : List Char) :
    Nat.ofDigitChars 10 (c :: cs) 0 = 10 ^ cs.length * (c.toNat - '0'.toNat) + Nat.ofDigitChars 10 cs 0 := by
  rw [Nat.ofDigitChars_cons, Nat.ofDigitChars_eq_ofDigitChars_zero, Nat.mul_zero, Nat.zero_add]

theorem digit_lt {c : Char} (h : c.isDigit) : c.toNat - '0'.toNat < 10 := by
  have hc : '0'.toNat ≤ c.toNat ∧ c.toNat ≤ '0'.toNat + 9 := Char.isDigit_iff_toNat.1 h
  omega

theorem eq_of_digit_eq {c d : Char} (hc : c.isDigit) (hd : d.isDigit) (h : c.toNat - '0'.toNat = d.toNat - '0'.toNat) :
    c = d := by
  have hc := (Char.isDigit_iff_toNat.1 hc).1
  have hd := (Char.isDigit_iff_toNat.1 hd).1
  exact Char.toNat_inj.1 (by omega)

theorem value_lt {ds : List Char} (h : ∀ d ∈ ds, d.isDigit) : Nat.ofDigitChars 10 ds 0 < 10 ^ ds.length := by
  induction ds with
  | nil => exact Nat.one_pos
  | cons d ds ih =>
    obtain ⟨hd, hds⟩ := List.forall_mem_cons.1 h
    have hlt := digit_lt hd
    rw [value_cons, List.length_cons, pow_succ]
    nlinarith [ih hds]

/-- As many digits with the same value are the same digits. -/
theorem eq_of_value_eq {ds es : List Char} (hds : ∀ d ∈ ds, d.isDigit) (hes : ∀ e ∈ es, e.isDigit)
    (hlength : ds.length = es.length) (h : Nat.ofDigitChars 10 ds 0 = Nat.ofDigitChars 10 es 0) : ds = es := by
  induction ds generalizing es with
  | nil => exact (List.length_eq_zero_iff.1 hlength.symm).symm
  | cons d ds ih =>
    cases es with
    | nil => cases hlength
    | cons e es =>
      obtain ⟨hd, hds⟩ := List.forall_mem_cons.1 hds
      obtain ⟨he, hes⟩ := List.forall_mem_cons.1 hes
      have hlength : ds.length = es.length := Nat.succ_injective hlength
      have hlt := value_lt hds
      have hlt' := value_lt hes
      rw [value_cons, value_cons, hlength] at h
      rw [hlength] at hlt
      have hdigit : d.toNat - '0'.toNat = e.toNat - '0'.toNat := by
        have := congrArg (· / 10 ^ es.length) h
        simpa only [Nat.mul_add_div (Nat.pow_pos (n := es.length) (by norm_num : 0 < 10)), Nat.div_eq_of_lt hlt,
          Nat.div_eq_of_lt hlt', Nat.add_zero] using this
      rw [hdigit, Nat.add_left_cancel_iff] at h
      rw [eq_of_digit_eq hd he hdigit, ih hds hes hlength h]

/-- The zeros that the shorter one of two numbers lacks in front. -/
theorem IsWhole.eq {ds es : List Char} (hds : IsWhole ds) (hes : IsWhole es)
    (h : Nat.ofDigitChars 10 ds 0 = Nat.ofDigitChars 10 es 0) : ds = es := by
  wlog hle : ds.length ≤ es.length generalizing ds es
  · exact (this hes hds h.symm (Nat.le_of_not_le hle)).symm
  obtain ⟨k, hk⟩ := Nat.exists_eq_add_of_le hle
  have hpadded : List.replicate k '0' ++ ds = es := by
    refine eq_of_value_eq ?_ hes.isDigit (by simp [hk, Nat.add_comm]) ?_
    · simp only [List.mem_append, List.mem_replicate]
      rintro d (⟨-, rfl⟩ | hd)
      · rfl
      · exact hds.isDigit d hd
    · rw [Nat.ofDigitChars_append, Nat.ofDigitChars_replicate_zero, Nat.mul_zero, h]
  cases k with
  | zero => exact hpadded
  | succ k =>
    rw [List.replicate_succ, List.cons_append] at hpadded
    rcases hes.lead with hzero | hhead
    · rw [hzero, List.cons.injEq, List.append_eq_nil_iff] at hpadded
      exact absurd hpadded.2.2 hds.ne_nil
    · rw [← hpadded] at hhead
      exact absurd rfl hhead

/-- The zeros that the shorter one of two fractions lacks behind. -/
theorem IsFraction.eq {ds es : List Char} (hds : IsFraction ds) (hes : IsFraction es)
    (h : Nat.ofDigitChars 10 ds 0 * 10 ^ es.length = Nat.ofDigitChars 10 es 0 * 10 ^ ds.length) : ds = es := by
  wlog hle : ds.length ≤ es.length generalizing ds es
  · exact (this hes hds h.symm (Nat.le_of_not_le hle)).symm
  obtain ⟨k, hk⟩ := Nat.exists_eq_add_of_le hle
  have hpadded : ds ++ List.replicate k '0' = es := by
    refine eq_of_value_eq ?_ hes.isDigit (by simp [hk]) ?_
    · simp only [List.mem_append, List.mem_replicate]
      rintro d (hd | ⟨-, rfl⟩)
      · exact hds.isDigit d hd
      · rfl
    · rw [Nat.ofDigitChars_append, Nat.ofDigitChars_replicate_zero]
      rw [hk, pow_add, ← mul_assoc, mul_right_comm] at h
      rw [mul_comm]
      exact Nat.eq_of_mul_eq_mul_right (by positivity) h
  cases k with
  | zero => rw [← hpadded, List.replicate_zero, List.append_nil]
  | succ k =>
    rw [List.replicate_succ', ← List.append_assoc] at hpadded
    exact absurd (by rw [← hpadded, List.getLast?_concat]) hes.last

/-- The value gives the digits on both sides of the point. -/
theorem written_inj {ds es ds' es' : List Char} (hds : IsWhole ds) (hes : IsFraction es) (hds' : IsWhole ds')
    (hes' : IsFraction es') (h : written ds es = written ds' es') : ds = ds' ∧ es = es' := by
  obtain ⟨p, hp⟩ : ∃ p, 10 ^ es.length = p := ⟨_, rfl⟩
  obtain ⟨q, hq⟩ : ∃ q, 10 ^ es'.length = q := ⟨_, rfl⟩
  have hppos : 0 < p := hp ▸ Nat.pow_pos (by norm_num)
  have hqpos : 0 < q := hq ▸ Nat.pow_pos (by norm_num)
  have hlt := value_lt hes.isDigit
  have hlt' := value_lt hes'.isDigit
  rw [hp] at hlt
  rw [hq] at hlt'
  have hcross : p * q * Nat.ofDigitChars 10 ds 0 + Nat.ofDigitChars 10 es 0 * q =
      p * q * Nat.ofDigitChars 10 ds' 0 + Nat.ofDigitChars 10 es' 0 * p := by
    have hpne : (p : ℚ) ≠ 0 := by exact_mod_cast hppos.ne'
    have hqne : (q : ℚ) ≠ 0 := by exact_mod_cast hqpos.ne'
    have hpcast : (10 : ℚ) ^ es.length = p := by exact_mod_cast hp
    have hqcast : (10 : ℚ) ^ es'.length = q := by exact_mod_cast hq
    unfold written at h
    rw [hpcast, hqcast] at h
    field_simp at h
    exact_mod_cast (by linarith :
      (p : ℚ) * q * Nat.ofDigitChars 10 ds 0 + Nat.ofDigitChars 10 es 0 * q =
        p * q * Nat.ofDigitChars 10 ds' 0 + Nat.ofDigitChars 10 es' 0 * p)
  have hwhole : Nat.ofDigitChars 10 ds 0 = Nat.ofDigitChars 10 ds' 0 := by
    have hdiv := congrArg (· / (p * q)) hcross
    have hfraction : Nat.ofDigitChars 10 es 0 * q < p * q := Nat.mul_lt_mul_of_pos_right hlt hqpos
    have hfraction' : Nat.ofDigitChars 10 es' 0 * p < p * q := by
      rw [mul_comm p q]
      exact Nat.mul_lt_mul_of_pos_right hlt' hppos
    simpa only [Nat.mul_add_div (Nat.mul_pos hppos hqpos), Nat.div_eq_of_lt hfraction, Nat.div_eq_of_lt hfraction',
      Nat.add_zero] using hdiv
  rw [hwhole, Nat.add_left_cancel_iff, ← hp, ← hq] at hcross
  exact ⟨hds.eq hds' hwhole, hes.eq hes' hcross⟩

theorem IsPositional.exists_parts {q : ℚ} {text : List Char} (h : IsPositional q text) :
    ∃ ds es, IsWhole ds ∧ IsFraction es ∧ q = written ds es ∧
      text = if es = [] then ds else ds ++ '.' :: es := by
  cases h with
  | whole hds => exact ⟨_, [], hds, ⟨nofun, nofun⟩, rfl, rfl⟩
  | fraction hds hes hne => exact ⟨_, _, hds, hes, rfl, (if_neg hne).symm⟩

/-- No number has two texts. -/
theorem IsPositional.unique {q : ℚ} {s t : List Char} (hs : IsPositional q s) (ht : IsPositional q t) : s = t := by
  obtain ⟨ds, es, hds, hes, rfl, rfl⟩ := hs.exists_parts
  obtain ⟨ds', es', hds', hes', hq, rfl⟩ := ht.exists_parts
  obtain ⟨rfl, rfl⟩ := written_inj hds hes hds' hes' hq
  rfl

/-! ## The text of a decimal -/

theorem digitChar_ne_zero {n : ℕ} (h : 0 < n) (hn : n < 10) : n.digitChar ≠ '0' := by
  intro hzero
  have hn := Nat.toNat_digitChar_sub_48_of_lt_ten hn
  rw [hzero] at hn
  exact h.ne hn

theorem head?_toDigits {n : ℕ} (h : 0 < n) : (Nat.toDigits 10 n).head? ≠ some '0' := by
  induction n using Nat.strongRecOn with
  | ind n ih =>
    rcases Nat.lt_or_ge n 10 with hlt | hge
    · rw [Nat.toDigits_of_lt_base hlt]
      simpa using digitChar_ne_zero h hlt
    · rw [Nat.toDigits_of_base_le (by norm_num) hge, List.head?_append_of_ne_nil _ Nat.toDigits_ne_nil]
      exact ih (n / 10) (by omega) (by omega)

theorem getLast?_toDigits {n : ℕ} (h : n % 10 ≠ 0) : (Nat.toDigits 10 n).getLast? ≠ some '0' := by
  rcases Nat.lt_or_ge n 10 with hlt | hge
  · rw [Nat.toDigits_of_lt_base hlt]
    simpa using digitChar_ne_zero (by omega) hlt
  · rw [Nat.toDigits_of_base_le (by norm_num) hge, List.getLast?_concat]
    simpa using digitChar_ne_zero (Nat.pos_of_ne_zero h) (Nat.mod_lt _ (by norm_num))

/-- Trimming leaves the number as it is. -/
theorem trim_value (d : Decimal) : (d.trim.digits : ℚ) * 10 ^ d.trim.exponent = d.digits * 10 ^ d.exponent := by
  fun_induction trim d with
  | case1 d hd ih =>
    rw [ih, zpow_add_one₀ (by norm_num)]
    have : (d.digits : ℚ) = 10 * (d.digits / 10 : ℕ) := by exact_mod_cast (by omega : d.digits = 10 * (d.digits / 10))
    rw [this]
    ring
  | case2 d hd => rfl

/-- Digits with no zero at either end. -/
structure IsTrimmed (ds : List Char) : Prop where
  ne_nil : ds ≠ []
  isDigit : ∀ d ∈ ds, d.isDigit
  head : ds.head? ≠ some '0'
  last : ds.getLast? ≠ some '0'

theorem isTrimmed_toDigits {n : ℕ} (h : n % 10 ≠ 0) : IsTrimmed (Nat.toDigits 10 n) where
  ne_nil := Nat.toDigits_ne_nil
  isDigit _ hd := Nat.isDigit_of_mem_toDigits (by norm_num) le_rfl hd
  head := head?_toDigits (Nat.pos_of_ne_zero (by rintro rfl; exact h rfl))
  last := getLast?_toDigits h

namespace IsTrimmed

variable {ds : List Char} {k : ℕ}

/-- A power of ten that is not negative is written with zeros behind the digits. -/
theorem isPositional_zeros (h : IsTrimmed ds) (k : ℕ) :
    IsPositional (natural ds * 10 ^ k) (ds ++ List.replicate k '0') := by
  have hwritten : written (ds ++ List.replicate k '0') [] = natural ds * 10 ^ k := by
    rw [← ofDigits_eq_written]
    show ((natural (ds ++ List.replicate k '0' ++ []) : ℕ) : ℚ) * 10 ^ (-(0 : ℤ)) = _
    rw [List.append_nil, natural_eq, Nat.ofDigitChars_append, Nat.ofDigitChars_replicate_zero, ← natural_eq]
    push_cast
    ring
  rw [← hwritten]
  refine .whole ⟨by simp [h.ne_nil], ?_, Or.inr ?_⟩
  · simp only [List.mem_append, List.mem_replicate]
    rintro d (hd | ⟨-, rfl⟩)
    · exact h.isDigit d hd
    · rfl
  · rw [List.head?_append_of_ne_nil _ h.ne_nil]
    exact h.head

/-- A few places are split off the digits. -/
theorem isPositional_split (h : IsTrimmed ds) (hk : k ≠ 0) (hlt : k < ds.length) :
    IsPositional (natural ds * 10 ^ (-(k : ℤ))) (ds.take (ds.length - k) ++ '.' :: ds.drop (ds.length - k)) := by
  have hwritten : written (ds.take (ds.length - k)) (ds.drop (ds.length - k)) = natural ds * 10 ^ (-(k : ℤ)) := by
    rw [← ofDigits_eq_written]
    show ((natural (ds.take (ds.length - k) ++ ds.drop (ds.length - k)) : ℕ) : ℚ) *
      10 ^ (-((ds.drop (ds.length - k)).length : ℤ)) = _
    rw [List.take_append_drop, List.length_drop, Nat.sub_sub_self hlt.le]
  rw [← hwritten]
  refine .fraction ⟨?_, fun d hd => h.isDigit d (List.mem_of_mem_take hd), Or.inr ?_⟩
    ⟨fun d hd => h.isDigit d (List.mem_of_mem_drop hd), ?_⟩ ?_
  · rw [← List.length_pos_iff, List.length_take]
    omega
  · rw [List.head?_take, if_neg (by omega)]
    exact h.head
  · rw [List.getLast?_drop, if_neg (by omega)]
    exact h.last
  · rw [← List.length_pos_iff, List.length_drop]
    omega

/-- As many places as there are digits, or more, are filled with zeros in front. -/
theorem isPositional_small (h : IsTrimmed ds) (hle : ds.length ≤ k) :
    IsPositional (natural ds * 10 ^ (-(k : ℤ))) ('0' :: '.' :: List.replicate (k - ds.length) '0' ++ ds) := by
  have hwritten : written ['0'] (List.replicate (k - ds.length) '0' ++ ds) = natural ds * 10 ^ (-(k : ℤ)) := by
    rw [← ofDigits_eq_written]
    show ((natural ('0' :: List.replicate (k - ds.length) '0' ++ ds) : ℕ) : ℚ) *
      10 ^ (-((List.replicate (k - ds.length) '0' ++ ds).length : ℤ)) = _
    rw [← List.replicate_succ, natural_eq, Nat.ofDigitChars_append, Nat.ofDigitChars_replicate_zero, Nat.mul_zero,
      ← natural_eq, List.length_append, List.length_replicate, Nat.sub_add_cancel hle]
  rw [← hwritten]
  refine .fraction ⟨by simp, by simp, Or.inl rfl⟩ ⟨?_, ?_⟩ (by simp [h.ne_nil])
  · simp only [List.mem_append, List.mem_replicate]
    rintro d (⟨-, rfl⟩ | hd)
    · rfl
    · exact h.isDigit d hd
  · rw [List.getLast?_append_of_ne_nil _ h.ne_nil]
    exact h.last

end IsTrimmed

/-- What `plain` gives is positional notation, of the number that the digits stand for. -/
theorem isPositional_plain {d : Decimal} (h : d.digits % 10 ≠ 0) :
    IsPositional (d.digits * 10 ^ d.exponent) d.plain.toList := by
  obtain ⟨n, e⟩ := d
  have htrimmed := isTrimmed_toDigits h
  have hvalue : natural (Nat.toDigits 10 n) = n := by rw [natural_eq, Nat.ofDigitChars_ten_toDigits]
  show IsPositional (n * 10 ^ e) (plain ⟨n, e⟩).toList
  unfold plain
  rw [String.toList_ofList]
  dsimp only
  by_cases hwhole : (-e).toNat = 0
  · obtain ⟨k, rfl⟩ : ∃ k : ℕ, e = k := ⟨e.toNat, by omega⟩
    have hzeros := htrimmed.isPositional_zeros k
    rw [hvalue] at hzeros
    rw [if_pos hwhole, Int.toNat_natCast, zpow_natCast]
    exact hzeros
  obtain ⟨k, rfl⟩ : ∃ k : ℕ, e = -(k : ℤ) := ⟨(-e).toNat, by omega⟩
  rw [neg_neg, Int.toNat_natCast] at hwhole ⊢
  rw [if_neg hwhole]
  by_cases hlt : k < (Nat.toDigits 10 n).length
  · have hsplit := htrimmed.isPositional_split hwhole hlt
    rw [hvalue] at hsplit
    rw [if_pos hlt]
    exact hsplit
  · have hsmall := htrimmed.isPositional_small (Nat.le_of_not_lt hlt)
    rw [hvalue] at hsmall
    rw [if_neg hlt]
    exact hsmall

end Pascaline.Decimal
