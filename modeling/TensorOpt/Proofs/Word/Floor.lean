import TensorOpt.Word
import Mathlib.Data.Rat.Floor
import Mathlib.Tactic.Linarith

namespace TensorOpt.Word

/-- The only divisions without an answer: by zero, and the one whose quotient is too large. -/
def Undivided (a b : Word) : Prop := b = 0 ∨ a = Int64.minValue ∧ b = -1

instance (a b : Word) : Decidable (Undivided a b) :=
  inferInstanceAs (Decidable (_ ∨ _ ∧ _))

section Truncated

variable {a b : Word}

theorem toInt_ne_zero (h : b ≠ 0) : b.toInt ≠ 0 := fun hb ↦
  h (Int64.toInt_inj.1 (hb.trans Int64.toInt_zero.symm))

theorem not_undivided (h : ¬ Undivided a b) :
    b.toInt ≠ 0 ∧ (a / b).toInt = a.toInt.tdiv b.toInt := by
  refine ⟨toInt_ne_zero fun hb ↦ h (.inl hb), ?_⟩
  by_cases ha : a = Int64.minValue
  · exact Int64.toInt_div_of_ne_right a b fun hb ↦ h (.inr ⟨ha, hb⟩)
  · exact Int64.toInt_div_of_ne_left a b ha

theorem div?_eq (a b : Word) : a.div? b = if Undivided a b then none else some (a / b) := by
  by_cases h : Undivided a b
  · rw [if_pos h]
    obtain rfl | ⟨rfl, rfl⟩ := h
    · rfl
    · decide
  · rw [if_neg h, div?, if_neg fun hb ↦ h (.inl hb), ofInt?_eq_some_iff]
    exact (not_undivided h).2

theorem rem?_eq (a b : Word) : a.rem? b = if Undivided a b then none else some (a % b) := by
  rw [rem?, div?_eq]
  split <;> rfl

theorem floorDiv?_eq (a b : Word) : floorDiv? a b = if Undivided a b then none else
    if Misaligned (a % b) b then (a / b).sub? 1 else some (a / b) := by
  rw [floorDiv?, div?_eq, rem?_eq]
  split <;> rfl

theorem floorMod?_eq (a b : Word) : floorMod? a b = if Undivided a b then none else
    if Misaligned (a % b) b then (a % b).add? b else some (a % b) := by
  rw [floorMod?, rem?_eq]
  split <;> rfl

theorem misaligned_iff : Misaligned (a % b) b ↔
    a.toInt.tmod b.toInt ≠ 0 ∧ (a.toInt.tmod b.toInt < 0 ↔ ¬ b.toInt < 0) := by
  have hr : (a % b).toInt = a.toInt.tmod b.toInt := Int64.toInt_mod a b
  have hz : a % b = 0 ↔ a.toInt.tmod b.toInt = 0 := by
    rw [← Int64.toInt_inj, hr, Int64.toInt_zero]
  unfold Misaligned
  rw [Ne, hz, Int64.lt_iff_toInt_lt, Int64.lt_iff_toInt_lt, hr, Int64.toInt_zero]

end Truncated

section Integers

variable {a b q r : Int}

/-- The remainder with the sign of the divisor determines the quotient. -/
theorem floor_unique (hb : b ≠ 0) (ha : r + b * q = a)
    (hpos : 0 < b → 0 ≤ r ∧ r < b) (hneg : b < 0 → b < r ∧ r ≤ 0) :
    a.fdiv b = q ∧ a.fmod b = r := by
  rcases lt_or_gt_of_ne hb with h | h
  · exact (Int.fdiv_fmod_unique' h).2 ⟨ha, hneg h⟩
  · exact (Int.fdiv_fmod_unique h).2 ⟨ha, hpos h⟩

theorem natAbs_tmod_lt (a : Int) (hb : b ≠ 0) : (a.tmod b).natAbs < b.natAbs := by
  rw [Int.natAbs_tmod]
  exact Nat.mod_lt _ (Int.natAbs_pos.2 hb)

theorem floor_of_misaligned (hb : b ≠ 0) (hr : a.tmod b ≠ 0) (hsign : a.tmod b < 0 ↔ ¬ b < 0) :
    a.fdiv b = a.tdiv b - 1 ∧ a.fmod b = a.tmod b + b := by
  have hlt := natAbs_tmod_lt a hb
  have ha : a.tmod b + b + b * (a.tdiv b - 1) = a := by
    linarith [Int.tmod_add_mul_tdiv a b]
  exact floor_unique hb ha (by omega) (by omega)

theorem floor_of_aligned (hb : b ≠ 0) (h : ¬ (a.tmod b ≠ 0 ∧ (a.tmod b < 0 ↔ ¬ b < 0))) :
    a.fdiv b = a.tdiv b ∧ a.fmod b = a.tmod b := by
  have hlt := natAbs_tmod_lt a hb
  exact floor_unique hb (Int.tmod_add_mul_tdiv a b) (by omega) (by omega)

/-- A quotient that is not exact is far from the ends of the range. -/
theorem tdiv_bound (ha : -2 ^ 63 ≤ a ∧ a < 2 ^ 63) (hb : b ≠ 0) (hr : a.tmod b ≠ 0) :
    (a.tdiv b).natAbs ≤ 2 ^ 62 := by
  have hlt := natAbs_tmod_lt a hb
  -- dividing by `1` or `-1` leaves no remainder, so that the quotient is at most half of `a`
  have htwo : 2 ≤ b.natAbs := by omega
  have hle : a.natAbs / b.natAbs ≤ a.natAbs / 2 := Nat.div_le_div_left htwo (by decide)
  have habs : (a.tdiv b).natAbs = a.natAbs / b.natAbs := Int.natAbs_tdiv a b
  omega

theorem fmod_sign_abs_lt (a : Int) (hb : b ≠ 0) :
    (a.fmod b = 0 ∨ (a.fmod b).sign = b.sign) ∧ |a.fmod b| < |b| := by
  rcases lt_or_gt_of_ne hb with h | h
  · obtain ⟨-, hlt, hle⟩ := (Int.fdiv_fmod_unique' h).1 ⟨rfl, rfl⟩
    rw [abs_of_nonpos hle, abs_of_neg h, Int.sign_eq_neg_one_of_neg h, Int.sign_eq_neg_one_iff_neg]
    omega
  · obtain ⟨-, hle, hlt⟩ := (Int.fdiv_fmod_unique h).1 ⟨rfl, rfl⟩
    rw [abs_of_nonneg hle, abs_of_pos h, Int.sign_eq_one_of_pos h, Int.sign_eq_one_iff_pos]
    omega

theorem fdiv_eq_floor (a b : Int) : a.fdiv b = ⌊(a / b : ℚ)⌋ := by
  obtain ⟨n, rfl | rfl⟩ := b.eq_nat_or_neg
  · rw [Int.fdiv_eq_ediv_of_nonneg a n.cast_nonneg, Int.cast_natCast,
      Rat.floor_intCast_div_natCast]
  · rw [← Int.neg_fdiv_neg, neg_neg, Int.fdiv_eq_ediv_of_nonneg _ n.cast_nonneg,
      ← Rat.floor_intCast_div_natCast, Int.cast_neg, Int.cast_neg, Int.cast_natCast,
      neg_div, div_neg]

end Integers

section Rounded

variable {a b q r : Word}

theorem ofInt?_of_range {n : Int} (h : -2 ^ 63 ≤ n) (h' : n < 2 ^ 63) :
    ∃ w, ofInt? n = some w ∧ w.toInt = n :=
  ⟨Int64.ofInt n, ofInt?_eq_some_iff.2 (Int64.toInt_ofInt_of_le h h'),
    Int64.toInt_ofInt_of_le h h'⟩

theorem sub?_one_of_misaligned (h : ¬ Undivided a b) (hm : Misaligned (a % b) b) :
    ∃ q, (a / b).sub? 1 = some q ∧ q.toInt = a.toInt.fdiv b.toInt := by
  obtain ⟨hb, hq⟩ := not_undivided h
  obtain ⟨hne, hsign⟩ := misaligned_iff.1 hm
  have hsmall := tdiv_bound ⟨a.le_toInt, a.toInt_lt⟩ hb hne
  rw [sub?, hq, show (1 : Word).toInt = 1 from rfl, (floor_of_misaligned hb hne hsign).1]
  exact ofInt?_of_range (by omega) (by omega)

/-- The remainder and the divisor have opposite signs, so that their sum lies between them. -/
theorem add?_of_misaligned (h : ¬ Undivided a b) (hm : Misaligned (a % b) b) :
    ∃ r, (a % b).add? b = some r ∧ r.toInt = a.toInt.fmod b.toInt := by
  obtain ⟨hb, -⟩ := not_undivided h
  obtain ⟨hne, hsign⟩ := misaligned_iff.1 hm
  have hlt := natAbs_tmod_lt a.toInt hb
  have hrange := And.intro b.le_toInt b.toInt_lt
  rw [add?, Int64.toInt_mod, (floor_of_misaligned hb hne hsign).2]
  exact ofInt?_of_range (by omega) (by omega)

structure Outcome (a b : Word) (n : Int) (answer : Option Word) : Prop where
  missing : Undivided a b → answer = none
  exact : ¬ Undivided a b → ∃ w, answer = some w ∧ w.toInt = n

namespace Outcome

variable {n : Int} {answer : Option Word} {w : Word}

theorem eq_none_iff (h : Outcome a b n answer) : answer = none ↔ Undivided a b := by
  refine ⟨fun hnone ↦ ?_, h.missing⟩
  by_contra hd
  obtain ⟨w, hw, -⟩ := h.exact hd
  cases hnone.symm.trans hw

theorem toInt_eq (h : Outcome a b n answer) (hw : answer = some w) :
    b.toInt ≠ 0 ∧ w.toInt = n := by
  have hd : ¬ Undivided a b := fun hd ↦ by cases hw.symm.trans (h.missing hd)
  obtain ⟨w', hw', hn⟩ := h.exact hd
  cases hw.symm.trans hw'
  exact ⟨(not_undivided hd).1, hn⟩

end Outcome

theorem floorDiv?_outcome (a b : Word) :
    Outcome a b (a.toInt.fdiv b.toInt) (floorDiv? a b) := by
  refine ⟨fun h ↦ by rw [floorDiv?_eq, if_pos h], fun h ↦ ?_⟩
  rw [floorDiv?_eq, if_neg h]
  by_cases hm : Misaligned (a % b) b
  · rw [if_pos hm]
    exact sub?_one_of_misaligned h hm
  · obtain ⟨hb, hq⟩ := not_undivided h
    rw [if_neg hm, (floor_of_aligned hb (mt misaligned_iff.2 hm)).1]
    exact ⟨a / b, rfl, hq⟩

theorem floorMod?_outcome (a b : Word) :
    Outcome a b (a.toInt.fmod b.toInt) (floorMod? a b) := by
  refine ⟨fun h ↦ by rw [floorMod?_eq, if_pos h], fun h ↦ ?_⟩
  rw [floorMod?_eq, if_neg h]
  by_cases hm : Misaligned (a % b) b
  · rw [if_pos hm]
    exact add?_of_misaligned h hm
  · obtain ⟨hb, -⟩ := not_undivided h
    rw [if_neg hm, (floor_of_aligned hb (mt misaligned_iff.2 hm)).2]
    exact ⟨a % b, rfl, Int64.toInt_mod a b⟩

theorem toInt_floorDiv? (h : floorDiv? a b = some q) :
    b.toInt ≠ 0 ∧ q.toInt = a.toInt.fdiv b.toInt :=
  (floorDiv?_outcome a b).toInt_eq h

theorem toInt_floorMod? (h : floorMod? a b = some r) :
    b.toInt ≠ 0 ∧ r.toInt = a.toInt.fmod b.toInt :=
  (floorMod?_outcome a b).toInt_eq h

/-- Where truncated division answers, the step that rounds its results down answers too. -/
theorem corrections_in_range (hq : a.div? b = some q) (hr : a.rem? b = some r)
    (hm : Misaligned r b) : (q.sub? 1).isSome ∧ (r.add? b).isSome := by
  have h : ¬ Undivided a b := fun h ↦ by simp [div?_eq, h] at hq
  rw [div?_eq, if_neg h] at hq
  rw [rem?_eq, if_neg h] at hr
  cases hq
  cases hr
  obtain ⟨q, hq, -⟩ := sub?_one_of_misaligned h hm
  obtain ⟨r, hr, -⟩ := add?_of_misaligned h hm
  rw [hq, hr]
  exact ⟨rfl, rfl⟩

/-- Floor division of words is exact. It has no answer precisely by zero and for the least word by
`-1`; elsewhere it gives the floor of the rational quotient and the remainder that belongs to it,
and no step on the way leaves the range. -/
theorem floor_operations_exact (a b : Word) :
    (floorDiv? a b = none ↔ b = 0 ∨ a = Int64.minValue ∧ b = -1) ∧
    (floorMod? a b = none ↔ b = 0 ∨ a = Int64.minValue ∧ b = -1) ∧
    (¬ (b = 0 ∨ a = Int64.minValue ∧ b = -1) →
      ∃ q r : Word, floorDiv? a b = some q ∧ floorMod? a b = some r ∧
        q.toInt = ⌊(a.toInt / b.toInt : ℚ)⌋ ∧
        r.toInt = a.toInt - b.toInt * ⌊(a.toInt / b.toInt : ℚ)⌋ ∧
        (r.toInt = 0 ∨ r.toInt.sign = b.toInt.sign) ∧ |r.toInt| < |b.toInt|) ∧
    ∀ q r : Word, a.div? b = some q → a.rem? b = some r → Misaligned r b →
      (q.sub? 1).isSome ∧ (r.add? b).isSome := by
  have hdiv := floorDiv?_outcome a b
  have hmod := floorMod?_outcome a b
  refine ⟨hdiv.eq_none_iff, hmod.eq_none_iff, fun h ↦ ?_, fun q r ↦ corrections_in_range⟩
  obtain ⟨q, hq, hfloor⟩ := hdiv.exact h
  obtain ⟨r, hr, hrest⟩ := hmod.exact h
  refine ⟨q, r, hq, hr, ?_⟩
  rw [hfloor, hrest, ← fdiv_eq_floor]
  exact ⟨rfl, Int.fmod_def _ _, fmod_sign_abs_lt _ (not_undivided h).1⟩

/-- The least word by the greatest: both truncated results are `-1`, and both are corrected. -/
theorem floor_operations_exact_extremes :
    ¬ Undivided Int64.minValue Int64.maxValue ∧
    (∃ q r : Word, floorDiv? Int64.minValue Int64.maxValue = some q ∧
      floorMod? Int64.minValue Int64.maxValue = some r ∧
      q.toInt = ⌊((-2 ^ 63 : Int) / (2 ^ 63 - 1 : Int) : ℚ)⌋ ∧
      r.toInt = -2 ^ 63 - (2 ^ 63 - 1) * ⌊((-2 ^ 63 : Int) / (2 ^ 63 - 1 : Int) : ℚ)⌋ ∧
      (r.toInt = 0 ∨ r.toInt.sign = 1) ∧ |r.toInt| < 2 ^ 63 - 1) ∧
    Misaligned (-1) Int64.maxValue ∧
      (sub? (-1) 1).isSome ∧ (add? (-1) Int64.maxValue).isSome := by
  have hd : ¬ Undivided Int64.minValue Int64.maxValue := by decide
  have hm : Misaligned (-1) Int64.maxValue := by decide
  obtain ⟨-, -, hexact, hrange⟩ := floor_operations_exact Int64.minValue Int64.maxValue
  exact ⟨hd, hexact hd, hm, hrange (-1) (-1) rfl rfl hm⟩

end Rounded

end TensorOpt.Word
