import Mathlib.Algebra.BigOperators.Ring.Finset
import Mathlib.Algebra.Order.BigOperators.Group.Finset
import Mathlib.Algebra.Order.Floor.Div
import Mathlib.Analysis.SpecialFunctions.Log.Base
import Mathlib.Data.Nat.Log

/-! How well code lengths can fit weights. A word gets as many bits as its share calls for,
where one part in sixty-four is shared out evenly: so no word is long, however rare. -/
namespace ShannonCode

variable {σ : Type} (alphabet : Finset σ) (weight : σ → ℕ)

def total : ℕ := ∑ s ∈ alphabet, weight s

def share (s : σ) : ℕ := 63 * alphabet.card * weight s + total alphabet weight

def whole : ℕ := 64 * alphabet.card * total alphabet weight

def length (s : σ) : ℕ := Nat.clog 2 (whole alphabet weight ⌈/⌉ share alphabet weight s)

theorem sharesFill : ∑ s ∈ alphabet, share alphabet weight s = whole alphabet weight := by
  simp only [share, Finset.sum_add_distrib, ← Finset.mul_sum, Finset.sum_const, smul_eq_mul, whole]
  rw [← total]
  ring

section
variable {alphabet weight} (weighty : 0 < total alphabet weight)
include weighty

theorem sharePositive (s : σ) : 0 < share alphabet weight s := Nat.lt_of_lt_of_le weighty (Nat.le_add_left _ _)

theorem lengthWithin {s : σ} {l : ℕ} :
    length alphabet weight s ≤ l ↔ whole alphabet weight ≤ share alphabet weight s * 2 ^ l := by
  rw [length, Nat.clog_le_iff_le_pow (by decide), ceilDiv_le_iff_le_mul (sharePositive weighty s)]

theorem lengthLimited {limit : ℕ} (room : 64 * alphabet.card ≤ 2 ^ limit) (s : σ) :
    length alphabet weight s ≤ limit := by
  rw [lengthWithin weighty]
  calc whole alphabet weight = 64 * alphabet.card * total alphabet weight := rfl
    _ ≤ 2 ^ limit * total alphabet weight := Nat.mul_le_mul_right _ room
    _ = total alphabet weight * 2 ^ limit := Nat.mul_comm _ _
    _ ≤ share alphabet weight s * 2 ^ limit := Nat.mul_le_mul_right _ (Nat.le_add_left _ _)

theorem lengthPositive (two : 2 ≤ alphabet.card) {s : σ} (member : s ∈ alphabet) : 1 ≤ length alphabet weight s := by
  by_contra zero
  have within := (lengthWithin weighty).mp (Nat.le_of_lt_succ (Nat.not_le.mp zero))
  have part : weight s ≤ total alphabet weight := Finset.single_le_sum (fun t _ => Nat.zero_le (weight t)) member
  have scaled := Nat.mul_le_mul_left (63 * alphabet.card) part
  have more := Nat.mul_le_mul_right (total alphabet weight) two
  rw [share, whole, Nat.pow_zero, Nat.mul_one] at within
  nlinarith

theorem lengthsFit {limit : ℕ} (room : 64 * alphabet.card ≤ 2 ^ limit) (occupied : alphabet.Nonempty) :
    ∑ s ∈ alphabet, 2 ^ (limit - length alphabet weight s) ≤ 2 ^ limit := by
  have positive : 0 < whole alphabet weight :=
    Nat.mul_pos (Nat.mul_pos (by decide) (Finset.card_pos.mpr occupied)) weighty
  refine Nat.le_of_mul_le_mul_left ?_ positive
  calc whole alphabet weight * ∑ s ∈ alphabet, 2 ^ (limit - length alphabet weight s)
      = ∑ s ∈ alphabet, whole alphabet weight * 2 ^ (limit - length alphabet weight s) := Finset.mul_sum _ _ _
    _ ≤ ∑ s ∈ alphabet, share alphabet weight s * 2 ^ limit := Finset.sum_le_sum fun s _ => by
        have covers := (lengthWithin weighty).mp (Nat.le_refl (length alphabet weight s))
        have split : 2 ^ length alphabet weight s * 2 ^ (limit - length alphabet weight s) = 2 ^ limit := by
          rw [← Nat.pow_add, Nat.add_sub_cancel' (lengthLimited weighty room s)]
        rw [← split, ← Nat.mul_assoc]
        exact Nat.mul_le_mul_right _ covers
    _ = whole alphabet weight * 2 ^ limit := by rw [← Finset.sum_mul, sharesFill]

theorem lengthClose (s : σ) (used : 1 ≤ length alphabet weight s) :
    63 * weight s * 2 ^ (length alphabet weight s - 1) < 64 * total alphabet weight := by
  have short : ¬ length alphabet weight s ≤ length alphabet weight s - 1 := by omega
  rw [lengthWithin weighty, Nat.not_le, whole, share] at short
  have most : 63 * alphabet.card * weight s * 2 ^ (length alphabet weight s - 1) <
      64 * alphabet.card * total alphabet weight :=
    Nat.lt_of_le_of_lt (Nat.mul_le_mul_right _ (Nat.le_add_right _ _)) short
  refine Nat.lt_of_mul_lt_mul_left (a := alphabet.card) ?_
  linarith

end

/-! Against the information of the weights. -/
theorem lengthInformation {t w l : ℕ} (positive : 0 < w) (close : 63 * w * 2 ^ (l - 1) < 64 * t) (used : 1 ≤ l) :
    (l : ℝ) ≤ 1 + Real.logb 2 (64 / 63) + Real.logb 2 (t / w) := by
  have weighs : (0 : ℝ) < w := by exact_mod_cast positive
  have counted : (63 : ℝ) * w * 2 ^ (l - 1) < 64 * t := by exact_mod_cast close
  have filled : (0 : ℝ) < t := by
    have : (0 : ℝ) < 63 * w * 2 ^ (l - 1) := by positivity
    linarith
  have below : (2 : ℝ) ^ (l - 1) ≤ 64 / 63 * (t / w) := by
    rw [div_mul_div_comm, le_div_iff₀ (by positivity)]
    linarith
  have bits : ((l - 1 : ℕ) : ℝ) ≤ Real.logb 2 (64 / 63 * (t / w)) := by
    rw [Real.le_logb_iff_rpow_le (by norm_num) (by positivity), Real.rpow_natCast]
    exact below
  rw [Real.logb_mul (by norm_num) (by positivity), Nat.cast_sub used, Nat.cast_one] at bits
  linarith

theorem informationTerm {t w : ℝ} (filled : 0 < t) (weighs : 0 < w) (l : ℕ) :
    w * Real.logb 2 (t / w) - w * l ≤ (t * (1 / 2) ^ l - w) / Real.log 2 := by
  have two : 0 < Real.log 2 := Real.log_pos (by norm_num)
  have split : Real.log (t * (1 / 2) ^ l / w) = Real.log (t / w) - l * Real.log 2 := by
    rw [mul_div_right_comm, Real.log_mul (by positivity) (by positivity), Real.log_pow, one_div, Real.log_inv]
    ring
  have tangent := Real.log_le_sub_one_of_pos (by positivity : 0 < t * (1 / 2) ^ l / w)
  rw [split] at tangent
  rw [le_div_iff₀ two, Real.logb, sub_mul, mul_assoc, div_mul_cancel₀ _ two.ne', mul_assoc, ← mul_sub]
  calc w * (Real.log (t / w) - l * Real.log 2) ≤ w * (t * (1 / 2) ^ l / w - 1) :=
        mul_le_mul_of_nonneg_left tangent weighs.le
    _ = t * (1 / 2) ^ l - w := by rw [mul_sub, mul_div_cancel₀ _ weighs.ne', mul_one]

/-- No lengths that leave room for all words spend less than the information. -/
theorem informationLeast {limit : ℕ} {l : σ → ℕ} (short : ∀ s ∈ alphabet, l s ≤ limit)
    (room : ∑ s ∈ alphabet, 2 ^ (limit - l s) ≤ 2 ^ limit) (used : ∀ s ∈ alphabet, 0 < weight s) :
    ∑ s ∈ alphabet, (weight s : ℝ) * Real.logb 2 (total alphabet weight / weight s) ≤
      ∑ s ∈ alphabet, (weight s : ℝ) * l s := by
  have two : 0 < Real.log 2 := Real.log_pos (by norm_num)
  have kraft : ∑ s ∈ alphabet, (1 / 2 : ℝ) ^ l s ≤ 1 := by
    have counted : ∑ s ∈ alphabet, (2 : ℝ) ^ (limit - l s) ≤ 2 ^ limit := by exact_mod_cast room
    have scaled : ∑ s ∈ alphabet, (1 / 2 : ℝ) ^ l s = (∑ s ∈ alphabet, (2 : ℝ) ^ (limit - l s)) / 2 ^ limit := by
      rw [Finset.sum_div]
      refine Finset.sum_congr rfl fun s member => ?_
      rw [one_div, inv_pow, pow_sub₀ 2 (by norm_num) (short s member)]
      field_simp
    rw [scaled]
    exact div_le_one_of_le₀ counted (by positivity)
  rw [← sub_nonpos, ← Finset.sum_sub_distrib]
  calc ∑ s ∈ alphabet, ((weight s : ℝ) * Real.logb 2 (total alphabet weight / weight s) - weight s * l s)
      ≤ ∑ s ∈ alphabet, ((total alphabet weight : ℝ) * (1 / 2) ^ l s - weight s) / Real.log 2 :=
        Finset.sum_le_sum fun s member => by
          have weighs : (0 : ℝ) < weight s := by exact_mod_cast used s member
          have part : weight s ≤ total alphabet weight :=
            Finset.single_le_sum (fun t _ => Nat.zero_le (weight t)) member
          have filled : (0 : ℝ) < total alphabet weight := by exact_mod_cast Nat.lt_of_lt_of_le (used s member) part
          exact informationTerm filled weighs (l s)
    _ = (total alphabet weight * ∑ s ∈ alphabet, (1 / 2 : ℝ) ^ l s - total alphabet weight) / Real.log 2 := by
        rw [← Finset.sum_div, Finset.sum_sub_distrib, ← Finset.mul_sum, total, Nat.cast_sum]
    _ ≤ 0 := by
        refine div_nonpos_of_nonpos_of_nonneg ?_ two.le
        have whole := mul_le_mul_of_nonneg_left kraft (Nat.cast_nonneg (α := ℝ) (total alphabet weight))
        linarith

end ShannonCode
