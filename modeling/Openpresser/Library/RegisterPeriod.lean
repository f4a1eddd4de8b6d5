import Openpresser.Library.ShiftRegister
import Mathlib.Dynamics.PeriodicPts.Defs
import Mathlib.Data.LawfulXor.Basic
import Mathlib.Data.Nat.Prime.Basic

/-! How long a shift register runs before it repeats itself, and what that says about
messages. The register is computed many steps ahead by squaring: to step a register that
started with only its top bit is to multiply by what has become of that bit. -/
namespace ShiftRegister

variable {w : Nat} (poly : BitVec w)

/-! Jumping ahead. -/
def top (w : Nat) : BitVec w := BitVec.twoPow w (w - 1)

def productFrom : Nat → BitVec w → BitVec w → BitVec w → BitVec w
  | 0, _, _, acc => acc
  | n+1, v, c, acc => productFrom n (step poly v) c (if c.getLsbD n then acc ^^^ v else acc)

def product (v c : BitVec w) : BitVec w := productFrom poly w v c 0#w

def ahead (exponent : List Bool) : BitVec w :=
  exponent.foldl (fun v bit => if bit then step poly (product poly v v) else product poly v v) (top w)

theorem stepsZero (n : Nat) : steps poly n 0#w = 0#w := by
  induction n with
  | zero => rfl
  | succ n ih =>
    have clear : step poly 0#w = 0#w := by simp [step]
    rw [steps, clear, ih]

theorem stepsTop {n : Nat} (inside : n < w) : steps poly (w - 1 - n) (top w) = BitVec.twoPow w n := by
  rw [stepsClear]
  · apply BitVec.eq_of_getLsbD_eq
    intro i small
    rw [BitVec.getLsbD_ushiftRight, top, BitVec.getLsbD_twoPow, BitVec.getLsbD_twoPow]
    grind
  · intro i small
    rw [top, BitVec.getLsbD_twoPow]
    grind

def below (n : Nat) (c : BitVec w) : BitVec w := BitVec.ofNat w (c.toNat % 2 ^ n)

theorem belowSucc (n : Nat) (c : BitVec w) :
    below (n + 1) c = (if c.getLsbD n then BitVec.twoPow w n else 0#w) ^^^ below n c := by
  apply BitVec.eq_of_getLsbD_eq
  intro i small
  have low (m : Nat) : (below m c).getLsbD i = (decide (i < m) && c.getLsbD i) := by
    rw [below, BitVec.getLsbD_ofNat, Nat.testBit_mod_two_pow, BitVec.getLsbD, decide_eq_true small, Bool.true_and]
  rw [BitVec.getLsbD_xor, low, low]
  by_cases here : i = n
  · subst here
    cases bit : c.getLsbD i <;> simp [small]
  · have away : (if c.getLsbD n then BitVec.twoPow w n else 0#w).getLsbD i = false := by
      split <;> simp [Ne.symm here]
    rw [away, Bool.false_xor]
    grind

theorem productFromSteps {m n : Nat} (inside : n ≤ w) {v : BitVec w} (reached : v = steps poly (m + (w - n)) (top w))
    (c acc : BitVec w) : productFrom poly n v c acc = acc ^^^ steps poly m (below n c) := by
  induction n generalizing v acc with
  | zero =>
    have nothing : below 0 c = 0#w := by rw [below, Nat.pow_zero, Nat.mod_one]
    rw [productFrom, nothing, stepsZero, BitVec.xor_zero]
  | succ n ih =>
    have here : v = steps poly m (BitVec.twoPow w n) := by
      rw [reached, show m + (w - (n + 1)) = (w - 1 - n) + m by omega, stepsAdd, stepsTop poly inside]
    have later : step poly v = steps poly (m + (w - n)) (top w) := by
      have single : step poly v = steps poly 1 v := rfl
      rw [single, reached, ← stepsAdd]
      congr 1
      omega
    rw [productFrom, ih (Nat.le_of_succ_le inside) later, belowSucc, stepsXor, ← BitVec.xor_assoc, here]
    split
    · rfl
    · rw [stepsZero, BitVec.xor_zero]

theorem productSteps (m : Nat) (c : BitVec w) : product poly (steps poly m (top w)) c = steps poly m c := by
  have whole : below w c = c := by
    rw [below, Nat.mod_eq_of_lt c.isLt, BitVec.ofNat_toNat, BitVec.setWidth_eq]
  rw [product, productFromSteps poly (Nat.le_refl w) (m := m) (by rw [Nat.sub_self, Nat.add_zero]), whole,
    BitVec.zero_xor]

theorem aheadSteps (exponent : List Bool) : ahead poly exponent = steps poly (Bits.toNat exponent) (top w) := by
  induction exponent using List.reverseRecOn with
  | nil => rfl
  | append_singleton exponent bit ih =>
    have value : Bits.toNat (exponent ++ [bit]) =
        Bits.toNat exponent + Bits.toNat exponent + bit.toNat := by
      rw [Bits.toNatAppend]
      simp [Bits.toNat]
      omega
    rw [ahead, List.foldl_append, ← ahead, List.foldl_cons, List.foldl_nil, ih, productSteps, ← stepsAdd, value]
    cases bit with
    | false => rfl
    | true =>
      rw [Bool.toNat_true, stepsAdd poly _ 1]
      rfl

/-! The period. -/
theorem stepsIterate (n : Nat) (c : BitVec w) : steps poly n c = (step poly)^[n] c := by
  induction n generalizing c with
  | zero => rfl
  | succ n ih => rw [steps, ih, Function.iterate_succ_apply]

/-- A point that returns after `n` steps, and after no `n / p` of them, returns after no fewer. -/
theorem minimalPeriodPrimes {α : Type} {f : α → α} {x : α} {n : Nat}
    (returns : Function.IsPeriodicPt f n x)
    (proper : ∀ p, p.Prime → p ∣ n → ¬ Function.IsPeriodicPt f (n / p) x) : Function.minimalPeriod f x = n := by
  obtain ⟨q, split⟩ := returns.minimalPeriod_dvd
  by_cases single : q = 1
  · rw [split, single, Nat.mul_one]
  obtain ⟨p, prime, r, rfl⟩ := Nat.exists_prime_and_dvd single
  have smaller : n / p = Function.minimalPeriod f x * r := by
    rw [split, Nat.mul_left_comm, Nat.mul_div_cancel_left _ prime.pos]
  have back : Function.IsPeriodicPt f (n / p) x := by
    rw [smaller]
    exact (Function.isPeriodicPt_minimalPeriod f x).mul_const r
  exact absurd back (proper p prime ⟨Function.minimalPeriod f x * r, by rw [split, Nat.mul_left_comm]⟩)

/-! Messages that differ. -/
theorem shiftInXor (c x : BitVec w) (bit : Bool) :
    shiftIn poly (c ^^^ x) bit = shiftIn poly c bit ^^^ step poly x := by
  have fed (y : BitVec w) : shiftIn poly y bit = step poly y ^^^ if bit then poly else 0#w := by
    unfold shiftIn step
    cases y.getLsbD 0 <;> cases bit <;> simp [BitVec.xor_comm]
  rw [fed, fed, stepXor, BitVec.xor_assoc, BitVec.xor_assoc, BitVec.xor_comm (step poly x)]

theorem shiftInFlip (c : BitVec w) (bit : Bool) : shiftIn poly c (!bit) = shiftIn poly c bit ^^^ poly := by
  unfold shiftIn
  cases c.getLsbD 0 <;> cases bit <;> simp [BitVec.xor_comm]

theorem absorbXor (bits : List Bool) (c x : BitVec w) :
    bits.foldl (shiftIn poly) (c ^^^ x) = bits.foldl (shiftIn poly) c ^^^ steps poly bits.length x := by
  induction bits generalizing c x with
  | nil => rfl
  | cons bit bits ih => rw [List.foldl_cons, shiftInXor, ih, List.foldl_cons, List.length_cons, steps]

theorem xorMeets {a x : BitVec w} : a ^^^ x = a ↔ x = 0#w := by
  constructor
  · intro same
    rw [← BitVec.xor_right_inj a, same, BitVec.xor_zero]
  · rintro rfl
    rw [BitVec.xor_zero]

theorem absorbInjective (reflected : poly.msb = true) (bits : List Bool) {a b : BitVec w}
    (same : bits.foldl (shiftIn poly) a = bits.foldl (shiftIn poly) b) : a = b := by
  have apart : a = b ^^^ (b ^^^ a) := by rw [← BitVec.xor_assoc, BitVec.xor_self, BitVec.zero_xor]
  rw [apart, absorbXor, xorMeets, ← stepsZero poly bits.length] at same
  rw [apart, stepsInjective poly reflected _ same, BitVec.xor_zero]

theorem lowBitsOnto (bits : List Bool) : ∃ v < 2 ^ bits.length, lowBits bits.length v = bits := by
  induction bits with
  | nil => exact ⟨0, by decide, rfl⟩
  | cons bit bits ih =>
    obtain ⟨v, small, same⟩ := ih
    have digit := Bool.toNat_le bit
    refine ⟨2 * v + bit.toNat, by rw [List.length_cons, Nat.pow_succ]; omega, ?_⟩
    have half : (2 * v + bit.toNat) / 2 = v := by omega
    have low : (2 * v + bit.toNat).testBit 0 = bit := by
      rw [Nat.testBit_zero]
      cases bit <;> simp
    rw [List.length_cons, lowBitsSucc, half, same, low]

/-- No burst as wide as the register goes unnoticed, wherever it begins. -/
theorem bitBurst (reflected : poly.msb = true) (c : BitVec w) (front back : List Bool) {m m' : List Bool}
    (length : m.length = m'.length) (fits : m.length ≤ w)
    (same : (front ++ m ++ back).foldl (shiftIn poly) c = (front ++ m' ++ back).foldl (shiftIn poly) c) : m = m' := by
  rw [List.foldl_append, List.foldl_append, List.foldl_append, List.foldl_append] at same
  have burst := absorbInjective poly reflected back same
  obtain ⟨v, small, word⟩ := lowBitsOnto m
  obtain ⟨v', small', word'⟩ := lowBitsOnto m'
  rw [← length] at small' word'
  rw [← word, ← word', ← stepsShiftIn poly _ _ fits small, ← stepsShiftIn poly _ _ fits small'] at burst
  have values := congrArg BitVec.toNat (BitVec.xor_right_inj _ |>.mp (stepsInjective poly reflected _ burst))
  have room : 2 ^ m.length ≤ 2 ^ w := Nat.pow_le_pow_right (by decide) fits
  rw [BitVec.toNat_ofNat, BitVec.toNat_ofNat, Nat.mod_eq_of_lt (Nat.lt_of_lt_of_le small room),
    Nat.mod_eq_of_lt (Nat.lt_of_lt_of_le small' room)] at values
  rw [← word, ← word', values]

theorem twoFlips (reflected : poly.msb = true) (c : BitVec w) (front middle back : List Bool) (b d : Bool) :
    (front ++ (!b) :: (middle ++ (!d) :: back)).foldl (shiftIn poly) c =
      (front ++ b :: (middle ++ d :: back)).foldl (shiftIn poly) c ↔
        Function.IsPeriodicPt (step poly) (middle.length + 1) poly := by
  have cycle : (step poly)^[middle.length + 1] poly = step poly (steps poly middle.length poly) := by
    rw [Function.iterate_succ_apply', ← stepsIterate]
  simp only [List.foldl_append, List.foldl_cons, shiftInFlip, absorbXor, shiftInXor, BitVec.xor_assoc, xorMeets]
  rw [Function.IsPeriodicPt, Function.IsFixedPt, cycle]
  constructor
  · intro gone
    have meets := stepsInjective poly reflected _ (gone.trans (stepsZero poly back.length).symm)
    rw [← BitVec.xor_left_inj poly, meets, BitVec.xor_self]
  · intro meets
    rw [meets, BitVec.xor_self, stepsZero]

end ShiftRegister
