import Openpresser.Library.Bits

/-! A reflected linear shift register of any width, fed one byte at a time with
the low bit first. Nothing here depends on which polynomial is used beyond its
top coefficient. -/
namespace ShiftRegister

variable {w : Nat} (poly : BitVec w)

def step (c : BitVec w) : BitVec w := if c.getLsbD 0 then poly ^^^ (c >>> 1) else c >>> 1

def steps : Nat → BitVec w → BitVec w
  | 0, c => c
  | n+1, c => steps n (step poly c)

def feed (c : BitVec w) (b : UInt8) : BitVec w := steps poly 8 (c ^^^ BitVec.ofNat w b.toNat)

def run (c : BitVec w) (message : List UInt8) : BitVec w := message.foldl (feed poly) c

theorem stepXor (a b : BitVec w) : step poly (a ^^^ b) = step poly a ^^^ step poly b := by
  have cancel (x y : BitVec w) : (poly ^^^ x) ^^^ (poly ^^^ y) = x ^^^ y := by
    rw [BitVec.xor_assoc, ← BitVec.xor_assoc x, BitVec.xor_comm x poly, BitVec.xor_assoc poly x,
      ← BitVec.xor_assoc poly poly, BitVec.xor_self, BitVec.zero_xor]
  unfold step
  rw [BitVec.getLsbD_xor, BitVec.ushiftRight_xor_distrib]
  cases a.getLsbD 0 <;> cases b.getLsbD 0 <;> simp [cancel, BitVec.xor_assoc]
  · rw [← BitVec.xor_assoc, BitVec.xor_comm poly, BitVec.xor_assoc]

theorem stepsXor (n : Nat) (a b : BitVec w) :
    steps poly n (a ^^^ b) = steps poly n a ^^^ steps poly n b := by
  induction n generalizing a b with
  | zero => rfl
  | succ n ih => rw [steps, steps, steps, stepXor, ih]

theorem stepsAdd (m n : Nat) (c : BitVec w) : steps poly (m + n) c = steps poly n (steps poly m c) := by
  induction m generalizing c with
  | zero => rw [Nat.zero_add]; rfl
  | succ m ih => rw [Nat.succ_add]; exact ih (step poly c)

theorem stepsClear (n : Nat) (c : BitVec w) (clear : ∀ i < n, c.getLsbD i = false) :
    steps poly n c = c >>> n := by
  induction n generalizing c with
  | zero => simp [steps]
  | succ n ih =>
    have low : step poly c = c >>> 1 := by simp [step, clear 0 (by omega)]
    rw [steps, low, ih (c >>> 1), ← BitVec.shiftRight_add, Nat.add_comm]
    intro i inside
    rw [BitVec.getLsbD_ushiftRight]
    exact clear (1 + i) (by omega)

theorem stepsTable (n : Nat) (c : BitVec w) :
    steps poly n c = steps poly n (BitVec.ofNat w (c.toNat % 2 ^ n)) ^^^ (c >>> n) := by
  have split : c = BitVec.ofNat w (c.toNat % 2 ^ n) ^^^ ((c >>> n) <<< n) := by
    apply BitVec.eq_of_getLsbD_eq
    intro i inside
    rw [BitVec.getLsbD_xor, BitVec.getLsbD_ofNat, Nat.testBit_mod_two_pow, BitVec.getLsbD_shiftLeft,
      BitVec.getLsbD_ushiftRight]
    by_cases low : i < n
    · simp [inside, low, BitVec.getLsbD]
    · simp [inside, low, Nat.add_sub_cancel' (Nat.not_lt.mp low)]
  have high : steps poly n ((c >>> n) <<< n) = c >>> n := by
    rw [stepsClear]
    · apply BitVec.eq_of_getLsbD_eq
      intro i inside
      rw [BitVec.getLsbD_ushiftRight, BitVec.getLsbD_shiftLeft, BitVec.getLsbD_ushiftRight]
      by_cases far : n + i < w
      · simp [far]
      · simp [far, BitVec.getLsbD_of_ge c (n + i) (by omega)]
    · intro i low
      simp [BitVec.getLsbD_shiftLeft, low]
  calc steps poly n c
      = steps poly n (BitVec.ofNat w (c.toNat % 2 ^ n) ^^^ ((c >>> n) <<< n)) := by rw [← split]
    _ = steps poly n (BitVec.ofNat w (c.toNat % 2 ^ n)) ^^^ (c >>> n) := by rw [stepsXor, high]

/-! One bit of the message at a time, the low bit of a byte first. -/
def shiftIn (c : BitVec w) (bit : Bool) : BitVec w :=
  if c.getLsbD 0 != bit then poly ^^^ (c >>> 1) else c >>> 1

def lowBits (n v : Nat) : List Bool := (List.range n).map v.testBit

theorem lowBitsSucc (n v : Nat) : lowBits (n + 1) v = v.testBit 0 :: lowBits n (v / 2) := by
  rw [lowBits, List.range_succ_eq_map, List.map_cons, List.map_map, lowBits]
  congr 1
  exact List.map_congr_left fun i _ => Nat.testBit_succ v i

theorem stepShiftIn (c x : BitVec w) : step poly (c ^^^ x) = shiftIn poly c (x.getLsbD 0) ^^^ (x >>> 1) := by
  unfold step shiftIn
  rw [BitVec.getLsbD_xor, BitVec.ushiftRight_xor_distrib]
  cases c.getLsbD 0 <;> cases x.getLsbD 0 <;> simp [BitVec.xor_assoc]

theorem stepsShiftIn (n : Nat) (c : BitVec w) {v : Nat} (fits : n ≤ w) (small : v < 2 ^ n) :
    steps poly n (c ^^^ BitVec.ofNat w v) = (lowBits n v).foldl (shiftIn poly) c := by
  induction n generalizing c v with
  | zero =>
    obtain rfl : v = 0 := by simpa using small
    simp [steps, lowBits]
  | succ n ih =>
    have low : (BitVec.ofNat w v).getLsbD 0 = v.testBit 0 := by
      rw [BitVec.getLsbD_ofNat]
      simp [Nat.lt_of_lt_of_le (Nat.succ_pos n) fits]
    have high : BitVec.ofNat w v >>> 1 = BitVec.ofNat w (v / 2) := by
      have bound : v < 2 ^ w := Nat.lt_of_lt_of_le small (Nat.pow_le_pow_right (by decide) fits)
      apply BitVec.eq_of_toNat_eq
      rw [BitVec.toNat_ushiftRight, BitVec.toNat_ofNat, BitVec.toNat_ofNat, Nat.mod_eq_of_lt bound,
        Nat.mod_eq_of_lt (Nat.lt_of_le_of_lt (Nat.div_le_self v 2) bound), Nat.shiftRight_eq_div_pow, Nat.pow_one]
    have half : v / 2 < 2 ^ n := by
      rw [Nat.pow_succ] at small
      omega
    rw [steps, stepShiftIn, low, high, ih _ (Nat.le_of_succ_le fits) half, lowBitsSucc, List.foldl_cons]

theorem runBits (wide : 8 ≤ w) (c : BitVec w) (message : List UInt8) :
    run poly c message = (message.flatMap (fun b => lowBits 8 b.toNat)).foldl (shiftIn poly) c := by
  induction message generalizing c with
  | nil => rfl
  | cons b message ih =>
    rw [List.flatMap_cons, List.foldl_append, ← stepsShiftIn poly 8 c wide b.toNat_lt]
    exact ih (feed poly c b)

/-! Registers and short messages that differ stay apart. -/
theorem stepInjective (top : poly.msb = true) {a b : BitVec w} (h : step poly a = step poly b) : a = b := by
  have clearTop (x : BitVec w) : (x >>> 1).msb = false := by
    simp [BitVec.msb_ushiftRight]
  have noMix (x y : BitVec w) : poly ^^^ (x >>> 1) ≠ y >>> 1 := by
    intro mixed
    have m := congrArg BitVec.msb mixed
    rw [BitVec.msb_xor, clearTop, clearTop, top] at m
    contradiction
  have rebuild (low : a.getLsbD 0 = b.getLsbD 0) (high : a >>> 1 = b >>> 1) : a = b := by
    apply BitVec.eq_of_getLsbD_eq
    intro i _
    cases i with
    | zero => exact low
    | succ i =>
      have bit := congrArg (fun x : BitVec w => x.getLsbD i) high
      simpa only [BitVec.getLsbD_ushiftRight, Nat.add_comm 1 i] using bit
  unfold step at h
  cases la : a.getLsbD 0 <;> cases lb : b.getLsbD 0 <;> simp only [la, lb, if_true, Bool.false_eq_true,
    if_false] at h
  · exact rebuild (la.trans lb.symm) h
  · exact absurd h.symm (noMix b a)
  · exact absurd h (noMix a b)
  · exact rebuild (la.trans lb.symm) (BitVec.xor_right_inj poly |>.mp h)

theorem stepsInjective (top : poly.msb = true) (n : Nat) {a b : BitVec w}
    (h : steps poly n a = steps poly n b) : a = b := by
  induction n generalizing a b with
  | zero => exact h
  | succ n ih => exact stepInjective poly top (ih h)

theorem runInjective (top : poly.msb = true) (message : List UInt8) {a b : BitVec w}
    (h : run poly a message = run poly b message) : a = b := by
  induction message generalizing a b with
  | nil => exact h
  | cons x message ih =>
    have before := stepsInjective poly top 8 (ih h)
    exact BitVec.xor_left_inj _ |>.mp before

theorem runAppend (c : BitVec w) (a b : List UInt8) : run poly c (a ++ b) = run poly (run poly c a) b := by
  simp [run]

theorem decodeSplits (b : UInt8) (message : List UInt8) :
    BitVec.ofNat w (LittleEndian.decode (b :: message)) =
      BitVec.ofNat w b.toNat ^^^ BitVec.ofNat w (2 ^ 8 * LittleEndian.decode message) := by
  apply BitVec.eq_of_getLsbD_eq
  intro i inside
  have byte := b.toNat_lt
  have value : LittleEndian.decode (b :: message) = 2 ^ 8 * LittleEndian.decode message + b.toNat := by
    rw [LittleEndian.decode]; omega
  rw [BitVec.getLsbD_xor, BitVec.getLsbD_ofNat, BitVec.getLsbD_ofNat, BitVec.getLsbD_ofNat, value,
    Nat.testBit_two_pow_mul_add _ byte, Nat.testBit_two_pow_mul]
  by_cases low : i < 8
  · simp [inside, low, Nat.not_le.mpr low]
  · have gone : b.toNat.testBit i = false :=
      Nat.testBit_lt_two_pow (Nat.lt_of_lt_of_le byte (Nat.pow_le_pow_right (by omega) (by omega)))
    simp [inside, low, gone, Nat.not_lt.mp low]

theorem stepsShift {n : Nat} (room : 2 ^ 8 * n < 2 ^ w) :
    steps poly 8 (BitVec.ofNat w (2 ^ 8 * n)) = BitVec.ofNat w n := by
  rw [stepsClear]
  · apply BitVec.eq_of_toNat_eq
    rw [BitVec.toNat_ushiftRight, BitVec.toNat_ofNat, BitVec.toNat_ofNat, Nat.mod_eq_of_lt room,
      Nat.mod_eq_of_lt (by omega), Nat.shiftRight_eq_div_pow, Nat.mul_div_cancel_left _ (by decide)]
  · intro i low
    rw [BitVec.getLsbD_ofNat, Nat.testBit_two_pow_mul]
    simp [low]

theorem runWord (c : BitVec w) (message : List UInt8) (fits : 8 * message.length ≤ w) :
    run poly c message =
      steps poly (8 * message.length) (c ^^^ BitVec.ofNat w (LittleEndian.decode message)) := by
  induction message generalizing c with
  | nil => simp [run, steps, LittleEndian.decode]
  | cons b message ih =>
    rw [List.length_cons] at fits
    have bound := LittleEndian.decodeBound message
    have widen : 2 ^ 8 * 256 ^ message.length ≤ 2 ^ w := by
      rw [show (256 : Nat) = 2 ^ 8 by rfl, ← Nat.pow_mul, ← Nat.pow_add]
      exact Nat.pow_le_pow_right (by omega) (by omega)
    have late := stepsShift poly (w := w) (n := LittleEndian.decode message) (by omega)
    calc run poly c (b :: message)
        = run poly (feed poly c b) message := rfl
      _ = steps poly (8 * message.length)
            (feed poly c b ^^^ BitVec.ofNat w (LittleEndian.decode message)) := ih _ (by omega)
      _ = steps poly (8 * message.length) (steps poly 8 (c ^^^ BitVec.ofNat w b.toNat ^^^
            BitVec.ofNat w (2 ^ 8 * LittleEndian.decode message))) := by
          rw [← late, feed, ← stepsXor]
      _ = steps poly (8 * (message.length + 1))
            (c ^^^ BitVec.ofNat w (LittleEndian.decode (b :: message))) := by
          rw [← stepsAdd, decodeSplits, BitVec.xor_assoc, Nat.mul_succ, Nat.add_comm 8]

theorem burstDetected (top : poly.msb = true) (c : BitVec w) {m m' : List UInt8}
    (length : m.length = m'.length) (fits : 8 * m.length ≤ w) (h : run poly c m = run poly c m') : m = m' := by
  rw [runWord poly c m fits, runWord poly c m' (by omega), length] at h
  have words := BitVec.xor_right_inj c |>.mp (stepsInjective poly top _ h)
  have values := congrArg BitVec.toNat words
  have small {x : List UInt8} (hx : 8 * x.length ≤ w) : LittleEndian.decode x < 2 ^ w := by
    have bound := LittleEndian.decodeBound x
    rw [show (256 : Nat) = 2 ^ 8 by rfl, ← Nat.pow_mul] at bound
    exact Nat.lt_of_lt_of_le bound (Nat.pow_le_pow_right (by omega) hx)
  rw [BitVec.toNat_ofNat, BitVec.toNat_ofNat, Nat.mod_eq_of_lt (small fits),
    Nat.mod_eq_of_lt (small (by omega))] at values
  rw [← LittleEndian.encodeDecode m, ← LittleEndian.encodeDecode m', values, length]

theorem burstBetween (top : poly.msb = true) (c : BitVec w) (a b : List UInt8) {m m' : List UInt8}
    (length : m.length = m'.length) (fits : 8 * m.length ≤ w)
    (h : run poly c (a ++ m ++ b) = run poly c (a ++ m' ++ b)) : m = m' := by
  simp only [runAppend] at h
  exact burstDetected poly top _ length fits (runInjective poly top b h)

end ShiftRegister
