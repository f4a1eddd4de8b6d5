import Mathlib.Data.Nat.Bitwise
import Mathlib.Tactic.Ring
import Mathlib.Tactic.Linarith

/-! Bit strings, most significant bit first, and little-endian byte strings.
Both directions are total; the numeric value and the width determine the string. -/
namespace Bits

def ofNat : Nat → Nat → List Bool
  | 0, _ => []
  | n+1, v => v.testBit n :: ofNat n v

def toNat : List Bool → Nat
  | [] => 0
  | b :: bits => b.toNat * 2 ^ bits.length + toNat bits

def zeros (n : Nat) : List Bool := List.replicate n false

def ofBytes (raw : List UInt8) : List Bool := raw.flatMap (fun b => ofNat 8 b.toNat)

def window (n : Nat) (bits : List Bool) : Nat := toNat ((bits ++ zeros n).take n)

@[simp] theorem lengthOfNat (n v : Nat) : (ofNat n v).length = n := by
  induction n with
  | zero => rfl
  | succ n ih => simp [ofNat, ih]

@[simp] theorem lengthZeros (n : Nat) : (zeros n).length = n := List.length_replicate

theorem toNatBound (bits : List Bool) : toNat bits < 2 ^ bits.length := by
  induction bits with
  | nil => simp [toNat]
  | cons b bits ih =>
    have digit : b.toNat ≤ 1 := Bool.toNat_le b
    have scaled := Nat.mul_le_mul_right (2 ^ bits.length) digit
    simp only [toNat, List.length_cons, Nat.pow_succ]
    omega

theorem toNatOfNat (n v : Nat) : toNat (ofNat n v) = v % 2 ^ n := by
  induction n with
  | zero => simp [ofNat, toNat, Nat.mod_one]
  | succ n ih =>
    rw [ofNat, toNat, ih, lengthOfNat, Nat.toNat_testBit, Nat.pow_succ, Nat.mod_mul, Nat.mul_comm,
      Nat.add_comm]

theorem toNatAppend (a b : List Bool) : toNat (a ++ b) = toNat a * 2 ^ b.length + toNat b := by
  induction a with
  | nil => simp [toNat]
  | cons bit a ih =>
    simp only [List.cons_append, toNat, ih, List.length_append, Nat.pow_add]
    ring

@[simp] theorem toNatZeros (n : Nat) : toNat (zeros n) = 0 := by
  induction n with
  | zero => rfl
  | succ n ih =>
    change toNat (false :: zeros n) = 0
    simp [toNat, ih]

theorem toNatInjective {a b : List Bool} (length : a.length = b.length) (value : toNat a = toNat b) :
    a = b := by
  induction a generalizing b with
  | nil => exact (List.length_eq_zero_iff.mp length.symm).symm
  | cons x a ih =>
    cases b with
    | nil => simp at length
    | cons y b =>
      have same : a.length = b.length := by simpa using length
      have ha := toNatBound a
      have hb := toNatBound b
      simp only [toNat, same] at value
      rw [same] at ha
      have heads : x = y := by
        cases x <;> cases y <;> simp at value <;> first | rfl | omega
      subst heads
      rw [ih same (by omega)]

theorem ofNatCongr {n v w : Nat} (h : v % 2 ^ n = w % 2 ^ n) : ofNat n v = ofNat n w :=
  toNatInjective (by simp) (by simpa only [toNatOfNat] using h)

theorem ofNatMod (n v : Nat) : ofNat n (v % 2 ^ n) = ofNat n v := ofNatCongr (Nat.mod_mod _ _)

theorem ofNatAppend (m n a : Nat) {b : Nat} (low : b < 2 ^ n) :
    ofNat (m + n) (a * 2 ^ n + b) = ofNat m a ++ ofNat n b := by
  apply toNatInjective (by simp)
  rw [toNatAppend, toNatOfNat, toNatOfNat, toNatOfNat, lengthOfNat, Nat.mod_eq_of_lt low, Nat.add_comm m n,
    Nat.pow_add, Nat.mod_mul, Nat.mul_comm a, Nat.mul_add_mod, Nat.mod_eq_of_lt low,
    Nat.mul_add_div (Nat.two_pow_pos n), Nat.div_eq_of_lt low, Nat.add_zero, Nat.mul_comm, Nat.add_comm]

theorem ofNatSplit (m n v : Nat) : ofNat (m + n) v = ofNat m (v / 2 ^ n) ++ ofNat n v := by
  have h := ofNatAppend m n (v / 2 ^ n) (Nat.mod_lt v (by positivity : 0 < 2 ^ n))
  rwa [ofNatMod, Nat.mul_comm, Nat.div_add_mod] at h

theorem ofNatZero (n : Nat) : ofNat n 0 = zeros n :=
  toNatInjective (by simp) (by simp [toNatOfNat])

theorem ofNatReduce {n m : Nat} (narrow : n ≤ m) (v : Nat) : ofNat n (v % 2 ^ m) = ofNat n v :=
  ofNatCongr (Nat.mod_mod_of_dvd v (Nat.pow_dvd_pow 2 narrow))

theorem dropOfNat (m n v : Nat) : (ofNat (m + n) v).drop m = ofNat n v := by
  rw [ofNatSplit, List.drop_left' (lengthOfNat m _)]

theorem takeOfNat (m n v : Nat) : (ofNat (m + n) v).take m = ofNat m (v / 2 ^ n) := by
  rw [ofNatSplit, List.take_left' (lengthOfNat m _)]

theorem ofBytesAppend (a b : List UInt8) : ofBytes (a ++ b) = ofBytes a ++ ofBytes b := by
  simp [ofBytes]

@[simp] theorem ofBytesNil : ofBytes [] = [] := rfl

@[simp] theorem ofBytesCons (b : UInt8) (raw : List UInt8) :
    ofBytes (b :: raw) = ofNat 8 b.toNat ++ ofBytes raw := rfl

@[simp] theorem lengthOfBytes (raw : List UInt8) : (ofBytes raw).length = 8 * raw.length := by
  induction raw with
  | nil => rfl
  | cons b raw ih => simp [ih]; omega

theorem windowBound (n : Nat) (bits : List Bool) : window n bits < 2 ^ n := by
  have h := toNatBound ((bits ++ zeros n).take n)
  rwa [List.length_take, List.length_append, lengthZeros, Nat.min_eq_left (by omega)] at h

theorem windowAppend (head rest : List Bool) {n : Nat} (fits : head.length ≤ n) :
    window n (head ++ rest) = toNat head * 2 ^ (n - head.length) + window (n - head.length) rest := by
  have tail : ((rest ++ zeros n).take (n - head.length)) =
      ((rest ++ zeros (n - head.length)).take (n - head.length)) := by
    have zs : zeros n = zeros (n - head.length) ++ zeros head.length := by
      simp [zeros, Nat.sub_add_cancel fits]
    rw [zs, ← List.append_assoc, List.take_append_of_le_length (by simp)]
  unfold window
  rw [List.append_assoc, List.take_append, List.take_of_length_le fits, toNatAppend, tail]
  congr 2
  simp

theorem windowTop (n len : Nat) (bits : List Bool) (fits : len ≤ n) :
    window n bits / 2 ^ (n - len) = toNat ((bits ++ zeros n).take len) := by
  have low := toNatBound (((bits ++ zeros n).drop len).take (n - len))
  have size : (((bits ++ zeros n).drop len).take (n - len)).length = n - len := by
    rw [List.length_take, List.length_drop, List.length_append, lengthZeros]
    omega
  rw [size] at low
  have split : (bits ++ zeros n).take n =
      (bits ++ zeros n).take len ++ ((bits ++ zeros n).drop len).take (n - len) := by
    rw [← List.take_add, Nat.add_sub_cancel' fits]
  rw [window, split, toNatAppend, size, Nat.mul_comm, Nat.mul_add_div (Nat.two_pow_pos _), Nat.div_eq_of_lt low,
    Nat.add_zero]

theorem ofNatToNat (bits : List Bool) : ofNat bits.length (toNat bits) = bits :=
  toNatInjective (lengthOfNat _ _) (by rw [toNatOfNat, Nat.mod_eq_of_lt (toNatBound bits)])

/-- Whole octets are the bits of some bytes. -/
theorem ofBytesOnto {n : Nat} {bits : List Bool} (whole : bits.length = 8 * n) : ∃ raw, ofBytes raw = bits := by
  induction n generalizing bits with
  | zero => exact ⟨[], (List.length_eq_zero_iff.mp whole).symm⟩
  | succ n ih =>
    have less : (bits.drop 8).length = 8 * n := by
      rw [List.length_drop]
      omega
    obtain ⟨raw, rest⟩ := ih less
    have eight : (bits.take 8).length = 8 := List.length_take_of_le (by omega)
    have small := toNatBound (bits.take 8)
    rw [eight] at small
    have front := ofNatToNat (bits.take 8)
    rw [eight] at front
    refine ⟨UInt8.ofNat (toNat (bits.take 8)) :: raw, ?_⟩
    rw [ofBytesCons, UInt8.toNat_ofNat_of_lt' small, front, rest, List.take_append_drop]

@[simp] theorem windowNil (n : Nat) : window n [] = 0 := by
  simp [window, zeros, List.take_replicate]
  exact toNatZeros n

@[simp] theorem windowZero (bits : List Bool) : window 0 bits = 0 := by simp [window, toNat]

/-- The bits, continued by zeros, start with `word`. -/
def Front (word bits : List Bool) : Prop := word <+: bits ++ zeros word.length

instance (word bits : List Bool) : Decidable (Front word bits) := by unfold Front; infer_instance

theorem frontWindow {n len c : Nat} (bits : List Bool) (fits : len ≤ n) (bound : c < 2 ^ len) :
    Front (ofNat len c) bits ↔ window n bits / 2 ^ (n - len) = c := by
  have zs : zeros n = zeros len ++ zeros (n - len) := by
    rw [zeros, zeros, zeros, List.replicate_append_replicate, Nat.add_sub_cancel' fits]
  have same : (bits ++ zeros n).take len = (bits ++ zeros len).take len := by
    rw [zs, ← List.append_assoc, List.take_append_of_le_length (by simp)]
  have size : ((bits ++ zeros len).take len).length = len := by simp
  rw [windowTop n len bits fits, same, Front, lengthOfNat, List.prefix_iff_eq_take, lengthOfNat]
  constructor
  · intro word
    rw [← word, toNatOfNat, Nat.mod_eq_of_lt bound]
  · intro value
    apply toNatInjective (by rw [lengthOfNat, size])
    rw [toNatOfNat, Nat.mod_eq_of_lt bound, value]

theorem frontWhole {word bits : List Bool} (front : Front word bits) (enough : word.length ≤ bits.length) :
    bits = word ++ bits.drop word.length := by
  have prefixed : word <+: bits := List.prefix_of_prefix_length_le front (List.prefix_append _ _) enough
  obtain ⟨rest, rfl⟩ := prefixed
  rw [List.drop_left]

theorem frontAppend (word rest : List Bool) : Front word (word ++ rest) := by
  rw [Front, List.append_assoc]
  exact List.prefix_append _ _

end Bits

namespace LittleEndian

def encode : Nat → Nat → List UInt8
  | 0, _ => []
  | width+1, v => UInt8.ofNat v :: encode width (v / 256)

def decode : List UInt8 → Nat
  | [] => 0
  | b :: raw => b.toNat + 256 * decode raw

@[simp] theorem lengthEncode (width v : Nat) : (encode width v).length = width := by
  induction width generalizing v with
  | zero => rfl
  | succ width ih => simp [encode, ih]

theorem decodeBound (raw : List UInt8) : decode raw < 256 ^ raw.length := by
  induction raw with
  | nil => simp [decode]
  | cons b raw ih =>
    have hb := b.toNat_lt
    simp only [decode, List.length_cons, Nat.pow_succ]
    omega

theorem decodeEncode (width v : Nat) : decode (encode width v) = v % 256 ^ width := by
  induction width generalizing v with
  | zero => simp [encode, decode, Nat.mod_one]
  | succ width ih =>
    rw [encode, decode, ih, Nat.pow_succ', Nat.mod_mul]
    simp

theorem decodeEncodeBounded {width v : Nat} (bound : v < 256 ^ width) : decode (encode width v) = v := by
  rw [decodeEncode, Nat.mod_eq_of_lt bound]

theorem encodeDecode (raw : List UInt8) : encode raw.length (decode raw) = raw := by
  induction raw with
  | nil => rfl
  | cons b raw ih =>
    have hb := b.toNat_lt
    have head : UInt8.ofNat (decode (b :: raw)) = b := by
      apply UInt8.toNat_inj.mp
      simp only [decode, UInt8.toNat_ofNat']
      omega
    have rest : decode (b :: raw) / 256 = decode raw := by
      simp only [decode]
      omega
    rw [List.length_cons, encode, head, rest, ih]

theorem encodeOfDecode {width : Nat} {raw : List UInt8} (length : raw.length = width) :
    encode width (decode raw) = raw := by
  rw [← length]; exact encodeDecode raw

end LittleEndian
