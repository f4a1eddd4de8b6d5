import Openpresser.Huffman
import Openpresser.Library.Bits

/-! The bit writer and the bit reader as operations on plain bit strings. The
writer's stale high bits and the reader's zero padding both disappear here. -/
namespace Openpresser.Huffman

theorem maskLow (v n : Nat) : v &&& (2 ^ n - 1) = v % 2 ^ n := Nat.and_two_pow_sub_one_eq_mod v n

theorem orLow (a n : Nat) {b : Nat} (low : b < 2 ^ n) : a * 2 ^ n ||| b = a * 2 ^ n + b := by
  rw [Nat.mul_comm]
  exact (Nat.two_pow_add_eq_or_of_lt low a).symm

theorem maskFits {width n : Nat} (amount : n < width) :
    (Outcome.shiftLeft width 1 n : Result Nat) = .ok (2 ^ n) := by
  have small : 1 * 2 ^ n < 2 ^ width := by
    rw [Nat.one_mul]; exact Nat.pow_lt_pow_right (by omega) amount
  rw [Outcome.shiftLeftFits amount small, Nat.one_mul]

theorem maskSub (n : Nat) : (Outcome.sub (2 ^ n) 1 : Result Nat) = .ok (2 ^ n - 1) :=
  Outcome.subFits (Nat.two_pow_pos n)

namespace BitWriter

def written (w : BitWriter) : List Bool := Bits.ofBytes w.buf ++ Bits.ofNat w.bits w.acc

theorem drainWritten (fuel : Nat) (w : BitWriter) (enough : w.bits < fuel) (fits : w.bits ≤ 64) :
    ∃ w', drain fuel w = .ok w' ∧ w'.bits < 8 ∧ w'.written = w.written := by
  induction fuel generalizing w with
  | zero => omega
  | succ fuel ih =>
    rw [drain]
    by_cases full : w.bits ≥ 8
    · obtain ⟨w', run, small, same⟩ := ih ⟨w.buf ++ [UInt8.ofNat (w.acc / 2 ^ (w.bits - 8))], w.acc,
        w.bits - 8⟩ (by simp only; omega) (by simp only; omega)
      refine ⟨w', by rw [if_pos full, Outcome.shiftRightFits (by omega), Outcome.okBind]; exact run, small, ?_⟩
      have split := Bits.ofNatSplit 8 (w.bits - 8) w.acc
      rw [Nat.add_sub_cancel' full] at split
      have byte : Bits.ofNat 8 (UInt8.ofNat (w.acc / 2 ^ (w.bits - 8))).toNat =
          Bits.ofNat 8 (w.acc / 2 ^ (w.bits - 8)) := by
        rw [UInt8.toNat_ofNat']; exact Bits.ofNatMod 8 _
      rw [same, written, written, split, Bits.ofBytesAppend, Bits.ofBytesCons, Bits.ofBytesNil,
        List.append_nil, byte, List.append_assoc]
    · exact ⟨w, if_neg full, by omega, rfl⟩

theorem writeBitsWritten (w : BitWriter) (code len : Nat) (pending : w.bits < 8) (narrow : len ≤ 32) :
    ∃ w', w.writeBits code len = .ok w' ∧ w'.bits < 8 ∧ w'.written = w.written ++ Bits.ofNat len code := by
  unfold writeBits
  by_cases nothing : len = 0
  · exact ⟨w, if_pos nothing, pending, by simp [nothing, Bits.ofNat]⟩
  have shifted : (Outcome.shiftLeft 64 w.acc len : Result Nat) =
      .ok (w.acc % 2 ^ (64 - len) * 2 ^ len) := by
    have width : (2 : Nat) ^ 64 = 2 ^ (64 - len) * 2 ^ len := by rw [Nat.pow_sub_mul_pow 2 (by omega)]
    rw [Outcome.shiftLeft, if_pos (by omega), Nat.shiftLeft_eq, width, Nat.mul_mod_mul_right]
  have low : code % 2 ^ len < 2 ^ len := Nat.mod_lt _ (Nat.two_pow_pos len)
  obtain ⟨w', run, small, same⟩ := drainWritten (w.bits + len + 1)
    ⟨w.buf, w.acc % 2 ^ (64 - len) * 2 ^ len + code % 2 ^ len, w.bits + len⟩ (by simp only; omega)
    (by simp only; omega)
  refine ⟨w', ?_, small, ?_⟩
  · rw [if_neg nothing, shifted, Outcome.okBind, maskFits (by omega), Outcome.okBind, maskSub,
      Outcome.okBind, maskLow, orLow _ _ low]
    exact run
  · rw [same, written, written, Bits.ofNatAppend _ _ _ low, Bits.ofNatReduce (by omega), Bits.ofNatMod,
      List.append_assoc]

theorem finishWritten (w : BitWriter) (pending : w.bits < 8) :
    ∃ raw, w.finish = .ok raw ∧ ∃ pad < 8, Bits.ofBytes raw = w.written ++ Bits.zeros pad := by
  unfold finish
  by_cases rest : w.bits > 0
  · refine ⟨w.buf ++ [UInt8.ofNat ((w.acc <<< (8 - w.bits)) % 2 ^ 64)], ?_, 8 - w.bits, by omega, ?_⟩
    · rw [if_pos rest, Outcome.subFits (by omega), Outcome.okBind, Outcome.shiftLeft, if_pos (by omega)]
      rfl
    · have byte : Bits.ofNat 8 (UInt8.ofNat ((w.acc <<< (8 - w.bits)) % 2 ^ 64)).toNat =
          Bits.ofNat 8 (w.acc * 2 ^ (8 - w.bits) + 0) := by
        have reduce := Bits.ofNatReduce (by omega : 8 ≤ 64) (w.acc <<< (8 - w.bits))
        rw [UInt8.toNat_ofNat', Bits.ofNatMod 8, reduce, Nat.shiftLeft_eq, Nat.add_zero]
      have split := Bits.ofNatAppend w.bits (8 - w.bits) w.acc (Nat.two_pow_pos (8 - w.bits))
      rw [Nat.add_sub_cancel' (by omega : w.bits ≤ 8), Bits.ofNatZero] at split
      rw [written, Bits.ofBytesAppend, Bits.ofBytesCons, Bits.ofBytesNil, List.append_nil, byte, split,
        List.append_assoc]
  · have empty : w.bits = 0 := by omega
    exact ⟨w.buf, if_neg rest, 0, by omega, by simp [written, empty, Bits.ofNat, Bits.zeros]⟩

end BitWriter

namespace BitReader

def unread (r : BitReader) : List Bool := Bits.ofNat r.bits r.acc ++ Bits.ofBytes (r.data.drop r.pos)

structure Sound (r : BitReader) : Prop where
  bits : r.bits ≤ 64
  acc : r.acc < 2 ^ r.bits

theorem newSound (data : Bytes) : (new data).Sound := ⟨by simp [new], by simp [new]⟩

theorem newUnread (data : Bytes) : (new data).unread = Bits.ofBytes data := rfl

structure Refilled (r r' : BitReader) : Prop where
  sound : r'.Sound
  same : r'.unread = r.unread
  full : 57 ≤ r'.bits ∨ r'.data.drop r'.pos = []

theorem refilledDrained {r r' : BitReader} (refilled : Refilled r r') {n : Nat} (narrow : n ≤ 57)
    (few : ¬ n ≤ r'.bits) : r'.data.drop r'.pos = [] := by
  rcases refilled.full with full | drained
  · omega
  · exact drained

theorem refilledShort {r r' : BitReader} (refilled : Refilled r r') {n : Nat} (short : r.unread.length < n) :
    ¬ n ≤ r'.bits := by
  rw [← refilled.same] at short
  simp [unread] at short
  omega

theorem refillLoopRefills (fuel : Nat) (r : BitReader) (sound : r.Sound) (enough : 65 ≤ r.bits + 8 * fuel) :
    ∃ r', refillLoop fuel r = .ok r' ∧ Refilled r r' := by
  induction fuel generalizing r with
  | zero =>
    have bits := sound.bits
    omega
  | succ fuel ih =>
    rw [refillLoop]
    by_cases more : r.bits ≤ 56 ∧ r.pos < r.data.length
    · have inside := more.2
      have byte : r.data[r.pos].toNat < 2 ^ 8 := r.data[r.pos].toNat_lt
      have small : r.acc * 2 ^ 8 < 2 ^ (r.bits + 8) := by
        rw [Nat.pow_add]; exact Nat.mul_lt_mul_of_pos_right sound.acc (by decide)
      have bound : r.acc * 2 ^ 8 + r.data[r.pos].toNat < 2 ^ (r.bits + 8) := calc
        _ < r.acc * 2 ^ 8 + 2 ^ 8 := Nat.add_lt_add_left byte _
        _ = (r.acc + 1) * 2 ^ 8 := by rw [Nat.succ_mul]
        _ ≤ 2 ^ r.bits * 2 ^ 8 := Nat.mul_le_mul_right _ sound.acc
        _ = 2 ^ (r.bits + 8) := (Nat.pow_add 2 r.bits 8).symm
      have amount : r.bits + 8 ≤ 64 := by omega
      have fits : r.acc * 2 ^ 8 < 2 ^ 64 :=
        Nat.lt_of_lt_of_le small (Nat.pow_le_pow_right (by decide) amount)
      obtain ⟨r', run, refilled⟩ := ih ⟨r.data, r.pos + 1, r.acc * 2 ^ 8 + r.data[r.pos].toNat,
        r.bits + 8⟩ ⟨amount, bound⟩ (by clear bound small fits; simp only; omega)
      refine ⟨r', ?_, refilled.sound, ?_, refilled.full⟩
      · rw [if_pos more, Outcome.shiftLeftFits (by decide) fits, Outcome.okBind,
          Outcome.getInside inside, Outcome.okBind, orLow _ _ byte]
        exact run
      · rw [refilled.same, unread, unread, Bits.ofNatAppend _ _ _ byte, List.drop_eq_getElem_cons inside,
          Bits.ofBytesCons, List.append_assoc]
    · refine ⟨r, if_neg more, sound, rfl, ?_⟩
      by_cases many : 57 ≤ r.bits
      · exact .inl many
      · exact .inr (List.drop_eq_nil_iff.mpr (by omega))

theorem refillRefills (r : BitReader) (sound : r.Sound) : ∃ r', r.refill = .ok r' ∧ Refilled r r' :=
  refillLoopRefills 9 r sound (by omega)

theorem peek32Window (r : BitReader) (sound : r.Sound) :
    ∃ r', r.peek32 = .ok (Bits.window 32 r.unread, r') ∧ Refilled r r' := by
  obtain ⟨r', run, refilled⟩ := refillRefills r sound
  have bits := refilled.sound.bits
  refine ⟨r', ?_, refilled⟩
  rw [peek32, run, Outcome.okBind, ← refilled.same, unread]
  by_cases many : r'.bits ≥ 32
  · have split := Bits.ofNatSplit 32 (r'.bits - 32) r'.acc
    rw [Nat.add_sub_cancel' many] at split
    rw [if_pos many, Outcome.shiftRightFits (by omega), Outcome.okBind, split, List.append_assoc,
      Bits.windowAppend _ _ (by simp), Bits.toNatOfNat]
    simp
  · have drained := refilledDrained refilled (by decide) many
    have fits : r'.acc * 2 ^ (32 - r'.bits) < 2 ^ 32 := by
      have width : (2 : Nat) ^ 32 = 2 ^ r'.bits * 2 ^ (32 - r'.bits) := by
        rw [Nat.mul_comm, Nat.pow_sub_mul_pow 2 (by omega)]
      rw [width]
      exact Nat.mul_lt_mul_of_pos_right refilled.sound.acc (Nat.two_pow_pos _)
    rw [if_neg many, Outcome.shiftLeftFits (by omega) (by omega), Outcome.okBind, drained,
      Bits.windowAppend _ _ (by simp; omega), Bits.toNatOfNat, Bits.lengthOfNat,
      Nat.mod_eq_of_lt refilled.sound.acc, Nat.mod_eq_of_lt fits, Bits.ofBytesNil, Bits.windowNil, Nat.add_zero]

theorem dropUnread (r : BitReader) (n : Nat) (enough : n ≤ r.bits) :
    (⟨r.data, r.pos, r.acc % 2 ^ (r.bits - n), r.bits - n⟩ : BitReader).unread = r.unread.drop n := by
  have tail := Bits.dropOfNat n (r.bits - n) r.acc
  rw [Nat.add_sub_cancel' enough] at tail
  rw [unread, unread, List.drop_append_of_le_length (by simpa using enough), tail, Bits.ofNatMod]

theorem consumeDrops {r r' : BitReader} (refilled : Refilled r r') (n : Nat) (narrow : n ≤ 32) :
    ∃ r'', r'.consume n = .ok r'' ∧ r''.Sound ∧ r''.unread = r.unread.drop n := by
  have bits := refilled.sound.bits
  rw [consume, ← refilled.same]
  by_cases enough : n ≤ r'.bits
  · by_cases less : r'.bits - n < 64
    · refine ⟨⟨r'.data, r'.pos, r'.acc % 2 ^ (r'.bits - n), r'.bits - n⟩, ?_,
        ⟨by simp only; omega, Nat.mod_lt _ (Nat.two_pow_pos _)⟩, dropUnread r' n enough⟩
      rw [if_pos less, maskFits less, Outcome.okBind, maskSub, Outcome.okBind, maskLow]
    · have zero : n = 0 := by omega
      refine ⟨⟨r'.data, r'.pos, r'.acc, r'.bits - n⟩, if_neg less, ?_, by simp [zero, unread]⟩
      exact ⟨by simp only; omega, by simpa [zero] using refilled.sound.acc⟩
  · have drained := refilledDrained refilled (by omega) enough
    have empty : r'.bits - n = 0 := by omega
    refine ⟨⟨r'.data, r'.pos, 0, 0⟩, ?_, ⟨by simp, by simp⟩, ?_⟩
    · rw [empty, if_pos (by decide), maskFits (by decide), Outcome.okBind, maskSub, Outcome.okBind]
      simp
    · have all : r'.unread.drop n = [] := List.drop_eq_nil_iff.mpr (by simp [unread, drained]; omega)
      rw [all]
      simp [unread, drained, Bits.ofNat]

theorem readBitsTakes (r : BitReader) (sound : r.Sound) (n : Nat) (positive : 1 ≤ n) (narrow : n ≤ 31)
    (enough : n ≤ r.unread.length) : ∃ r', r.readBits n = .ok (.ok (Bits.toNat (r.unread.take n)), r') ∧
      r'.Sound ∧ r'.unread = r.unread.drop n := by
  obtain ⟨r', run, refilled⟩ := refillRefills r sound
  have bits := refilled.sound.bits
  have inside : n ≤ r'.bits := by
    by_contra few
    have drained := refilledDrained refilled (by omega) few
    rw [← refilled.same] at enough
    simp [unread, drained] at enough
    omega
  refine ⟨⟨r'.data, r'.pos, r'.acc % 2 ^ (r'.bits - n), r'.bits - n⟩, ?_,
    ⟨by simp only; omega, Nat.mod_lt _ (Nat.two_pow_pos _)⟩, by rw [← refilled.same]; exact dropUnread r' n inside⟩
  have front : Bits.toNat (r'.unread.take n) = r'.acc / 2 ^ (r'.bits - n) % 2 ^ n := by
    have head := Bits.takeOfNat n (r'.bits - n) r'.acc
    rw [Nat.add_sub_cancel' inside] at head
    rw [unread, List.take_append_of_le_length (by simpa using inside), head, Bits.toNatOfNat]
  have reduce : r'.acc / 2 ^ (r'.bits - n) % 2 ^ 32 % 2 ^ n = r'.acc / 2 ^ (r'.bits - n) % 2 ^ n :=
    Nat.mod_mod_of_dvd _ (Nat.pow_dvd_pow 2 (by omega))
  rw [readBits, run, Outcome.okBind, if_neg (Nat.not_lt.mpr inside)]
  simp only [Outcome.shiftRightFits (by omega : r'.bits - n < 64), maskFits (by omega : r'.bits - n < 64),
    maskFits (by omega : n < 32), maskSub, Outcome.okBind, maskLow, reduce, ← refilled.same, front]

theorem readBitsShort (r : BitReader) (sound : r.Sound) (n : Nat) (short : r.unread.length < n) :
    ∃ r', r.readBits n = .ok (.error (.decompressError "unexpected end of bitstream"), r') ∧
      r'.Sound ∧ r'.unread = r.unread := by
  obtain ⟨r', run, refilled⟩ := refillRefills r sound
  have few := Nat.not_le.mp (refilledShort refilled short)
  exact ⟨r', by rw [readBits, run, Outcome.okBind, if_pos few], refilled.sound, refilled.same⟩

end BitReader
end Openpresser.Huffman
