import Openpresser.BurstErrors
import Openpresser.Library.RegisterPeriod
import Mathlib.Tactic.NormNum.Prime

/-! Changed bits in what a block decodes to. The register of this polynomial runs through
every state but zero before it repeats one, so two bits have to lie half a gigabyte apart
to cancel, and then they do. -/
namespace Openpresser.Format
open ShiftRegister (ahead aheadSteps lowBits minimalPeriodPrimes shiftIn stepsIterate top)

def messageBits (data : Bytes) : List Bool := data.flatMap fun b => lowBits 8 b.toNat

theorem crcSame {data data' : Bytes} : crc32 data' = crc32 data ↔
    (messageBits data').foldl (shiftIn crcPolynomial) crcStart =
      (messageBits data).foldl (shiftIn crcPolynomial) crcStart := by
  rw [← UInt32.toBitVec_inj, crc32IsRun, crc32IsRun, BitVec.xor_left_inj,
    ShiftRegister.runBits crcPolynomial (by decide), ShiftRegister.runBits crcPolynomial (by decide)]
  rfl

/-! The period of the register. -/
theorem topReturns {n : Nat} (small : n < 2 ^ 32) :
    Function.IsPeriodicPt (ShiftRegister.step crcPolynomial) n (top 32) ↔
      ahead crcPolynomial (Bits.ofNat 32 n) = top 32 := by
  rw [aheadSteps, Bits.toNatOfNat, Nat.mod_eq_of_lt small, stepsIterate]
  rfl

theorem topPeriod : Function.minimalPeriod (ShiftRegister.step crcPolynomial) (top 32) = 2 ^ 32 - 1 := by
  refine minimalPeriodPrimes ((topReturns (by decide)).mpr (by decide +kernel)) fun p prime divides => ?_
  have factors : 2 ^ 32 - 1 = 3 * 5 * 17 * 257 * 65537 := rfl
  have factor : p = 3 ∨ p = 5 ∨ p = 17 ∨ p = 257 ∨ p = 65537 := by
    rw [factors, prime.dvd_mul, prime.dvd_mul, prime.dvd_mul, prime.dvd_mul,
      Nat.prime_dvd_prime_iff_eq prime (by norm_num), Nat.prime_dvd_prime_iff_eq prime (by norm_num),
      Nat.prime_dvd_prime_iff_eq prime (by norm_num), Nat.prime_dvd_prime_iff_eq prime (by norm_num),
      Nat.prime_dvd_prime_iff_eq prime (by norm_num)] at divides
    omega
  rcases factor with rfl | rfl | rfl | rfl | rfl
  all_goals
    rw [topReturns (by decide)]
    decide +kernel

theorem polynomialPeriod (n : Nat) :
    Function.IsPeriodicPt (ShiftRegister.step crcPolynomial) n crcPolynomial ↔ 2 ^ 32 - 1 ∣ n := by
  have later : crcPolynomial = (ShiftRegister.step crcPolynomial)^[32] (top 32) := by
    rw [← stepsIterate]
    decide +kernel
  have cycles : top 32 ∈ Function.periodicPts (ShiftRegister.step crcPolynomial) := by
    rw [← Function.minimalPeriod_pos_iff_mem_periodicPts, topPeriod]
    decide
  have period := Function.minimalPeriod_apply_iterate cycles 32
  rw [← later, topPeriod] at period
  rw [Function.isPeriodicPt_iff_minimalPeriod_dvd, period]

theorem crcPair {data data' : Bytes} {front middle back : List Bool} {b d : Bool}
    (original : messageBits data = front ++ b :: (middle ++ d :: back))
    (changed : messageBits data' = front ++ (!b) :: (middle ++ (!d) :: back)) :
    crc32 data' = crc32 data ↔ 2 ^ 32 - 1 ∣ middle.length + 1 := by
  rw [crcSame, original, changed, ShiftRegister.twoFlips crcPolynomial rfl, polynomialPeriod]

theorem crcBitBurst {data data' : Bytes} {front m m' back : List Bool}
    (original : messageBits data = front ++ m ++ back) (changed : messageBits data' = front ++ m' ++ back)
    (length : m.length = m'.length) (few : m.length ≤ 32) (apart : m ≠ m') : crc32 data' ≠ crc32 data := by
  rw [ne_eq, crcSame, original, changed]
  intro same
  exact apart (ShiftRegister.bitBurst crcPolynomial rfl crcStart front back length few same.symm)

end Openpresser.Format

namespace Openpresser.Archive
open Format (crc32 messageBits readHeader)

/-- Some of 32 consecutive bits changed, or two of a block that is no longer than half a gigabyte. -/
inductive BitErrors (original raw : Bytes) : Prop where
  | burst {front m m' back : List Bool} (before : messageBits original = front ++ m ++ back)
      (after : messageBits raw = front ++ m' ++ back) (length : m.length = m'.length) (few : m.length ≤ 32)
      (apart : m ≠ m') : BitErrors original raw
  | pair {front middle back : List Bool} {b d : Bool}
      (before : messageBits original = front ++ b :: (middle ++ d :: back))
      (after : messageBits raw = front ++ (!b) :: (middle ++ (!d) :: back))
      (near : middle.length + 1 < 2 ^ 32 - 1) : BitErrors original raw

theorem bitErrorsApart {original raw : Bytes} (errors : BitErrors original raw) : crc32 raw ≠ crc32 original := by
  cases errors with
  | burst before after length few apart => exact Format.crcBitBurst before after length few apart
  | pair before after near =>
    rw [ne_eq, Format.crcPair before after]
    intro divides
    have far := Nat.le_of_dvd (Nat.succ_pos _) divides
    omega

/-- Two changed bits escape the checksum exactly at multiples of 2^32 - 1; errors nearer to each
other, and bursts at any bit, are reported by both readers. -/
theorem bitErrorsReported :
    (∀ (data data' : Bytes) (front middle back : List Bool) (b d : Bool),
      messageBits data = front ++ b :: (middle ++ d :: back) →
      messageBits data' = front ++ (!b) :: (middle ++ (!d) :: back) →
      (crc32 data' = crc32 data ↔ 2 ^ 32 - 1 ∣ middle.length + 1)) ∧
    (∀ input header front entry rest stop original raw,
      readHeader input = .ok (header, front ++ entry :: rest, stop) →
      DecodedAt input (stop + payloadLength front) entry raw → entry.crc32 = crc32 original → BitErrors original raw →
      (∀ out, header.originalSize.toNat ≤ isizeMax → decompressFrom input front stop [] = .ok out →
        decompress input = .err .checksumMismatch) ∧
      (∀ total, verifyFrom input 0 front stop 0 = .ok total → verify input = .err .checksumMismatch)) := by
  refine ⟨fun data data' front middle back b d original changed => Format.crcPair original changed, ?_⟩
  intro input header front entry rest stop original raw read block stored errors
  exact badBlockReported read block (stored ▸ bitErrorsApart errors)

theorem bitErrorsReportedPair :
    ∃ input, decompress input = .err .checksumMismatch ∧ verify input = .err .checksumMismatch := by
  obtain ⟨input, header, entry, read, block, stored, reserved⟩ := storedUnder [14] (by decide : ([7] : Bytes).length ≤ 2 ^ 31)
  -- the first and the fourth bit
  have errors : BitErrors [14] [7] :=
    @BitErrors.pair [14] [7] [] [true, true] [false, false, false, false] false true (by decide) (by decide)
      (by decide)
  have reported := bitErrorsReported.2 input header [] entry [] 38 [14] [7] read block stored errors
  exact ⟨input, reported.1 [] reserved rfl, reported.2 0 rfl⟩

end Openpresser.Archive
