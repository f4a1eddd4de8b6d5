import Openpresser.Crc
import Openpresser.RoundTrip

/-! Changes within four consecutive bytes. The checksum tells the two messages apart,
so both archive loops stop at the block as soon as they have decoded it. -/
namespace Openpresser.Archive
open Block (decompressBlock)
open Format (BlockEntry PpmoHeader crc32 readHeader)

def Burst (original raw : Bytes) : Prop :=
  ∃ a m m' b, original = a ++ m ++ b ∧ raw = a ++ m' ++ b ∧ m.length = m'.length ∧ m.length ≤ 4 ∧ m ≠ m'

theorem crcBurst (a b : Bytes) {m m' : Bytes} (length : m.length = m'.length) (few : m.length ≤ 4)
    (apart : m ≠ m') : crc32 (a ++ m ++ b) ≠ crc32 (a ++ m' ++ b) := by
  intro same
  have registers := congrArg UInt32.toBitVec same
  rw [Format.crc32IsRun, Format.crc32IsRun] at registers
  exact apart (ShiftRegister.burstBetween Format.crcPolynomial rfl Format.crcStart a b length (by omega)
    (BitVec.xor_left_inj _ |>.mp registers))

theorem burstApart {original raw : Bytes} (burst : Burst original raw) : crc32 raw ≠ crc32 original := by
  obtain ⟨a, m, m', b, rfl, rfl, length, few, apart⟩ := burst
  exact (crcBurst a b length few apart).symm

structure DecodedAt (input : Bytes) (dataOffset : Nat) (entry : BlockEntry) (raw : Bytes) : Prop where
  inside : dataOffset + entry.compressedLen.toNat ≤ input.length
  decoded : decompressBlock ((input.drop dataOffset).take entry.compressedLen.toNat)
    entry.uncompressedLen.toNat = .ok raw

/-! The loops, cut in front of a block. -/
theorem decompressFromAppend (input : Bytes) (front rest : List BlockEntry) (dataOffset : Nat) (out : Bytes) :
    decompressFrom input (front ++ rest) dataOffset out = decompressFrom input front dataOffset out >>= fun out =>
      decompressFrom input rest (dataOffset + payloadLength front) out := by
  induction front generalizing dataOffset out with
  | nil => rfl
  | cons entry front ih =>
    rw [List.cons_append, decompressFrom, decompressFrom, payloadLength, List.map_cons, List.sum_cons,
      ← payloadLength, ← Nat.add_assoc]
    simp only [ih, bind_assoc]

theorem verifyFromAppend (input : Bytes) (i : Nat) (front rest : List BlockEntry) (dataOffset total : Nat) :
    verifyFrom input i (front ++ rest) dataOffset total = verifyFrom input i front dataOffset total >>= fun total =>
      verifyFrom input (i + front.length) rest (dataOffset + payloadLength front) total := by
  induction front generalizing i dataOffset total with
  | nil => rfl
  | cons entry front ih =>
    have number : i + (entry :: front).length = i + 1 + front.length := by
      rw [List.length_cons]
      omega
    rw [List.cons_append, verifyFrom, verifyFrom, payloadLength, List.map_cons, List.sum_cons, ← payloadLength,
      ← Nat.add_assoc, number]
    simp only [ih, bind_assoc]

theorem decompressFromRefuses {input : Bytes} {dataOffset : Nat} {entry : BlockEntry} {raw : Bytes}
    (block : DecodedAt input dataOffset entry raw) (bad : crc32 raw ≠ entry.crc32) (rest : List BlockEntry)
    (out : Bytes) : decompressFrom input (entry :: rest) dataOffset out = .err .checksumMismatch := by
  rw [decompressFrom]
  simp only [Outcome.ensurePass _ block.inside, Outcome.sliceInside (Nat.le_add_right _ _) block.inside,
    Nat.add_sub_cancel_left, Outcome.okBind, block.decoded, Outcome.ensureFail _ bad, Outcome.errBind]

theorem verifyFromRefuses {input : Bytes} {dataOffset : Nat} {entry : BlockEntry} {raw : Bytes}
    (block : DecodedAt input dataOffset entry raw) (bad : crc32 raw ≠ entry.crc32) (rest : List BlockEntry)
    (i total : Nat) : verifyFrom input i (entry :: rest) dataOffset total = .err .checksumMismatch := by
  rw [verifyFrom]
  simp only [Outcome.ensurePass _ block.inside, Outcome.sliceInside (Nat.le_add_right _ _) block.inside,
    Nat.add_sub_cancel_left, Outcome.okBind, block.decoded, Outcome.ensureFail _ bad, Outcome.errBind]

theorem badBlockReported {input : Bytes} {header : PpmoHeader} {front rest : List BlockEntry} {entry : BlockEntry}
    {stop : Nat} {raw : Bytes} (read : readHeader input = .ok (header, front ++ entry :: rest, stop))
    (block : DecodedAt input (stop + payloadLength front) entry raw) (bad : crc32 raw ≠ entry.crc32) :
    (∀ out, header.originalSize.toNat ≤ isizeMax → decompressFrom input front stop [] = .ok out →
      decompress input = .err .checksumMismatch) ∧
    (∀ total, verifyFrom input 0 front stop 0 = .ok total → verify input = .err .checksumMismatch) := by
  constructor
  · intro out reserved reached
    simp only [decompress, read, Outcome.okBind, Outcome.assertPass reserved, decompressFromAppend, reached,
      decompressFromRefuses block bad, Outcome.errBind]
  · intro total reached
    simp only [verify, read, Outcome.okBind, verifyFromAppend, reached, verifyFromRefuses block bad, Outcome.errBind]

/-- A loop gets to the block by going through the ones in front of it; `decompress` reserves its output first. -/
theorem burstsReported :
    (∀ a b m m' : Bytes, m.length = m'.length → m.length ≤ 4 → m ≠ m' →
      crc32 (a ++ m ++ b) ≠ crc32 (a ++ m' ++ b)) ∧
    (∀ input header front entry rest stop original raw,
      readHeader input = .ok (header, front ++ entry :: rest, stop) →
      DecodedAt input (stop + payloadLength front) entry raw → entry.crc32 = crc32 original → Burst original raw →
      (∀ out, header.originalSize.toNat ≤ isizeMax → decompressFrom input front stop [] = .ok out →
        decompress input = .err .checksumMismatch) ∧
      (∀ total, verifyFrom input 0 front stop 0 = .ok total → verify input = .err .checksumMismatch)) := by
  refine ⟨fun a b m m' length few apart => crcBurst a b length few apart, ?_⟩
  intro input header front entry rest stop original raw read block stored burst
  exact badBlockReported read block (stored ▸ burstApart burst)

/-- An archive of one block, under the checksum of other bytes. -/
theorem storedUnder (original : Bytes) {raw : Bytes} (small : raw.length ≤ 2 ^ 31) : ∃ input header entry,
    readHeader input = .ok (header, [entry], 38) ∧ DecodedAt input 38 entry raw ∧ entry.crc32 = crc32 original ∧
      header.originalSize.toNat ≤ isizeMax := by
  obtain ⟨c, _, laidOut⟩ := Block.compressBlockFits raw ⟨raw.length, 32, false⟩ (by omega)
  have decoded := Block.decompressLayout laidOut (by omega)
  let entry : BlockEntry := ⟨UInt32.ofNat c.length, UInt32.ofNat raw.length, crc32 original⟩
  have size : entry.compressedLen.toNat = c.length := UInt32.toNat_ofNat_of_lt' (Block.laidOutFits laidOut small)
  have length : entry.uncompressedLen.toNat = raw.length :=
    UInt32.toNat_ofNat_of_lt' (Nat.lt_of_le_of_lt small (by decide))
  have head : (Format.writeHeader ⟨0, 1, 0, 0⟩ [entry]).length = 38 := Format.lengthWriteHeader _ _
  refine ⟨_, ⟨0, 1, 0, 0⟩, entry, Format.readHeaderOfWritten ⟨0, 1, 0, 0⟩ [entry] c rfl, ⟨?_, ?_⟩, rfl, Nat.zero_le _⟩
  · rw [List.length_append, head, size]
  · rw [List.drop_left' head, size, List.take_length, length]
    exact decoded

theorem burstsReportedByte :
    ∃ input, decompress input = .err .checksumMismatch ∧ verify input = .err .checksumMismatch := by
  obtain ⟨input, header, entry, read, block, stored, reserved⟩ := storedUnder [8] (by decide : ([7] : Bytes).length ≤ 2 ^ 31)
  have reported := burstsReported.2 input header [] entry [] 38 [8] [7] read block stored
    ⟨[], [8], [7], [], rfl, rfl, rfl, by decide, by decide⟩
  exact ⟨input, reported.1 [] reserved rfl, reported.2 0 rfl⟩

end Openpresser.Archive
