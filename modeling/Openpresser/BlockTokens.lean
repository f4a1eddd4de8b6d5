import Openpresser.Block
import Openpresser.Header

/-! A block taken apart: its two fields, and the tokens of its stream. -/
namespace Openpresser.Block
open Format (readU32)
open Huffman (decodeTokensReserving deserialiseTable tokenBytes)
open Lz (Token)
open MiddleOut (decodeBidirectional)

theorem readU32Field {data : Bytes} {start : Nat} (inside : start + 4 ≤ data.length) :
    ∃ v, readU32 data start = .ok v ∧ v.toNat = LittleEndian.decode ((data.drop start).take 4) := by
  obtain ⟨v, read, bytes⟩ := Format.readU32Inside data start inside
  refine ⟨v, read, ?_⟩
  rw [← bytes, Format.u32Bytes, LittleEndian.decodeEncodeBounded v.toNat_lt]

theorem blockFieldsRead {compressed : Bytes} (long : 10 ≤ compressed.length) : ∃ pivot leftCount,
    readU32 compressed 0 = .ok pivot ∧ pivot.toNat = pivotField compressed ∧
    readU32 compressed 4 = .ok leftCount ∧ leftCount.toNat = leftCountField compressed := by
  obtain ⟨pivot, readPivot, pivotValue⟩ := readU32Field (by omega : 0 + 4 ≤ compressed.length)
  obtain ⟨leftCount, readCount, countValue⟩ := readU32Field (by omega : 4 + 4 ≤ compressed.length)
  rw [List.drop_zero] at pivotValue
  exact ⟨pivot, leftCount, readPivot, pivotValue, readCount, countValue⟩

theorem reservingFits {table : Huffman.HuffmanTable} {bitstream : Bytes} {declared : Nat}
    (room : tokenBytes * declared ≤ isizeMax) (capacity : Nat) :
    decodeTokensReserving table bitstream declared = Huffman.decodeTokens table bitstream capacity := by
  rw [decodeTokensReserving, Outcome.assertPass room, Outcome.okBind]
  rfl

theorem fieldRoom (declared : UInt32) : tokenBytes * declared.toNat ≤ isizeMax := by
  have bound := declared.toNat_lt
  simp only [tokenBytes, isizeMax]
  omega

theorem halvesSliced (tokens : List Token) (count : Nat) (e : EngineError) (join : List Token → List Token → Result Bytes) :
    (do
      Outcome.ensure (count ≤ tokens.length) e
      let left ← Outcome.slice tokens 0 count
      let right ← Outcome.slice tokens count tokens.length
      join left right) = (do
      Outcome.ensure (count ≤ tokens.length) e
      join (tokens.take count) (tokens.drop count)) := by
  by_cases enough : count ≤ tokens.length
  · have back : (tokens.drop count).length ≤ tokens.length - count := Nat.le_of_eq List.length_drop
    simp only [Outcome.ensurePass _ enough, Outcome.okBind, Outcome.sliceInside (Nat.zero_le _) enough,
      Outcome.sliceInside enough (Nat.le_refl _), List.drop_zero, Nat.sub_zero, List.take_of_length_le back]
  · simp only [Outcome.ensureFail _ enough, Outcome.errBind]

theorem decompressBlockTokens {compressed : Bytes} {declared : Nat} (long : 10 ≤ compressed.length)
    (room : tokenBytes * declared ≤ isizeMax) :
    decompressBlock compressed declared = (do
      let tokens ← blockTokens compressed
      Outcome.ensure (leftCountField compressed ≤ tokens.length) (.decompressError
        ("left_count " ++ toString (leftCountField compressed) ++ " > total tokens " ++ toString tokens.length))
      decodeBidirectional (pivotField compressed) (tokens.take (leftCountField compressed))
        (tokens.drop (leftCountField compressed)) declared) := by
  obtain ⟨pivot, leftCount, readPivot, pivotValue, readCount, countValue⟩ := blockFieldsRead long
  simp only [decompressBlock, blockTokens, Outcome.ensurePass _ long, readPivot, readCount, Outcome.okBind,
    bind_assoc, pivotValue, countValue, reservingFits room 0, halvesSliced]

theorem blockTokensLong {compressed : Bytes} {tokens : List Token} (coded : blockTokens compressed = .ok tokens) :
    10 ≤ compressed.length := by
  simp only [blockTokens, Outcome.bindOk] at coded
  obtain ⟨tableBytes, sliced, ⟨table, consumed⟩, read, _⟩ := coded
  simp only [deserialiseTable, Outcome.bindOk] at read
  obtain ⟨_, two, _⟩ := read
  have enough := Outcome.ensureOk.mp two
  rw [(Outcome.sliceOk.mp sliced).2, List.length_take, List.length_drop] at enough
  omega

/-- Once the tokens are there, only the count of the left ones is checked. -/
theorem decompressFromTokens {compressed : Bytes} {tokens : List Token} (coded : blockTokens compressed = .ok tokens)
    {declared : Nat} (room : tokenBytes * declared ≤ isizeMax) : decompressBlock compressed declared = (do
      Outcome.ensure (leftCountField compressed ≤ tokens.length) (.decompressError
        ("left_count " ++ toString (leftCountField compressed) ++ " > total tokens " ++ toString tokens.length))
      decodeBidirectional (pivotField compressed) (tokens.take (leftCountField compressed))
        (tokens.drop (leftCountField compressed)) declared) := by
  rw [decompressBlockTokens (blockTokensLong coded) room, coded, Outcome.okBind]

end Openpresser.Block
