import Openpresser.BlockRoundTrip
import Openpresser.Termination

/-! What the fields of a block are held against. The token count splits the stream,
so it must not exceed it; the pivot only sizes the buffers of the two sides. -/
namespace Openpresser.Block
open Huffman (decodeTokens deserialiseTable tokenBytes)
open Lz (Token detokenise)

theorem decompressBlockReserved {compressed raw : Bytes} {declared : Nat}
    (run : decompressBlock compressed declared = .ok raw) : tokenBytes * declared ≤ isizeMax := by
  simp only [decompressBlock, Huffman.decodeTokensReserving, Outcome.bindOk] at run
  obtain ⟨_, _, _, _, _, _, _, _, _, _, _, _, _, ⟨_, reserved, _⟩, _⟩ := run
  exact Outcome.assertOk.mp reserved

theorem decompressBlockFields (compressed : Bytes) (uncompressedLen : Nat) (tokens : List Token)
    (coded : blockTokens compressed = .ok tokens) :
    (tokenBytes * uncompressedLen ≤ isizeMax → tokens.length < leftCountField compressed →
      ∃ e, decompressBlock compressed uncompressedLen = .err e) ∧
    (∀ out, decompressBlock compressed uncompressedLen = .ok out → leftCountField compressed ≤ tokens.length) ∧
    (tokenBytes * uncompressedLen ≤ isizeMax → leftCountField compressed ≤ tokens.length →
      pivotField compressed ≤ uncompressedLen →
      ∃ left right, detokenise (tokens.take (leftCountField compressed)) (pivotField compressed) = .ok left ∧
        detokenise (tokens.drop (leftCountField compressed)) (uncompressedLen - pivotField compressed) = .ok right ∧
        decompressBlock compressed uncompressedLen = .ok (left ++ right)) := by
  refine ⟨fun room more => ?_, fun out decoded => ?_, fun room enough inside => ?_⟩
  · rw [decompressFromTokens coded room, Outcome.ensureFail _ (Nat.not_le_of_lt more), Outcome.errBind]
    exact ⟨_, rfl⟩
  · rw [decompressFromTokens coded (decompressBlockReserved decoded), Outcome.bindOk] at decoded
    obtain ⟨_, counted, _⟩ := decoded
    exact Outcome.ensureOk.mp counted
  · obtain ⟨left, right, decodedLeft, decodedRight, _, _, both⟩ := MiddleOut.decodeSides inside
      (tokens.take (leftCountField compressed)) (tokens.drop (leftCountField compressed))
    refine ⟨left, right, decodedLeft, decodedRight, ?_⟩
    rw [decompressFromTokens coded room, Outcome.ensurePass _ enough, Outcome.okBind, both]

theorem decompressBlockFieldsNine : ∃ compressed left right, blockTokens compressed = .ok (left ++ right) ∧
    left ≠ [] ∧ right ≠ [] ∧ leftCountField compressed = left.length ∧ pivotField compressed ≤ 9 ∧
    (tokenBytes * 9 ≤ isizeMax → (left ++ right).length < leftCountField compressed →
      ∃ e, decompressBlock compressed 9 = .err e) ∧
    (∀ out, decompressBlock compressed 9 = .ok out → leftCountField compressed ≤ (left ++ right).length) ∧
    (tokenBytes * 9 ≤ isizeMax → leftCountField compressed ≤ (left ++ right).length → pivotField compressed ≤ 9 →
      ∃ front back,
        detokenise ((left ++ right).take (leftCountField compressed)) (pivotField compressed) = .ok front ∧
        detokenise ((left ++ right).drop (leftCountField compressed)) (9 - pivotField compressed) = .ok back ∧
        decompressBlock compressed 9 = .ok (front ++ back)) := by
  let block : Bytes := [1, 2, 3, 4, 5, 6, 7, 8, 9]
  obtain ⟨compressed, _, pivot, left, right, _, _, _, layout⟩ := compressBlockFits block ⟨9, 32, false⟩ (by decide)
  have fields := layoutFields layout (by decide)
  obtain ⟨pivot', chosen, _, middle⟩ := MiddleOut.pivotInside block
  cases Outcome.ok.inj (chosen.symm.trans (MiddleOut.encodeSides layout.tokens).1)
  obtain ⟨low, high⟩ := middle (by decide)
  have length : block.length = 9 := rfl
  have front : block.take pivot ≠ [] := by
    rw [ne_eq, ← List.length_eq_zero_iff, List.length_take]
    omega
  have back : block.drop pivot ≠ [] := by
    rw [ne_eq, ← List.length_eq_zero_iff, List.length_drop]
    omega
  exact ⟨compressed, left, right, fields.coded, parseFilled front layout.parseLeft, parseFilled back layout.parseRight,
    fields.leftCount, by rw [fields.pivot]; omega, decompressBlockFields compressed 9 _ fields.coded⟩

/-! A block without tokens whose pivot is one. -/
theorem noTokensCoded (fields : Bytes) (eight : fields.length = 8) : blockTokens (fields ++ [1, 0, 3, 2, 1]) = .ok [] := by
  obtain ⟨table, read, tableFor⟩ := Huffman.soleRead Huffman.eob (by decide) []
  have read' : deserialiseTable [1, 0, 3, 2, 1] = .ok (table, 5) := read
  have decoded : decodeTokens table [] 0 = .ok [] := by
    rw [Huffman.decodeTokensBits (Huffman.deserialiseProper read)]
    change Huffman.decodeBits table 1 [] = _
    rw [Huffman.decodeBits, Bits.windowNil, Huffman.soleDecodes tableFor (by decide), Outcome.okBind]
    exact if_pos rfl
  have size : (fields ++ [1, 0, 3, 2, 1] : Bytes).length = 13 := by
    rw [List.length_append, eight]
    rfl
  have tableBytes : (Outcome.slice (fields ++ [1, 0, 3, 2, 1]) 8 13 : Result Bytes) = .ok [1, 0, 3, 2, 1] := by
    rw [Outcome.sliceInside (by decide) (Nat.le_of_eq size.symm), List.drop_left' eight]
    rfl
  have bitstream : (Outcome.slice (fields ++ [1, 0, 3, 2, 1]) (8 + 5) 13 : Result Bytes) = .ok [] := by
    rw [Outcome.sliceInside (by decide) (Nat.le_of_eq size.symm)]
    simp
  rw [blockTokens, size, tableBytes, Outcome.okBind, read', Outcome.okBind]
  simp only [bitstream, Outcome.okBind, decoded]

def pivotAlone : Bytes := [1, 0, 0, 0, 0, 0, 0, 0] ++ [1, 0, 3, 2, 1]

theorem pivotUnchecked : blockTokens pivotAlone = .ok [] ∧ decompressBlock pivotAlone 1 = .ok [] ∧
    ¬ ∃ left, detokenise (([] : List Token).take (leftCountField pivotAlone)) 0 = .ok left ∧
      left.length = pivotField pivotAlone := by
  have coded : blockTokens pivotAlone = .ok [] := noTokensCoded _ rfl
  have enough : leftCountField pivotAlone ≤ ([] : List Token).length := by decide
  have pivot : pivotField pivotAlone = 1 := by decide
  refine ⟨coded, ?_, ?_⟩
  · rw [decompressFromTokens coded (by decide), Outcome.ensurePass _ enough, Outcome.okBind, pivot]
    rfl
  · rintro ⟨left, decoded, length⟩
    rw [List.take_nil] at decoded
    cases Outcome.ok.inj decoded
    rw [pivot] at length
    exact absurd length (by decide)

end Openpresser.Block
