import Openpresser.PrefixCode
import Openpresser.TableBytes

/-! A table written and read back codes and decodes as before, although the reader
works from a shorter length map. Both codes depend on the sorted lengths alone. -/
namespace Openpresser.Huffman
open CanonicalCode (code kraft span)

structure SameCode (table table' : HuffmanTable) (lengthsMap : List Nat) : Prop where
  lengths : table'.lengths = table.lengths
  decode : ∀ word < 2 ^ 32, table'.decodeSymbol word = table.decodeSymbol word
  encode : ∀ sym len, lengthsMap[sym]? = some len → 0 < len →
    ∃ code, table.encodeSymbol sym = .ok (code, len) ∧ table'.encodeSymbol sym = .ok (code, len)

theorem sameCode {table table' : HuffmanTable} {lengthsMap : List Nat} (valid : ValidMap lengthsMap)
    (tableFor : TableFor table (sortedLengths lengthsMap)) (tableFor' : TableFor table' (sortedLengths lengthsMap)) :
    SameCode table table' lengthsMap where
  lengths := tableFor'.lengths.trans tableFor.lengths.symm
  decode := fun word bound => by rw [decodeSymbolLocated tableFor' bound, decodeSymbolLocated tableFor bound]
  encode := fun sym len found positive => by
    have member : (sym, len) ∈ sortedLengths lengthsMap :=
      (sortedPerm lengthsMap).mem_iff.mpr ((presentMember valid.small).mpr ⟨positive, found⟩)
    obtain ⟨i, place⟩ := List.getElem?_of_mem member
    exact ⟨_, Outcome.indexOk.mpr (tableFor.encode i _ place), Outcome.indexOk.mpr (tableFor'.encode i _ place)⟩

theorem fewEntries {entries : List (Nat × Nat)} {n : Nat} (valid : ValidEntries entries n) :
    entries.length ≤ 2 ^ maxCodeLen := by
  -- every length takes a cell of its own
  have cells : entries.length ≤ kraft maxCodeLen entries := by
    rw [kraft, ← List.length_map (f := span maxCodeLen)]
    refine List.length_le_sum_of_one_le _ fun width member => ?_
    obtain ⟨e, _, rfl⟩ := List.mem_map.mp member
    exact CanonicalCode.spanPositive maxCodeLen e
  exact Nat.le_trans cells valid.space

theorem sortedCount (lengthsMap : List Nat) :
    (sortedLengths lengthsMap).length = (lengthsMap.filter (0 < ·)).length := by
  rw [(sortedPerm lengthsMap).length_eq, ← presentLengths, List.length_map]

theorem serialisedReadsBack (lengthsMap : List Nat) (small : lengthsMap.length ≤ 65535)
    (lengths : KraftLengths lengthsMap) :
    ∃ table, fromLengths lengthsMap = .ok table ∧ ∀ rest : Bytes,
      ∃ table', deserialiseTable (serialiseTable table ++ rest) =
          .ok (table', 2 + 3 * (lengthsMap.filter (0 < ·)).length) ∧
        (serialiseTable table).length = 2 + 3 * (lengthsMap.filter (0 < ·)).length ∧
        SameCode table table' lengthsMap := by
  have valid := (validIff (Nat.le_succ_of_le small)).mpr lengths
  obtain ⟨table, run, tableFor⟩ := fromLengthsTable valid
  have few : (sortedLengths lengthsMap).length < 65536 :=
    Nat.lt_of_le_of_lt (fewEntries (validEntries valid)) (by decide)
  have size : (serialiseTable table).length = 2 + 3 * (lengthsMap.filter (0 < ·)).length := by
    rw [lengthSerialiseTable, tableFor.lengths, sortedCount]
  refine ⟨table, run, fun rest => ?_⟩
  obtain ⟨table', read, tableFor'⟩ := deserialiseSerialised valid tableFor.lengths few rest
  exact ⟨table', by rw [read, size], size, sameCode valid tableFor tableFor'⟩

theorem serialisedReadsBackIncomplete : ∃ table, fromLengths [2, 0, 1] = .ok table ∧ ∀ rest : Bytes,
    ∃ table', deserialiseTable (serialiseTable table ++ rest) = .ok (table', 2 + 3 * 2) ∧
      (serialiseTable table).length = 2 + 3 * 2 ∧ SameCode table table' [2, 0, 1] :=
  serialisedReadsBack [2, 0, 1] (by decide) ⟨by decide, by decide⟩

end Openpresser.Huffman
