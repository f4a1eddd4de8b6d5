import Openpresser.TokenStream

/-! Tokens through the coder and back, whatever follows the bit stream: by the table
the encoder built, and by the one read back from its bytes. -/
namespace Openpresser.Huffman
open Lz (Token)

def ShortMatches (tokens : List Token) : Prop :=
  ∀ distance length, Token.matched distance length ∈ tokens → length.toNat ≤ 258

theorem shortSymbols {tokens : List Token} (short : ShortMatches tokens) : ∀ tok ∈ tokens, symbolOf tok < eob := by
  intro tok member
  cases tok with
  | literal b => exact Nat.lt_trans b.toNat_lt (by decide)
  | matched distance length =>
    have bound := short distance length member
    rw [symbolOf]
    exact Nat.lt_of_le_of_lt (Nat.add_le_add_left bound 256) (by decide)

/-- A token takes six bytes, so the second part is about every list that memory can hold. -/
theorem encodedTokensDecode (tokens : List Token) (short : ShortMatches tokens) :
    (∀ table bits, encodeTokens tokens = .ok (table, bits) →
      ∃ table', deserialiseTable (serialiseTable table) = .ok (table', (serialiseTable table).length) ∧
        ∀ (t : Bytes) (capacity : Nat), decodeTokens table (bits ++ t) capacity = .ok tokens ∧
          decodeTokens table' (bits ++ t) capacity = .ok tokens) ∧
    (6 * tokens.length ≤ isizeMax → ∃ table bits, encodeTokens tokens = .ok (table, bits)) := by
  have small := shortSymbols short
  constructor
  · intro table bits run
    rcases encodeTokensCases small with ⟨made, lengthsMap, bitstream, written, encoded⟩ | overflow
    · cases Outcome.ok.inj (run.symm.trans written)
      obtain ⟨table', read, tableFor'⟩ := encodedTableReads encoded []
      rw [List.append_nil] at read
      refine ⟨table', read, fun t capacity => ⟨?_, ?_⟩⟩
      · exact decodeEncoded encoded small encoded.tableFor t capacity
      · exact decodeEncoded encoded small tableFor' t capacity
    · rw [run] at overflow
      contradiction
  · intro memory
    have limit : isizeMax = 2 ^ 63 - 1 := rfl
    obtain ⟨table, lengthsMap, bitstream, written, _⟩ := encodeTokensFits small (by omega)
    exact ⟨table, bitstream, written⟩

theorem encodedTokensDecodeLongest :
    (∀ table bits, encodeTokens [.matched 65535 258, .literal 7, .matched 1 4] = .ok (table, bits) →
      ∃ table', deserialiseTable (serialiseTable table) = .ok (table', (serialiseTable table).length) ∧
        ∀ (t : Bytes) (capacity : Nat),
          decodeTokens table (bits ++ t) capacity = .ok [.matched 65535 258, .literal 7, .matched 1 4] ∧
          decodeTokens table' (bits ++ t) capacity = .ok [.matched 65535 258, .literal 7, .matched 1 4]) ∧
    (6 * [Token.matched 65535 258, .literal 7, .matched 1 4].length ≤ isizeMax →
      ∃ table bits, encodeTokens [.matched 65535 258, .literal 7, .matched 1 4] = .ok (table, bits)) :=
  encodedTokensDecode [.matched 65535 258, .literal 7, .matched 1 4] (by
    intro distance length member
    simp only [List.mem_cons, Token.matched.injEq, reduceCtorEq, List.not_mem_nil, or_false, false_or] at member
    rcases member with ⟨_, rfl⟩ | ⟨_, rfl⟩ <;> decide)

end Openpresser.Huffman
