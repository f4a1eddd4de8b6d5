import Openpresser.TokenStream

/-! When the decoding loop stops. Past the end of the stream the reader pads with
zeros and consuming saturates, so a literal that owns the all-zero code repeats
there forever; `read_bits` is the only call that notices the end. -/
namespace Openpresser.Huffman

def PaddingIsLiteral (table : HuffmanTable) : Prop :=
  ∃ sym len, table.decodeSymbol 0 = .ok (sym, len) ∧ sym < 256

/-- The stream is used up with no end-of-block codeword and no error on the way. -/
inductive Runout (table : HuffmanTable) : List Bool → Prop where
  | dry : Runout table []
  | literal {bits : List Bool} {sym len : Nat} (found : table.decodeSymbol (Bits.window 32 bits) = .ok (sym, len))
      (byte : sym < 256) (rest : Runout table (bits.drop len)) : Runout table bits
  | matched {bits : List Bool} {sym len : Nat} (found : table.decodeSymbol (Bits.window 32 bits) = .ok (sym, len))
      (goesOn : sym ≠ eob) (wide : ¬ sym < 256) (distance : 16 ≤ (bits.drop len).length)
      (rest : Runout table ((bits.drop len).drop 16)) : Runout table bits

theorem literalGoesOn {sym : Nat} (byte : sym < 256) : sym ≠ eob := fun same => by
  rw [same] at byte
  exact absurd byte (by decide)

theorem paddingSpins {table : HuffmanTable} (padding : PaddingIsLiteral table) (iterations : Nat) :
    decodeBits table iterations [] = .diverge := by
  obtain ⟨sym, len, found, byte⟩ := padding
  induction iterations with
  | zero => rfl
  | succ iterations ih =>
    rw [decodeBits, Bits.windowNil, found, Outcome.okBind]
    simp only [List.drop_nil, if_neg (literalGoesOn byte), if_pos byte, ih, Outcome.divergeBind]

theorem runoutSpins {table : HuffmanTable} (padding : PaddingIsLiteral table) {bits : List Bool}
    (runout : Runout table bits) (iterations : Nat) : decodeBits table iterations bits = .diverge := by
  induction runout generalizing iterations with
  | dry => exact paddingSpins padding iterations
  | literal found byte rest ih =>
    cases iterations with
    | zero => rfl
    | succ iterations =>
      rw [decodeBits, found, Outcome.okBind]
      simp only [if_neg (literalGoesOn byte), if_pos byte, ih, Outcome.divergeBind]
  | matched found goesOn wide distance rest ih =>
    cases iterations with
    | zero => rfl
    | succ iterations =>
      rw [decodeBits, found, Outcome.okBind]
      simp only [if_neg goesOn, if_neg wide, Outcome.ensurePass _ distance, Outcome.okBind, ih,
        Outcome.divergeBind]

theorem decodeBitsEnds {table : HuffmanTable} (proper : ProperCells table.decodeTable) (iterations : Nat)
    (bits : List Bool) (enough : bits.length < iterations) :
    (decodeBits table iterations bits).Returns ∨ (PaddingIsLiteral table ∧ Runout table bits) := by
  induction iterations generalizing bits with
  | zero => omega
  | succ iterations ih =>
    rw [decodeBits]
    rcases decodeSymbolProper proper (Bits.windowBound 32 bits) with ⟨⟨sym, len⟩, found, positive, _⟩ | failed
    case inr =>
      rw [failed]
      exact .inl trivial
    rw [found, Outcome.okBind]
    have progress : (bits.drop len).length < iterations ∨ bits = [] := by
      rw [List.length_drop]
      by_cases dry : bits = []
      · exact .inr dry
      · have remains := List.length_pos_iff.mpr dry
        simp only at positive
        exact .inl (by omega)
    by_cases stop : sym = eob
    · simp only [if_pos stop]
      exact .inl trivial
    by_cases byte : sym < 256
    · rcases progress with shorter | rfl
      · simp only [if_neg stop, if_pos byte]
        rcases ih _ shorter with returns | ⟨padding, runout⟩
        · exact .inl (Outcome.returnsBind returns fun _ => trivial)
        · exact .inr ⟨padding, .literal found byte runout⟩
      · rw [Bits.windowNil] at found
        exact .inr ⟨⟨sym, len, found, byte⟩, .dry⟩
    · simp only [if_neg stop, if_neg byte]
      by_cases distance : 16 ≤ (bits.drop len).length
      · have shorter : ((bits.drop len).drop 16).length < iterations := by
          rcases progress with shorter | rfl
          · rw [List.length_drop]; omega
          · simp at distance
        rw [Outcome.ensurePass _ distance, Outcome.okBind]
        rcases ih _ shorter with returns | ⟨padding, runout⟩
        · exact .inl (Outcome.returnsBind returns fun _ => trivial)
        · exact .inr ⟨padding, .matched found stop byte distance runout⟩
      · rw [Outcome.ensureFail _ distance]
        exact .inl trivial

theorem decodeLoopSpins {table : HuffmanTable} (proper : ProperCells table.decodeTable)
    (padding : PaddingIsLiteral table) (bitstream : Bytes) (runout : Runout table (Bits.ofBytes bitstream))
    (iterations : Nat) : decodeLoop table iterations (BitReader.new bitstream) = .diverge := by
  rw [decodeLoopBits proper _ (BitReader.newSound bitstream), BitReader.newUnread]
  exact runoutSpins padding runout iterations

/-- The loop returns within its bound unless the stream runs out onto a literal; and
then it is still going after any number of iterations. -/
theorem decodeTokensReturns (data bitstream : Bytes) (table : HuffmanTable) (consumed capacity : Nat)
    (read : deserialiseTable data = .ok (table, consumed)) :
    ((decodeTokens table bitstream capacity).Returns ↔
      ¬ (PaddingIsLiteral table ∧ Runout table (Bits.ofBytes bitstream))) ∧
    (PaddingIsLiteral table ∧ Runout table (Bits.ofBytes bitstream) →
      ∀ iterations, decodeLoop table iterations (BitReader.new bitstream) = .diverge) := by
  have proper := deserialiseProper read
  refine ⟨⟨?_, ?_⟩, fun ⟨padding, runout⟩ => decodeLoopSpins proper padding bitstream runout⟩
  · rintro returns ⟨padding, runout⟩
    rw [decodeTokens, decodeLoopSpins proper padding bitstream runout] at returns
    exact returns
  · intro apart
    rw [decodeTokensBits proper]
    rcases decodeBitsEnds proper (8 * bitstream.length + 1) (Bits.ofBytes bitstream)
      (by rw [Bits.lengthOfBytes]; omega) with returns | spinning
    · exact returns
    · exact absurd spinning apart

theorem soleDecodes {table : HuffmanTable} {sym : Nat} (tableFor : TableFor table [(sym, 1)])
    (usable : sym ≠ u16Max) : table.decodeSymbol 0 = .ok (sym, 1) := by
  rw [decodeSymbolLocated tableFor (by decide)]
  exact if_neg usable

theorem eobTableReturns : ∃ table, deserialiseTable [1, 0, 3, 2, 1] = .ok (table, 5) ∧
    (decodeTokens table [] 0).Returns := by
  obtain ⟨table, read, tableFor⟩ := soleRead eob (by decide) []
  refine ⟨table, read, (decodeTokensReturns _ [] table 5 0 read).1.mpr ?_⟩
  rintro ⟨⟨sym, len, found, byte⟩, _⟩
  cases Outcome.ok.inj ((soleDecodes tableFor (by decide)).symm.trans found)
  exact absurd byte (by decide)

theorem literalTableSpins : ∃ table, deserialiseTable [1, 0, 65, 0, 1] = .ok (table, 5) ∧
    ¬ (decodeTokens table [] 0).Returns ∧
    ∀ iterations, decodeLoop table iterations (BitReader.new []) = .diverge := by
  obtain ⟨table, read, tableFor⟩ := soleRead 65 (by decide) []
  have proper := deserialiseProper read
  have spins := decodeLoopSpins proper ⟨65, 1, soleDecodes tableFor (by decide), by decide⟩ [] .dry
  exact ⟨table, read, by rw [decodeTokens, spins]; exact id, spins⟩

end Openpresser.Huffman
