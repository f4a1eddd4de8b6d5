import Openpresser.PrefixCode
import Openpresser.Termination

/-! What a decoded stream says about the bits it was decoded from. The reader does
not notice that it consumes padding, so the last codeword may lie partly or wholly
behind the data. -/
namespace Openpresser.Huffman
open Lz (Token)

/-- The end-of-block codeword that ends the run is completed by padding zeros. -/
inductive PaddedEnd (table : HuffmanTable) : List Bool → Prop where
  | cut {bits : List Bool} {len : Nat} (found : table.decodeSymbol (Bits.window 32 bits) = .ok (eob, len))
      (few : bits.length < len) : PaddedEnd table bits
  | literal {bits : List Bool} {sym len : Nat} (found : table.decodeSymbol (Bits.window 32 bits) = .ok (sym, len))
      (byte : sym < 256) (rest : PaddedEnd table (bits.drop len)) : PaddedEnd table bits
  | matched {bits : List Bool} {sym len : Nat} (found : table.decodeSymbol (Bits.window 32 bits) = .ok (sym, len))
      (goesOn : sym ≠ eob) (wide : ¬ sym < 256) (distance : 16 ≤ (bits.drop len).length)
      (rest : PaddedEnd table ((bits.drop len).drop 16)) : PaddedEnd table bits

/-- `bits` start with the codewords of `tokens`, the distance behind every match, and the end-of-block codeword. -/
def StartsWith (table : HuffmanTable) (tokens : List Token) (bits : List Bool) : Prop :=
  (∀ sym ∈ tokens.map symbolOf ++ [eob], HasCode table sym) ∧ streamBits table tokens <+: bits

structure Faithful (table : HuffmanTable) (bitstream : Bytes) (capacity : Nat) : Prop where
  decoded : ∀ tokens, decodeTokens table bitstream capacity = .ok tokens →
    StartsWith table tokens (Bits.ofBytes bitstream)
  incomplete : (¬ ∃ tokens, StartsWith table tokens (Bits.ofBytes bitstream)) →
    (decodeTokens table bitstream capacity).Fails

theorem startsCons {table : HuffmanTable} {tok : Token} {tokens : List Token} {bits rest : List Bool}
    (coded : HasCode table (symbolOf tok)) (front : bits = tokenBits table tok ++ rest)
    (tail : StartsWith table tokens rest) : StartsWith table (tok :: tokens) bits := by
  obtain ⟨codes, after, split⟩ := tail
  refine ⟨?_, after, by rw [front, ← split, streamBitsCons, List.append_assoc]⟩
  intro sym member
  rw [List.map_cons, List.cons_append] at member
  rcases List.mem_cons.mp member with rfl | later
  · exact coded
  · exact codes sym later

theorem startsPositive {table : HuffmanTable} {tokens : List Token} {bits : List Bool}
    (starts : StartsWith table tokens bits) : 0 < bits.length := by
  have long := streamBitsLong starts.1
  have bound := starts.2.length_le
  omega

theorem literalBits (table : HuffmanTable) {sym : Nat} (byte : sym < 256) :
    symbolOf (.literal (UInt8.ofNat sym)) = sym ∧
      tokenBits table (.literal (UInt8.ofNat sym)) = symbolBits table sym := by
  have symbol : symbolOf (.literal (UInt8.ofNat sym)) = sym := UInt8.toNat_ofNat_of_lt' byte
  exact ⟨symbol, by rw [tokenBits, symbol, distanceBits, List.append_nil]⟩

theorem matchedBits (table : HuffmanTable) {sym : Nat} (wide : ¬ sym < 256) (small : sym < 65536)
    {distance : List Bool} (sixteen : distance.length = 16) :
    symbolOf (.matched (UInt16.ofNat (Bits.toNat distance)) (UInt16.ofNat ((sym - 256) % 65536))) = sym ∧
      tokenBits table (.matched (UInt16.ofNat (Bits.toNat distance)) (UInt16.ofNat ((sym - 256) % 65536))) =
        symbolBits table sym ++ distance := by
  have symbol :
      symbolOf (.matched (UInt16.ofNat (Bits.toNat distance)) (UInt16.ofNat ((sym - 256) % 65536))) = sym := by
    rw [symbolOf, UInt16.toNat_ofNat', Nat.mod_mod, Nat.mod_eq_of_lt (by omega)]
    omega
  have bound := Bits.toNatBound distance
  have field := Bits.ofNatToNat distance
  rw [sixteen] at bound field
  refine ⟨symbol, ?_⟩
  rw [tokenBits, symbol, distanceBits, UInt16.toNat_ofNat', Nat.mod_eq_of_lt bound, field]

section
variable {lengthsMap : List Nat} {table : HuffmanTable} (valid : ValidMap lengthsMap)
  (run : fromLengths lengthsMap = .ok table)
include valid run

/-- A recognised codeword stands in the bits as far as they go. -/
theorem recognised {bits : List Bool} {sym len : Nat}
    (found : table.decodeSymbol (Bits.window 32 bits) = .ok (sym, len)) :
    HasCode table sym ∧ (symbolBits table sym).length = len ∧
      (len ≤ bits.length → bits = symbolBits table sym ++ bits.drop len) := by
  obtain ⟨c, codes, onTop⟩ := decodedOnTop valid run (Bits.windowBound 32 bits) found
  have place := Outcome.indexOk.mp codes.1
  have short := (codesBound valid run codes).2
  have fifteen : maxCodeLen = 15 := rfl
  have word : symbolBits table sym = Bits.ofNat len c := by rw [symbolBits, place]
  refine ⟨⟨c, len, place, codes.2, short⟩, by rw [word, Bits.lengthOfNat], fun enough => ?_⟩
  rw [OnTop, Bits.windowTop 32 len bits (by omega), List.take_append_of_le_length enough] at onTop
  have size : (bits.take len).length = len := by
    rw [List.length_take]
    omega
  have front := Bits.ofNatToNat (bits.take len)
  rw [size, onTop] at front
  rw [word, front, List.take_append_drop]

theorem recognisedSmall {bits : List Bool} {sym len : Nat}
    (found : table.decodeSymbol (Bits.window 32 bits) = .ok (sym, len)) : sym < 65536 := by
  obtain ⟨c, codes, _⟩ := decodedOnTop valid run (Bits.windowBound 32 bits) found
  have inside := (validEntries valid).inside _ (codesMember valid run codes)
  exact Nat.lt_of_lt_of_le inside valid.small

theorem decodedStarts (iterations : Nat) {bits : List Bool} {tokens : List Token}
    (decoded : decodeBits table iterations bits = .ok tokens) (whole : ¬ PaddedEnd table bits) :
    StartsWith table tokens bits := by
  induction iterations generalizing bits tokens with
  | zero => contradiction
  | succ iterations ih =>
    rw [decodeBits, Outcome.bindOk] at decoded
    obtain ⟨⟨sym, len⟩, found, decoded⟩ := decoded
    obtain ⟨coded, size, front⟩ := recognised valid run found
    by_cases stop : sym = eob
    · rw [stop] at found coded size front
      simp only [if_pos stop] at decoded
      cases Outcome.ok.inj decoded
      have enough : len ≤ bits.length := Nat.le_of_not_lt fun few => whole (.cut found few)
      refine ⟨by simpa using coded, bits.drop len, ?_⟩
      rw [streamBits, List.flatMap_nil, List.nil_append]
      exact (front enough).symm
    simp only [if_neg stop] at decoded
    by_cases byte : sym < 256
    · rw [if_pos byte, Outcome.bindOk] at decoded
      obtain ⟨rest, later, same⟩ := decoded
      cases Outcome.ok.inj same
      have tail := ih later fun padded => whole (.literal found byte padded)
      have remains := startsPositive tail
      rw [List.length_drop] at remains
      obtain ⟨symbol, bits'⟩ := literalBits table byte
      exact startsCons (symbol.symm ▸ coded) (by rw [bits']; exact front (by omega)) tail
    · rw [if_neg byte, Outcome.bindOk] at decoded
      obtain ⟨_, checked, decoded⟩ := decoded
      have distance := Outcome.ensureOk.mp checked
      rw [Outcome.bindOk] at decoded
      obtain ⟨rest, later, same⟩ := decoded
      cases Outcome.ok.inj same
      have tail := ih later fun padded => whole (.matched found stop byte distance padded)
      have remains := distance
      rw [List.length_drop] at remains
      have sixteen : ((bits.drop len).take 16).length = 16 := by rw [List.length_take, Nat.min_eq_left distance]
      obtain ⟨symbol, bits'⟩ := matchedBits table byte (recognisedSmall valid run found) sixteen
      refine startsCons (symbol.symm ▸ coded) ?_ tail
      rw [bits', List.append_assoc, List.take_append_drop]
      exact front (by omega)

omit valid run in
theorem paddedNil {bits : List Bool} (padded : PaddedEnd table bits) (dry : bits = []) :
    ∃ len, table.decodeSymbol 0 = .ok (eob, len) := by
  induction padded with
  | cut found few =>
    rw [dry, Bits.windowNil] at found
    exact ⟨_, found⟩
  | literal found byte rest ih => exact ih (by rw [dry, List.drop_nil])
  | matched found goesOn wide distance rest ih =>
    rw [dry, List.drop_nil] at distance
    contradiction

theorem paddedDecodes {bits : List Bool} (padded : PaddedEnd table bits) {iterations : Nat}
    (enough : bits.length < iterations) : ∃ tokens, decodeBits table iterations bits = .ok tokens ∧
      bits.length < (streamBits table tokens).length := by
  induction padded generalizing iterations with
  | @cut bits len found few =>
    obtain ⟨n, rfl⟩ : ∃ n, iterations = n + 1 := ⟨iterations - 1, by omega⟩
    have size := (recognised valid run found).2.1
    refine ⟨[], by rw [decodeBits, found, Outcome.okBind]; exact if_pos rfl, ?_⟩
    rw [streamBits, List.flatMap_nil, List.nil_append, size]
    exact few
  | @literal bits sym len found byte rest ih =>
    obtain ⟨n, rfl⟩ : ∃ n, iterations = n + 1 := ⟨iterations - 1, by omega⟩
    obtain ⟨coded, size, _⟩ := recognised valid run found
    have positive := (symbolBitsPositive coded).1
    rw [size] at positive
    -- on padding alone the literal would come again and again
    have wet : bits ≠ [] := by
      intro dry
      obtain ⟨len', ends⟩ := paddedNil rest (by rw [dry, List.drop_nil])
      rw [dry, Bits.windowNil] at found
      cases Outcome.ok.inj (found.symm.trans ends)
      exact literalGoesOn byte rfl
    have remains := List.length_pos_iff.mpr wet
    have drops := List.length_drop (i := len) (l := bits)
    obtain ⟨tokens, later, long⟩ := ih (by omega : _ < n)
    obtain ⟨_, bits'⟩ := literalBits table byte
    refine ⟨.literal (UInt8.ofNat sym) :: tokens, ?_, ?_⟩
    · rw [decodeBits, found, Outcome.okBind]
      simp only [if_neg (literalGoesOn byte), if_pos byte, later, Outcome.okBind]
    · rw [streamBitsCons, List.length_append, bits', size]
      omega
  | @matched bits sym len found goesOn wide distance rest ih =>
    obtain ⟨n, rfl⟩ : ∃ n, iterations = n + 1 := ⟨iterations - 1, by omega⟩
    obtain ⟨coded, size, _⟩ := recognised valid run found
    have drops := List.length_drop (i := len) (l := bits)
    have drops' := List.length_drop (i := 16) (l := bits.drop len)
    obtain ⟨tokens, later, long⟩ := ih (by omega : _ < n)
    have sixteen : ((bits.drop len).take 16).length = 16 := by rw [List.length_take, Nat.min_eq_left distance]
    obtain ⟨_, bits'⟩ := matchedBits table wide (recognisedSmall valid run found) sixteen
    refine ⟨.matched (UInt16.ofNat (Bits.toNat ((bits.drop len).take 16)))
      (UInt16.ofNat ((sym - 256) % 65536)) :: tokens, ?_, ?_⟩
    · rw [decodeBits, found, Outcome.okBind]
      simp only [if_neg goesOn, if_neg wide, Outcome.ensurePass _ distance, later, Outcome.okBind]
    · rw [streamBitsCons, List.length_append, bits', List.length_append, size, sixteen]
      omega

/-! Where a whole stream stands in front, the loop comes to an end. -/
theorem nextReturns {α : Type} {sym : Nat} (coded : HasCode table sym) (rest : List Bool)
    {goOn : Nat × Nat → Result α} (onward : (goOn (sym, (symbolBits table sym).length)).Returns) :
    (table.decodeSymbol (Bits.window 32 (symbolBits table sym ++ rest)) >>= goOn).Returns := by
  obtain ⟨c, len, place, positive, short⟩ := coded
  have codes : Codes table sym c len := ⟨Outcome.indexOk.mpr place, positive⟩
  have fifteen : maxCodeLen = 15 := rfl
  have word : symbolBits table sym = Bits.ofNat len c := by rw [symbolBits, place]
  have onTop : OnTop c len (Bits.window 32 (Bits.ofNat len c ++ rest)) := by
    rw [OnTop, Bits.windowTop 32 len _ (by omega), List.append_assoc, List.take_left' (Bits.lengthOfNat len c),
      Bits.toNatOfNat, Nat.mod_eq_of_lt (codesBound valid run codes).1]
  rw [word, Bits.lengthOfNat] at onward
  rw [word, onTopDecodes valid run (Bits.windowBound 32 _) codes onTop]
  split
  · trivial
  · exact onward

theorem startsReturns {tokens : List Token} {bits : List Bool} (starts : StartsWith table tokens bits) :
    ∃ iterations, (decodeBits table iterations bits).Returns := by
  obtain ⟨codes, after, split⟩ := starts
  induction tokens generalizing bits with
  | nil =>
    rw [streamBits, List.flatMap_nil, List.nil_append] at split
    refine ⟨1, ?_⟩
    rw [decodeBits, ← split]
    refine nextReturns valid run (codes eob (by simp)) after ?_
    simp only [if_pos]
    trivial
  | cons tok tokens ih =>
    rw [streamBitsCons, List.append_assoc, tokenBits, List.append_assoc] at split
    obtain ⟨n, returns⟩ := ih (fun sym member => codes sym (laterSymbol member)) rfl
    refine ⟨n + 1, ?_⟩
    rw [decodeBits, ← split]
    refine nextReturns valid run (codes (symbolOf tok) (by simp)) _ ?_
    simp only [List.drop_left]
    by_cases stop : symbolOf tok = eob
    · rw [if_pos stop]
      trivial
    rw [if_neg stop]
    cases tok with
    | literal b =>
      have byte : symbolOf (.literal b) < 256 := b.toNat_lt
      rw [if_pos byte]
      exact Outcome.returnsBind returns fun _ => trivial
    | matched distance length =>
      have wide : ¬ symbolOf (.matched distance length) < 256 := by
        rw [symbolOf]
        omega
      rw [if_neg wide, distanceBits, Outcome.ensurePass _ (by simp), Outcome.okBind,
        List.drop_left' (Bits.lengthOfNat 16 _)]
      exact Outcome.returnsBind returns fun _ => trivial

end

theorem decodeTokensFaithful (lengthsMap : List Nat) (table : HuffmanTable) (small : lengthsMap.length ≤ 65536)
    (lengths : KraftLengths lengthsMap) (made : fromLengths lengthsMap = .ok table) (bitstream : Bytes)
    (capacity : Nat) :
    Faithful table bitstream capacity ↔ ¬ PaddedEnd table (Bits.ofBytes bitstream) ∧
      ¬ (PaddingIsLiteral table ∧ Runout table (Bits.ofBytes bitstream)) := by
  have valid := (validIff small).mpr lengths
  have proper := tableForProper (validEntries valid) (madeTable valid made)
  have enough : (Bits.ofBytes bitstream).length < 8 * bitstream.length + 1 := by
    rw [Bits.lengthOfBytes]
    omega
  constructor
  · rintro ⟨decoded, incomplete⟩
    rw [decodeTokensBits proper] at decoded incomplete
    constructor
    · intro padded
      obtain ⟨tokens, run, long⟩ := paddedDecodes valid made padded enough
      have bound := (decoded tokens run).2.length_le
      omega
    · rintro ⟨padding, runout⟩
      rw [runoutSpins padding runout] at incomplete
      refine incomplete ?_
      rintro ⟨tokens, starts⟩
      obtain ⟨n, returns⟩ := startsReturns valid made starts
      rwa [runoutSpins padding runout] at returns
  · rintro ⟨whole, ends⟩
    have starts : ∀ tokens, decodeTokens table bitstream capacity = .ok tokens →
        StartsWith table tokens (Bits.ofBytes bitstream) := by
      intro tokens run
      rw [decodeTokensBits proper] at run
      exact decodedStarts valid made _ run whole
    refine ⟨starts, fun finished => ?_⟩
    have returns : (decodeTokens table bitstream capacity).Returns := by
      rw [decodeTokensBits proper]
      exact (decodeBitsEnds proper _ _ enough).resolve_right ends
    cases outcome : decodeTokens table bitstream capacity with
    | ok tokens => exact absurd ⟨tokens, starts tokens outcome⟩ finished
    | err e => trivial
    | panic => rwa [outcome] at returns
    | diverge => rwa [outcome] at returns

theorem eobFaithful : ∃ table, fromLengths (soleLengths eob) = .ok table ∧ Faithful table [0] 0 := by
  have valid : ValidMap (soleLengths eob) := soleValid (by decide)
  obtain ⟨table, made, tableFor⟩ := fromLengthsTable valid
  rw [soleSorted (by decide)] at tableFor
  have zero := soleDecodes tableFor (by decide)
  have window : Bits.window 32 (Bits.ofBytes [0]) = 0 := by decide
  refine ⟨table, made, (decodeTokensFaithful (soleLengths eob) table valid.small
    ((validIff valid.small).mp valid) made [0] 0).mpr ⟨?_, ?_⟩⟩
  · intro padded
    cases padded with
    | cut found few =>
      rw [window] at found
      cases Outcome.ok.inj (zero.symm.trans found)
      exact absurd few (by decide)
    | literal found byte rest =>
      rw [window] at found
      cases Outcome.ok.inj (zero.symm.trans found)
      exact absurd byte (by decide)
    | matched found goesOn wide distance rest =>
      rw [window] at found
      cases Outcome.ok.inj (zero.symm.trans found)
      exact absurd rfl goesOn
  · rintro ⟨⟨sym, len, found, byte⟩, _⟩
    cases Outcome.ok.inj (zero.symm.trans found)
    exact absurd byte (by decide)

theorem emptyStreamAccepted : ∃ lengthsMap table, KraftLengths lengthsMap ∧ fromLengths lengthsMap = .ok table ∧
    decodeTokens table [] 0 = .ok [] ∧ ¬ Faithful table [] 0 := by
  have valid : ValidMap (soleLengths eob) := soleValid (by decide)
  obtain ⟨table, made, tableFor⟩ := fromLengthsTable valid
  have proper := tableForProper (validEntries valid) tableFor
  rw [soleSorted (by decide)] at tableFor
  have zero := soleDecodes tableFor (by decide)
  have run : decodeTokens table [] 0 = .ok [] := by
    rw [decodeTokensBits proper, decodeBits, Bits.ofBytesNil, Bits.windowNil, zero]
    rfl
  refine ⟨soleLengths eob, table, (validIff valid.small).mp valid, made, run, fun faithful => ?_⟩
  exact absurd (startsPositive (faithful.decoded [] run)) (Nat.lt_irrefl 0)

end Openpresser.Huffman
