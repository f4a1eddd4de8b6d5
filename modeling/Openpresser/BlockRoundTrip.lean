import Openpresser.BlockTokens
import Openpresser.TokenStream

/-! One block through the compressor and back. Whatever the block, the compressor
either overflows a symbol weight or lays out a parse of both its sides. -/
namespace Openpresser.Block
open Format (readU32 readU32At u32Bytes lengthU32Bytes)
open Huffman (Encoded HuffmanTable distanceBits encodeTokens eob maxCodeLen serialiseTable streamBits symbolOf tokenBits)
open Lz (Parse Token)
open MiddleOut (encodeBidirectional)

/-! What the tokens of a parse look like to the Huffman coder. -/
theorem parseSymbols {data : Bytes} {pos : Nat} {tokens : List Token} (parse : Parse data pos tokens) :
    ∀ tok ∈ tokens, symbolOf tok < eob := by
  induction parse with
  | stop => simp
  | @literal pos b rest byte tail ih =>
    intro tok member
    rcases List.mem_cons.mp member with rfl | later
    · exact Nat.lt_trans b.toNat_lt (by decide)
    · exact ih tok later
  | @matched pos dist len rest copy tail ih =>
    intro tok member
    rcases List.mem_cons.mp member with rfl | later
    · have short := copy.short
      simp only [symbolOf, eob, Lz.maxMatch] at short ⊢
      omega
    · exact ih tok later

theorem parseLength {data : Bytes} {pos : Nat} {tokens : List Token} (parse : Parse data pos tokens) :
    pos + tokens.length ≤ data.length := by
  induction parse with
  | stop => exact Nat.le_refl _
  | literal byte tail ih => simp only [List.length_cons]; omega
  | matched copy tail ih =>
    have long := copy.long
    simp only [List.length_cons, Lz.minMatch] at long ⊢
    omega

theorem parsesSymbols {left right : Bytes} {leftTokens rightTokens : List Token}
    (parseLeft : Parse left 0 leftTokens) (parseRight : Parse right 0 rightTokens) :
    ∀ tok ∈ leftTokens ++ rightTokens, symbolOf tok < eob := by
  intro tok member
  rcases List.mem_append.mp member with inLeft | inRight
  · exact parseSymbols parseLeft tok inLeft
  · exact parseSymbols parseRight tok inRight

theorem parseFilled {data : Bytes} {tokens : List Token} (filled : data ≠ []) (parse : Parse data 0 tokens) :
    tokens ≠ [] := by
  rintro rfl
  generalize start : 0 = pos at parse
  cases parse with
  | stop => exact filled (List.length_eq_zero_iff.mp start.symm)

/-! The compressed block. -/
structure Layout (block : Bytes) (opts : CompressOptions) (pivot : Nat) (left right : List Token)
    (table : HuffmanTable) (lengthsMap : List Nat) (bitstream compressed : Bytes) : Prop where
  tokens : encodeBidirectional block opts.maxDepth = .ok (pivot, left, right)
  inside : pivot ≤ block.length
  parseLeft : Parse (block.take pivot) 0 left
  parseRight : Parse (block.drop pivot) 0 right
  coded : encodeTokens (left ++ right) = .ok (table, bitstream)
  encoded : Encoded (left ++ right) table lengthsMap bitstream
  bytes : compressed =
    u32Bytes (UInt32.ofNat pivot) ++ u32Bytes (UInt32.ofNat left.length) ++ serialiseTable table ++ bitstream

def LaidOut (block : Bytes) (opts : CompressOptions) (compressed : Bytes) : Prop :=
  ∃ pivot left right table lengthsMap bitstream,
    Layout block opts pivot left right table lengthsMap bitstream compressed

theorem compressBlockCases (block : Bytes) (opts : CompressOptions) :
    (∃ c, compressBlock block opts = .ok c ∧ LaidOut block opts c) ∨ compressBlock block opts = .panic := by
  obtain ⟨pivot, left, right, run, inside, parseLeft, parseRight⟩ :=
    MiddleOut.encodeParses block opts.maxDepth
  rcases Huffman.encodeTokensCases (parsesSymbols parseLeft parseRight) with
    ⟨table, lengthsMap, bitstream, written, encoded⟩ | overflow
  · exact .inl ⟨_, by simp only [compressBlock, run, written, Outcome.okBind],
      pivot, left, right, table, lengthsMap, bitstream, run, inside, parseLeft, parseRight, written, encoded,
      rfl⟩
  · exact .inr (by simp only [compressBlock, run, overflow, Outcome.okBind, Outcome.panicBind])

theorem parsesLength {block : Bytes} {pivot : Nat} {left right : List Token} (inside : pivot ≤ block.length)
    (parseLeft : Parse (block.take pivot) 0 left) (parseRight : Parse (block.drop pivot) 0 right) :
    left.length ≤ pivot ∧ (left ++ right).length ≤ block.length := by
  have first := parseLength parseLeft
  have second := parseLength parseRight
  rw [List.length_take] at first
  rw [List.length_drop] at second
  rw [List.length_append]
  omega

theorem compressBlockTokens {block : Bytes} {opts : CompressOptions} {pivot : Nat} {left right : List Token}
    (run : encodeBidirectional block opts.maxDepth = .ok (pivot, left, right))
    (few : 10 * ((left ++ right).length + 2) < 2 ^ 64) :
    ∃ c, compressBlock block opts = .ok c ∧ LaidOut block opts c := by
  obtain ⟨pivot', left', right', run', inside, parseLeft, parseRight⟩ :=
    MiddleOut.encodeParses block opts.maxDepth
  cases Outcome.ok.inj (run'.symm.trans run)
  obtain ⟨table, lengthsMap, bitstream, written, encoded⟩ :=
    Huffman.encodeTokensFits (parsesSymbols parseLeft parseRight) few
  exact ⟨_, by simp only [compressBlock, run, written, Outcome.okBind],
    pivot, left, right, table, lengthsMap, bitstream, run, inside, parseLeft, parseRight, written, encoded,
    rfl⟩

theorem compressBlockFits (block : Bytes) (opts : CompressOptions) (small : block.length < 2 ^ 47) :
    ∃ c, compressBlock block opts = .ok c ∧ LaidOut block opts c := by
  obtain ⟨pivot, left, right, run, inside, parseLeft, parseRight⟩ :=
    MiddleOut.encodeParses block opts.maxDepth
  have few := (parsesLength inside parseLeft parseRight).2
  exact compressBlockTokens run (by omega)

theorem blockReads (pivot leftCount : UInt32) (table bitstream : Bytes) (long : 2 ≤ table.length) :
    let compressed := u32Bytes pivot ++ u32Bytes leftCount ++ table ++ bitstream
    10 ≤ compressed.length ∧ readU32 compressed 0 = .ok pivot ∧ readU32 compressed 4 = .ok leftCount ∧
      (Outcome.slice compressed 8 compressed.length : Result Bytes) = .ok (table ++ bitstream) ∧
      (Outcome.slice compressed (8 + table.length) compressed.length : Result Bytes) = .ok bitstream := by
  intro compressed
  have length : compressed.length = 8 + table.length + bitstream.length := by
    simp only [compressed, List.length_append, lengthU32Bytes]
  refine ⟨by omega, ?_, ?_, ?_, ?_⟩
  · simp only [compressed, List.append_assoc]
    exact readU32At [] pivot _ 0 rfl
  · simp only [compressed]
    rw [List.append_assoc]
    exact readU32At (u32Bytes pivot) leftCount _ 4 (by simp)
  · rw [Outcome.sliceInside (by omega) (Nat.le_refl _), List.take_of_length_le (by simp)]
    simp only [compressed]
    rw [List.append_assoc, List.drop_left' (by simp)]
  · rw [Outcome.sliceInside (by omega) (Nat.le_refl _), List.take_of_length_le (by simp)]
    simp only [compressed]
    rw [List.drop_left' (by simp only [List.length_append, lengthU32Bytes])]

structure Fields (compressed : Bytes) (pivot : Nat) (left right : List Token) : Prop where
  pivot : pivotField compressed = pivot
  leftCount : leftCountField compressed = left.length
  coded : blockTokens compressed = .ok (left ++ right)

theorem layoutFields {block : Bytes} {opts : CompressOptions} {pivot : Nat} {left right : List Token}
    {table : HuffmanTable} {lengthsMap : List Nat} {bitstream compressed : Bytes}
    (layout : Layout block opts pivot left right table lengthsMap bitstream compressed) (small : block.length < 2 ^ 32) :
    Fields compressed pivot left right := by
  have encoded := layout.encoded
  have inside := layout.inside
  have fewLeft := (parsesLength inside layout.parseLeft layout.parseRight).1
  have size := Huffman.lengthSerialiseTable table
  obtain ⟨table', read, tableFor'⟩ := Huffman.encodedTableReads encoded bitstream
  have decoded := Huffman.decodeEncoded encoded (parsesSymbols layout.parseLeft layout.parseRight) tableFor' [] 0
  rw [List.append_nil] at decoded
  obtain ⟨long, readPivot, readCount, tableSlice, streamSlice⟩ := blockReads (UInt32.ofNat pivot)
    (UInt32.ofNat left.length) (serialiseTable table) bitstream (by omega)
  rw [← layout.bytes] at long readPivot readCount tableSlice streamSlice
  obtain ⟨pivot', count', found, pivotValue, found', countValue⟩ := blockFieldsRead long
  cases Outcome.ok.inj (readPivot.symm.trans found)
  cases Outcome.ok.inj (readCount.symm.trans found')
  rw [UInt32.toNat_ofNat_of_lt' (Nat.lt_of_le_of_lt inside small)] at pivotValue
  rw [UInt32.toNat_ofNat_of_lt' (Nat.lt_of_le_of_lt (Nat.le_trans fewLeft inside) small)] at countValue
  exact ⟨pivotValue.symm, countValue.symm,
    by simp only [blockTokens, tableSlice, read, streamSlice, decoded, Outcome.okBind]⟩

theorem decompressLayout {block : Bytes} {opts : CompressOptions} {compressed : Bytes}
    (laidOut : LaidOut block opts compressed) (small : block.length < 2 ^ 32) :
    decompressBlock compressed block.length = .ok block := by
  obtain ⟨pivot, left, right, table, lengthsMap, bitstream, layout⟩ := laidOut
  have fields := layoutFields layout small
  have room : Huffman.tokenBytes * block.length ≤ isizeMax := by
    simp only [Huffman.tokenBytes, isizeMax]
    omega
  rw [decompressFromTokens fields.coded room, fields.leftCount, fields.pivot, Outcome.ensurePass _ (by simp),
    Outcome.okBind, List.take_left, List.drop_left]
  exact MiddleOut.decodeParses layout.inside layout.parseLeft layout.parseRight

/-! How long a compressed block gets. -/
theorem parseBits (table : HuffmanTable) {data : Bytes} {pos : Nat} {tokens : List Token}
    (parse : Parse data pos tokens) (codes : ∀ tok ∈ tokens, Huffman.HasCode table (symbolOf tok)) :
    (tokens.flatMap (tokenBits table)).length + 15 * pos ≤ 15 * data.length := by
  induction parse with
  | stop => simp
  | @literal pos b rest byte tail ih =>
    have later := ih fun tok member => codes tok (List.mem_cons_of_mem _ member)
    have here := (Huffman.symbolBitsPositive (codes (.literal b) List.mem_cons_self)).2
    simp only [List.flatMap_cons, List.length_append, tokenBits, distanceBits, List.length_nil, maxCodeLen]
      at later here ⊢
    omega
  | @matched pos dist len rest copy tail ih =>
    -- thirty-one bits at most, for at least four bytes
    have later := ih fun tok member => codes tok (List.mem_cons_of_mem _ member)
    have here := (Huffman.symbolBitsPositive (codes (.matched dist len) List.mem_cons_self)).2
    have long := copy.long
    simp only [List.flatMap_cons, List.length_append, tokenBits, distanceBits, Bits.lengthOfNat, maxCodeLen,
      Lz.minMatch] at later here long ⊢
    omega

theorem laidOutLength {block : Bytes} {opts : CompressOptions} {compressed : Bytes}
    (laidOut : LaidOut block opts compressed) : 8 * compressed.length ≤ 15 * block.length + 12518 := by
  obtain ⟨pivot, left, right, table, lengthsMap, bitstream, layout⟩ := laidOut
  have encoded := layout.encoded
  have inside := layout.inside
  have codes := Huffman.encodedCodes encoded
  have few := Huffman.tableEntriesFew encoded
  have size := Huffman.lengthSerialiseTable table
  have last : eob = 515 := rfl
  have first := parseBits table layout.parseLeft fun tok member =>
    codes _ (List.mem_append_left _ (List.mem_map_of_mem (List.mem_append_left _ member)))
  have second := parseBits table layout.parseRight fun tok member =>
    codes _ (List.mem_append_left _ (List.mem_map_of_mem (List.mem_append_right _ member)))
  have ends := (Huffman.symbolBitsPositive (codes eob (by simp))).2
  obtain ⟨pad, padding, padded⟩ := encoded.padded
  have bits := congrArg List.length padded
  rw [Bits.lengthOfBytes, List.length_append, streamBits, List.length_append, List.flatMap_append,
    List.length_append, Bits.lengthZeros] at bits
  rw [List.length_take] at first
  rw [List.length_drop] at second
  rw [encoded.tableFor.lengths] at size
  have fifteen : maxCodeLen = 15 := rfl
  rw [layout.bytes]
  simp only [List.length_append, lengthU32Bytes]
  omega

theorem laidOutFits {block : Bytes} {opts : CompressOptions} {compressed : Bytes}
    (laidOut : LaidOut block opts compressed) (small : block.length ≤ 2 ^ 31) : compressed.length < 2 ^ 32 := by
  have bound := laidOutLength laidOut
  omega

end Openpresser.Block
