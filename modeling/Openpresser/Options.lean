import Openpresser.CodedSize
import Openpresser.RoundTrip

/-! Compression under arbitrary options. The casts to 32 bits and the chunking are the
only places where an option can go wrong, and none of them is checked. -/
namespace Openpresser.Archive
open Block (CodedSize CompressOptions Rayon blockEntry compressBlock laidOutCoded)
open Chunks (chunks count)
open Format (BlockEntry PpmoHeader readU32 u32Bytes writeHeader)
open MiddleOut (encodeBidirectional)

structure BlockFields (opts : CompressOptions) (block compressed : Bytes) (entry : BlockEntry) : Prop where
  run : compressBlock block opts = .ok compressed
  compressedLen : entry.compressedLen.toNat = compressed.length
  uncompressedLen : entry.uncompressedLen.toNat = block.length
  halves : ∃ pivot left right pivotField countField,
    encodeBidirectional block opts.maxDepth = .ok (pivot, left, right) ∧
    readU32 compressed 0 = .ok pivotField ∧ pivotField.toNat = pivot ∧
    readU32 compressed 4 = .ok countField ∧ countField.toNat = left.length

/-- Every numeric field of the archive is the quantity itself. -/
def FieldsTrue (x : Bytes) (opts : CompressOptions) (a : Bytes) : Prop :=
  ∃ (header : PpmoHeader) (directory : List BlockEntry) (compressed : List Bytes),
    a = writeHeader header directory ++ compressed.flatten ∧
    header.blockCount.toNat = count opts.blockSize x.length ∧ header.originalSize.toNat = x.length ∧
    header.blockSize.toNat = opts.blockSize ∧ compressed.length = count opts.blockSize x.length ∧
    directory.length = count opts.blockSize x.length ∧
    ∀ (i : Nat) (block c : Bytes) (entry : BlockEntry), (chunks opts.blockSize x)[i]? = some block →
      compressed[i]? = some c → directory[i]? = some entry → BlockFields opts block c entry

def Safe (rayon : Rayon) (x : Bytes) (opts : CompressOptions) : Prop :=
  (compress rayon x opts).Returns ∧ ∀ a, compress rayon x opts = .ok a → FieldsTrue x opts a

structure Representable (x : Bytes) (opts : CompressOptions) : Prop where
  cuts : Cuts x opts
  blockSize : opts.blockSize < 2 ^ 32
  blocks : count opts.blockSize x.length < 2 ^ 32
  coded : ∀ block ∈ chunks opts.blockSize x, ∃ size < 2 ^ 32, CodedSize block opts.maxDepth size

theorem pieceFields {opts : CompressOptions} {block compressed : Bytes} (piece : Piece opts block compressed)
    (small : block.length < 2 ^ 32) (fits : compressed.length < 2 ^ 32) :
    BlockFields opts block compressed (blockEntry compressed block) := by
  obtain ⟨pivot, left, right, table, lengthsMap, bitstream, layout⟩ := piece.laidOut
  have inside := layout.inside
  have few := (Block.parsesLength inside layout.parseLeft layout.parseRight).1
  refine ⟨piece.run, UInt32.toNat_ofNat_of_lt' fits, UInt32.toNat_ofNat_of_lt' small, pivot, left, right,
    UInt32.ofNat pivot, UInt32.ofNat left.length, layout.tokens, ?_,
    UInt32.toNat_ofNat_of_lt' (Nat.lt_of_le_of_lt inside small), ?_,
    UInt32.toNat_ofNat_of_lt' (Nat.lt_of_le_of_lt (Nat.le_trans few inside) small)⟩
  · rw [layout.bytes, List.append_assoc, List.append_assoc]
    exact Format.readU32At [] (UInt32.ofNat pivot) _ 0 rfl
  · rw [layout.bytes, List.append_assoc]
    exact Format.readU32At (u32Bytes (UInt32.ofNat pivot)) (UInt32.ofNat left.length) _ 4 (by simp)

/-! Both directions. -/
theorem representableFields {x : Bytes} {opts : CompressOptions} {compressed : List Bytes}
    (representable : Representable x opts) (pieces : Pieces opts (chunks opts.blockSize x) compressed) :
    FieldsTrue x opts (archiveOf x opts compressed) := by
  have lengths := pieces.length_eq
  rw [Chunks.lengthChunks] at lengths
  have room : x.length < 2 ^ 64 := by
    rcases representable.cuts with rfl | positive
    · simp
    · have reach := (Chunks.countReaches positive x.length).1
      have product : count opts.blockSize x.length * opts.blockSize ≤ (2 ^ 32 - 1) * (2 ^ 32 - 1) :=
        Nat.mul_le_mul (Nat.le_sub_one_of_lt representable.blocks) (Nat.le_sub_one_of_lt representable.blockSize)
      omega
  refine ⟨headerOf x opts, entriesOf x opts compressed, compressed, rfl,
    UInt32.toNat_ofNat_of_lt' representable.blocks, UInt64.toNat_ofNat_of_lt' room,
    UInt32.toNat_ofNat_of_lt' representable.blockSize, lengths.symm, piecesLength pieces, ?_⟩
  intro i block c entry foundBlock foundPiece foundEntry
  obtain ⟨inBlocks, rfl⟩ := List.getElem?_eq_some_iff.mp foundBlock
  obtain ⟨inPieces, rfl⟩ := List.getElem?_eq_some_iff.mp foundPiece
  have piece : Piece opts (chunks opts.blockSize x)[i] compressed[i] := pieces.get inBlocks inPieces
  have member := List.getElem_mem inBlocks
  have small := Nat.lt_of_le_of_lt (Chunks.chunksBounded x _ member) representable.blockSize
  obtain ⟨size, fits, coded⟩ := representable.coded _ member
  rw [(laidOutCoded (cutsFilled representable.cuts _ member) small piece.laidOut).mp coded] at fits
  rw [entriesOf, List.getElem?_zipWith, foundPiece, foundBlock] at foundEntry
  rw [← Option.some.inj foundEntry]
  exact pieceFields piece small fits

theorem representableSafe (rayon : Rayon) {x : Bytes} {opts : CompressOptions}
    (representable : Representable x opts) : Safe rayon x opts := by
  obtain ⟨compressed, mapped, pieces⟩ := Outcome.mapMEach (f := fun b => compressBlock b opts)
    (R := Piece opts) (chunks opts.blockSize x) (by
      intro b member
      have small := Nat.lt_of_le_of_lt (Chunks.chunksBounded x b member) representable.blockSize
      obtain ⟨c, run, laidOut⟩ := Block.compressBlockFits b opts (by omega)
      exact ⟨c, run, run, laidOut⟩)
  have run := compressPieces rayon representable.cuts pieces mapped
  refine ⟨by rw [run]; trivial, fun a made => ?_⟩
  cases Outcome.ok.inj (run.symm.trans made)
  exact representableFields representable pieces

theorem uncutPanics (rayon : Rayon) {x : Bytes} {opts : CompressOptions} (uncut : ¬ Cuts x opts) :
    compress rayon x opts = .panic := by
  obtain ⟨filled, unsized⟩ := not_or.mp uncut
  have zero : opts.blockSize = 0 := by omega
  rw [compress, Block.splitIntoBlocks, if_neg filled, zero]
  rfl

theorem safeRepresentable (rayon : Rayon) {x : Bytes} {opts : CompressOptions} (safe : Safe rayon x opts) :
    Representable x opts := by
  obtain ⟨returns, written⟩ := safe
  have cuts : Cuts x opts := by
    by_contra uncut
    rw [uncutPanics rayon uncut] at returns
    exact returns
  rcases Outcome.mapMCases (f := fun b => compressBlock b opts) (R := Piece opts)
    (chunks opts.blockSize x) (fun b _ => pieceCases b opts) with ⟨compressed, mapped, pieces⟩ | overflow
  case inr =>
    rw [compress, splitCuts cuts, Outcome.okBind, compressBlocksMap, overflow] at returns
    exact absurd returns id
  obtain ⟨header, directory, blocks, _, number, _, size, fewBlocks, fewEntries, fields⟩ :=
    written _ (compressPieces rayon cuts pieces mapped)
  refine ⟨cuts, size ▸ header.blockSize.toNat_lt, number ▸ header.blockCount.toNat_lt, ?_⟩
  intro block member
  obtain ⟨i, inside, rfl⟩ := List.getElem_of_mem member
  have bound : i < count opts.blockSize x.length := by rwa [Chunks.lengthChunks] at inside
  have inBlocks : i < blocks.length := fewBlocks ▸ bound
  have inEntries : i < directory.length := fewEntries ▸ bound
  have field := fields i _ _ _ (List.getElem?_eq_getElem inside) (List.getElem?_eq_getElem inBlocks)
    (List.getElem?_eq_getElem inEntries)
  obtain ⟨c, run, piece⟩ | overflow := pieceCases (chunks opts.blockSize x)[i] opts
  · cases Outcome.ok.inj (run.symm.trans field.run)
    have small := Nat.lt_of_le_of_lt (Chunks.chunksBounded x _ member) (size ▸ header.blockSize.toNat_lt)
    exact ⟨_, field.compressedLen ▸ directory[i].compressedLen.toNat_lt,
      (laidOutCoded (cutsFilled cuts _ member) small piece.laidOut).mpr rfl⟩
  · rw [field.run] at overflow
    contradiction

theorem compressSafe (rayon : Rayon) (x : Bytes) (opts : CompressOptions) :
    (Safe rayon x opts ↔ Representable x opts) ∧ (Roomy x opts → Representable x opts) := by
  refine ⟨⟨safeRepresentable rayon, representableSafe rayon⟩, fun roomy => ?_⟩
  obtain ⟨compressed, _, pieces⟩ := compressRoomy rayon roomy
  refine ⟨.inr roomy.positive, Nat.lt_of_le_of_lt roomy.bound (by decide), roomy.few, ?_⟩
  intro block member
  obtain ⟨i, inside, rfl⟩ := List.getElem_of_mem member
  have piece : Piece opts _ _ := pieces.get inside (pieces.length_eq ▸ inside)
  have small := Nat.lt_of_le_of_lt (chunkSmall roomy _ member) (by decide : 2 ^ 31 < 2 ^ 32)
  exact ⟨_, Block.laidOutFits piece.laidOut (chunkSmall roomy _ member),
    (laidOutCoded (cutsFilled (.inr roomy.positive) _ member) small piece.laidOut).mpr rfl⟩

theorem unsafeBlockSizes : ¬ Safe Rayon.sequential [0] ⟨0, 32, false⟩ ∧
    ¬ Safe Rayon.sequential [] ⟨2 ^ 32, 32, false⟩ := by
  constructor
  · rintro ⟨returns, _⟩
    rw [uncutPanics Rayon.sequential (by rintro (empty | positive) <;> contradiction)] at returns
    exact returns
  · intro safe
    exact absurd (safeRepresentable Rayon.sequential safe).blockSize (Nat.lt_irrefl _)

end Openpresser.Archive
