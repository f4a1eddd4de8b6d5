import Openpresser.ArchiveMeaning
import Openpresser.Sizes

/-! Blocks do not know of each other. Two archives, or the archives of two aligned inputs, are
spliced by their directories and their payloads. -/
namespace Openpresser.Archive
open Block (CompressOptions Rayon compressBlock)
open Chunks (chunks count)
open Format (BlockEntry PpmoHeader writeHeader)

/-! On the way in. -/
theorem piecesRun {opts : CompressOptions} {blocks compressed : List Bytes} (pieces : Pieces opts blocks compressed) :
    blocks.mapM (fun b => compressBlock b opts) = .ok compressed := by
  induction pieces with
  | nil => rfl
  | cons piece rest ih => rw [List.mapM_cons, piece.run, Outcome.okBind, ih, Outcome.okBind]; rfl

theorem compressIff {rayon : Rayon} {x a : Bytes} {opts : CompressOptions} (positive : 1 ≤ opts.blockSize) :
    compress rayon x opts = .ok a ↔
      ∃ compressed, Pieces opts (chunks opts.blockSize x) compressed ∧ a = archiveOf x opts compressed := by
  constructor
  · intro run
    exact (compressWrites run).2
  · rintro ⟨compressed, pieces, rfl⟩
    exact compressPieces rayon (.inr positive) pieces (piecesRun pieces)

/-- The sums wrap where the casts of a longer input do. -/
def joined (front back : PpmoHeader) : PpmoHeader :=
  { front with
    blockCount := front.blockCount + back.blockCount
    originalSize := front.originalSize + back.originalSize }

section
variable {rayon : Rayon} {x y : Bytes} {opts : CompressOptions} {n : Nat}

theorem headerAppend (positive : 1 ≤ opts.blockSize) (aligned : x.length = n * opts.blockSize) :
    headerOf (x ++ y) opts = joined (headerOf x opts) (headerOf y opts) := by
  have whole := Chunks.countAligned positive aligned
  have total : count opts.blockSize (x ++ y).length = n + count opts.blockSize y.length := by
    rw [List.length_append, aligned, Chunks.countAppend positive]
  rw [headerOf, headerOf, headerOf, joined, total, whole, List.length_append, UInt32.ofNat_add,
    UInt64.ofNat_add]

theorem archiveAppend (positive : 1 ≤ opts.blockSize) (aligned : x.length = n * opts.blockSize)
    {front back : List Bytes} (pieces : Pieces opts (chunks opts.blockSize x) front) :
    archiveOf (x ++ y) opts (front ++ back) =
      writeHeader (joined (headerOf x opts) (headerOf y opts)) (entriesOf x opts front ++ entriesOf y opts back) ++
        (front.flatten ++ back.flatten) := by
  rw [archiveOf, headerAppend positive aligned, entriesOf, Chunks.chunksAppend positive aligned,
    List.zipWith_append pieces.length_eq.symm, List.flatten_append]
  rfl

variable (rayon y opts) in
theorem compressAppends (positive : 1 ≤ opts.blockSize) (aligned : x.length = n * opts.blockSize) :
    ((∃ c, compress rayon (x ++ y) opts = .ok c) ↔
      (∃ a, compress rayon x opts = .ok a) ∧ ∃ b, compress rayon y opts = .ok b) ∧
    ∀ a b, compress rayon x opts = .ok a → compress rayon y opts = .ok b →
      ∃ front back directory directory' payload payload',
        a = writeHeader front directory ++ payload ∧ directory.length = n ∧
        b = writeHeader back directory' ++ payload' ∧ directory'.length = count opts.blockSize y.length ∧
        compress rayon (x ++ y) opts =
          .ok (writeHeader (joined front back) (directory ++ directory') ++ (payload ++ payload')) := by
  have cut := Chunks.chunksAppend positive aligned y
  have whole := Chunks.countAligned positive aligned
  constructor
  · simp only [compressIff positive, cut]
    constructor
    · rintro ⟨_, compressed, pieces, _⟩
      have first := List.forall₂_take (chunks opts.blockSize x).length pieces
      have second := List.forall₂_drop (chunks opts.blockSize x).length pieces
      rw [List.take_left] at first
      rw [List.drop_left] at second
      exact ⟨⟨_, _, first, rfl⟩, ⟨_, _, second, rfl⟩⟩
    · rintro ⟨⟨_, front, first, _⟩, ⟨_, back, second, _⟩⟩
      exact ⟨_, front ++ back, List.rel_append first second, rfl⟩
  · intro a b runX runY
    obtain ⟨front, first, rfl⟩ := (compressIff positive).mp runX
    obtain ⟨back, second, rfl⟩ := (compressIff positive).mp runY
    refine ⟨_, _, _, _, _, _, rfl, (piecesLength first).trans whole, rfl, piecesLength second,
      (compressIff positive).mpr ⟨front ++ back, cut ▸ List.rel_append first second, ?_⟩⟩
    exact (archiveAppend positive aligned first).symm

end

theorem compressAppendsThree : ∃ a b front back directory directory' payload payload',
    a = writeHeader front directory ++ payload ∧ b = writeHeader back directory' ++ payload' ∧
    compress Rayon.sequential [7, 8] ⟨2, 32, true⟩ = .ok a ∧ compress Rayon.sequential [9] ⟨2, 32, true⟩ = .ok b ∧
    compress Rayon.sequential ([7, 8] ++ [9]) ⟨2, 32, true⟩ =
      .ok (writeHeader (joined front back) (directory ++ directory') ++ (payload ++ payload')) := by
  have roomyA : Roomy [7, 8] ⟨2, 32, true⟩ := ⟨by decide, by decide, by decide⟩
  have roomyB : Roomy [9] ⟨2, 32, true⟩ := ⟨by decide, by decide, by decide⟩
  obtain ⟨_, runA, _⟩ := compressRoomy Rayon.sequential roomyA
  obtain ⟨_, runB, _⟩ := compressRoomy Rayon.sequential roomyB
  have aligned : ([7, 8] : Bytes).length = 1 * 2 := rfl
  obtain ⟨front, back, directory, directory', payload, payload', first, _, second, _, run⟩ :=
    (compressAppends Rayon.sequential [9] ⟨2, 32, true⟩ (by decide) aligned).2 _ _ runA runB
  exact ⟨_, _, front, back, directory, directory', payload, payload', first, second, runA, runB, run⟩

/-! On the way out. -/
theorem holdsAppend {directory directory' : List BlockEntry} {payloads payloads' raws raws' : List Bytes}
    (front : Holds directory payloads raws) (back : Holds directory' payloads' raws') :
    Holds (directory ++ directory') (payloads ++ payloads') (raws ++ raws') := by
  induction front with
  | nil => exact back
  | cons size decoded check tail ih => exact .cons size decoded check ih

theorem decompressSplices {a b x y payload payload' : Bytes} {front back : PpmoHeader}
    {directory directory' : List BlockEntry} (flags : UInt8) (blockSize : UInt32)
    (imageA : Image a front directory payload) (tight : payload.length = payloadLength directory)
    (imageB : Image b back directory' payload') (runA : decompress a = .ok x) (runB : decompress b = .ok y)
    (few : directory.length + directory'.length < 2 ^ 32) (small : x.length + y.length ≤ isizeMax) :
    decompress (writeHeader { joined front back with flags, blockSize } (directory ++ directory') ++
      (payload ++ payload')) = .ok (x ++ y) := by
  obtain ⟨payloads, raws, tail, split, holds, rfl, sizeA⟩ := meansHolds imageA (decompressedMeans.mp runA).1
  obtain ⟨payloads', raws', tail', split', holds', rfl, sizeB⟩ := meansHolds imageB (decompressedMeans.mp runB).1
  have ends : tail = [] := by
    have total := congrArg List.length split
    rw [List.length_append, tight, holdsLength holds] at total
    exact List.length_eq_zero_iff.mp (by omega)
  rw [ends, List.append_nil] at split
  have limit : isizeMax = 2 ^ 63 - 1 := rfl
  have number : (directory ++ directory').length = (front.blockCount + back.blockCount).toNat := by
    rw [List.length_append, UInt32.toNat_add, ← imageA.number, ← imageB.number, Nat.mod_eq_of_lt few]
  have total : (raws.flatten ++ raws'.flatten).length = (front.originalSize + back.originalSize).toNat := by
    rw [List.length_append, UInt64.toNat_add, ← sizeA, ← sizeB, Nat.mod_eq_of_lt (by omega)]
  have image : Image (writeHeader { joined front back with flags, blockSize } (directory ++ directory') ++
      (payload ++ payload')) { joined front back with flags, blockSize } (directory ++ directory')
      ((payloads ++ payloads').flatten ++ tail') :=
    ⟨by rw [split, split', List.flatten_append, List.append_assoc], number⟩
  exact decompressedMeans.mpr ⟨⟨_, _, payloads ++ payloads', raws ++ raws', tail', image, holdsAppend holds holds',
    List.flatten_append.symm, total⟩, by rw [List.length_append]; exact small⟩

theorem roomyImage {x : Bytes} {opts : CompressOptions} {compressed : List Bytes} (roomy : Roomy x opts)
    (pieces : Pieces opts (chunks opts.blockSize x) compressed) :
    Image (archiveOf x opts compressed) (headerOf x opts) (entriesOf x opts compressed) compressed.flatten ∧
      compressed.flatten.length = payloadLength (entriesOf x opts compressed) ∧
      decompress (archiveOf x opts compressed) = .ok x := by
  refine ⟨⟨rfl, ?_⟩, (payloadPieces pieces (chunkSmall roomy)).symm, roomyDecompresses roomy pieces⟩
  rw [piecesLength pieces]
  exact (UInt32.toNat_ofNat_of_lt' roomy.few).symm

theorem decompressSplicesThree : ∃ spliced, decompress spliced = .ok ([7, 8] ++ [9]) := by
  have roomyA : Roomy [7, 8] ⟨1, 32, true⟩ := ⟨by decide, by decide, by decide⟩
  have roomyB : Roomy [9] ⟨2, 32, false⟩ := ⟨by decide, by decide, by decide⟩
  obtain ⟨compressedA, _, piecesA⟩ := compressRoomy Rayon.sequential roomyA
  obtain ⟨compressedB, _, piecesB⟩ := compressRoomy Rayon.sequential roomyB
  obtain ⟨imageA, tight, runA⟩ := roomyImage roomyA piecesA
  obtain ⟨imageB, _, runB⟩ := roomyImage roomyB piecesB
  have few : (entriesOf [7, 8] ⟨1, 32, true⟩ compressedA).length + (entriesOf [9] ⟨2, 32, false⟩ compressedB).length <
      2 ^ 32 := by
    rw [piecesLength piecesA, piecesLength piecesB]
    decide
  exact ⟨_, decompressSplices 0 0 imageA tight imageB runA runB few (by decide)⟩

end Openpresser.Archive
