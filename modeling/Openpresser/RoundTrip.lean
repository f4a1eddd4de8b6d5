import Openpresser.Walk
import Openpresser.BlockRoundTrip

/-! Archives that `compress` writes. The payload is laid out in directory order, so
the walk finds every block where the entry says and nothing behind the last one. -/
namespace Openpresser.Archive
open Block (CompressOptions LaidOut Rayon blockEntry compressBlock compressBlocks splitIntoBlocks)
open Chunks (chunk chunks count)
open Format (BlockEntry PpmoHeader crc32 flagParallel lengthWriteHeader readHeader readHeaderOfWritten writeHeader)

/-! The blocks. -/
structure Piece (opts : CompressOptions) (block compressed : Bytes) : Prop where
  run : compressBlock block opts = .ok compressed
  laidOut : LaidOut block opts compressed

def Pieces (opts : CompressOptions) (blocks compressed : List Bytes) : Prop :=
  List.Forall₂ (Piece opts) blocks compressed

theorem pieceCases (block : Bytes) (opts : CompressOptions) :
    (∃ c, compressBlock block opts = .ok c ∧ Piece opts block c) ∨ compressBlock block opts = .panic := by
  rcases Block.compressBlockCases block opts with ⟨c, run, laidOut⟩ | overflow
  · exact .inl ⟨c, run, run, laidOut⟩
  · exact .inr overflow

theorem compressBlocksMap (rayon : Rayon) (blocks : List Bytes) (opts : CompressOptions) :
    compressBlocks rayon blocks opts = blocks.mapM (fun b => compressBlock b opts) >>= fun compressed =>
      .ok (compressed, compressed.zipWith blockEntry blocks) := by
  have order : rayon.parMap (fun b => compressBlock b opts) blocks =
      blocks.mapM (fun b => compressBlock b opts) := by
    refine rayon.inOrder _ _ fun b _ => ?_
    rcases pieceCases b opts with ⟨c, run, _⟩ | overflow
    · exact .inl ⟨c, run⟩
    · exact .inr overflow
  rw [compressBlocks, order, ite_self]

def headerOf (x : Bytes) (opts : CompressOptions) : PpmoHeader :=
  ⟨if opts.parallel = true then flagParallel else 0, UInt32.ofNat (count opts.blockSize x.length),
    UInt64.ofNat x.length, UInt32.ofNat opts.blockSize⟩

def entriesOf (x : Bytes) (opts : CompressOptions) (compressed : List Bytes) : List BlockEntry :=
  compressed.zipWith blockEntry (chunks opts.blockSize x)

def archiveOf (x : Bytes) (opts : CompressOptions) (compressed : List Bytes) : Bytes :=
  writeHeader (headerOf x opts) (entriesOf x opts compressed) ++ compressed.flatten

def Cuts (x : Bytes) (opts : CompressOptions) : Prop := x = [] ∨ 1 ≤ opts.blockSize

theorem splitCuts {x : Bytes} {opts : CompressOptions} (cuts : Cuts x opts) :
    splitIntoBlocks x opts.blockSize = .ok (chunks opts.blockSize x) := by
  by_cases empty : x = []
  · rw [splitIntoBlocks, if_pos empty, empty, Chunks.chunksNil]
  · have positive : 1 ≤ opts.blockSize := cuts.resolve_left empty
    rw [splitIntoBlocks, if_neg empty, Outcome.assertPass (by omega), Outcome.okBind]

theorem cutsJoin {x : Bytes} {opts : CompressOptions} (cuts : Cuts x opts) : (chunks opts.blockSize x).flatten = x := by
  rcases cuts with rfl | positive
  · rw [Chunks.chunksNil]
    rfl
  · exact Chunks.flattenChunks positive x

theorem cutsFilled {x : Bytes} {opts : CompressOptions} (cuts : Cuts x opts) :
    ∀ b ∈ chunks opts.blockSize x, b ≠ [] := by
  rcases cuts with rfl | positive
  · rw [Chunks.chunksNil]
    simp
  · exact Chunks.chunksFilled positive x

theorem piecesLength {opts : CompressOptions} {x : Bytes} {compressed : List Bytes}
    (pieces : Pieces opts (chunks opts.blockSize x) compressed) :
    (entriesOf x opts compressed).length = count opts.blockSize x.length := by
  have same := pieces.length_eq
  rw [entriesOf, List.length_zipWith, ← same, Nat.min_self, Chunks.lengthChunks]

theorem compressPieces (rayon : Rayon) {x : Bytes} {opts : CompressOptions} {compressed : List Bytes}
    (cuts : Cuts x opts) (pieces : Pieces opts (chunks opts.blockSize x) compressed)
    (mapped : (chunks opts.blockSize x).mapM (fun b => compressBlock b opts) = .ok compressed) :
    compress rayon x opts = .ok (archiveOf x opts compressed) := by
  have size := piecesLength pieces
  rw [entriesOf] at size
  rw [compress, splitCuts cuts, Outcome.okBind, compressBlocksMap, mapped, Outcome.okBind,
    Outcome.okBind]
  simp only [size]
  rfl

structure Roomy (x : Bytes) (opts : CompressOptions) : Prop where
  positive : 1 ≤ opts.blockSize
  bound : opts.blockSize ≤ 2 ^ 31
  few : count opts.blockSize x.length < 2 ^ 32

theorem chunkSmall {x : Bytes} {opts : CompressOptions} (roomy : Roomy x opts) :
    ∀ b ∈ chunks opts.blockSize x, b.length ≤ 2 ^ 31 := fun b member =>
  Nat.le_trans (Chunks.chunksBounded x b member) roomy.bound

theorem compressRoomy (rayon : Rayon) {x : Bytes} {opts : CompressOptions} (roomy : Roomy x opts) :
    ∃ compressed, compress rayon x opts = .ok (archiveOf x opts compressed) ∧
      Pieces opts (chunks opts.blockSize x) compressed := by
  obtain ⟨compressed, mapped, pieces⟩ := Outcome.mapMEach (f := fun b => compressBlock b opts)
    (R := Piece opts) (chunks opts.blockSize x) (by
      intro b member
      have small := chunkSmall roomy b member
      obtain ⟨c, run, laidOut⟩ := Block.compressBlockFits b opts (by omega)
      exact ⟨c, run, run, laidOut⟩)
  exact ⟨compressed, compressPieces rayon (.inr roomy.positive) pieces mapped, pieces⟩

theorem roomyLength {x : Bytes} {opts : CompressOptions} (roomy : Roomy x opts) : x.length ≤ isizeMax := by
  have reach := (Chunks.countReaches roomy.positive x.length).1
  have bound := roomy.bound
  have few := roomy.few
  have product : count opts.blockSize x.length * opts.blockSize ≤ (2 ^ 32 - 1) * 2 ^ 31 :=
    Nat.mul_le_mul (by omega) bound
  have limit : isizeMax = 2 ^ 63 - 1 := rfl
  omega

/-! The walk over laid out blocks. -/
theorem pieceDecodes {opts : CompressOptions} {block compressed : Bytes} (piece : Piece opts block compressed)
    (small : block.length ≤ 2 ^ 31) (pre post : Bytes) :
    blockAt (pre ++ compressed ++ post) (blockEntry compressed block) pre.length = .ok block ∧
    (blockEntry compressed block).compressedLen.toNat = compressed.length ∧
    (blockEntry compressed block).uncompressedLen.toNat = block.length := by
  have length : (UInt32.ofNat compressed.length).toNat = compressed.length :=
    UInt32.toNat_ofNat_of_lt' (Block.laidOutFits piece.laidOut small)
  have length' : (UInt32.ofNat block.length).toNat = block.length :=
    UInt32.toNat_ofNat_of_lt' (Nat.lt_of_le_of_lt small (by decide))
  refine ⟨?_, length, length'⟩
  have inside : pre.length + compressed.length ≤ (pre ++ compressed ++ post).length := by simp
  have bytes : ((pre ++ compressed ++ post).drop pre.length).take compressed.length = compressed := by simp
  have decoded := Block.decompressLayout piece.laidOut (by omega)
  simp only [blockAt, blockEntry, length, length', Outcome.ensurePass _ inside, bytes, decoded, Outcome.okBind,
    Outcome.ensurePass]

theorem walkPieces {opts : CompressOptions} {blocks compressed : List Bytes} (pieces : Pieces opts blocks compressed)
    (small : ∀ b ∈ blocks, b.length ≤ 2 ^ 31) (pre post : Bytes) :
    walk (pre ++ compressed.flatten ++ post) (compressed.zipWith blockEntry blocks) pre.length = .ok blocks := by
  induction pieces generalizing pre with
  | nil => rfl
  | @cons block c blocks cs piece rest ih =>
    obtain ⟨decoded, length, _⟩ := pieceDecodes piece (small block List.mem_cons_self) pre (cs.flatten ++ post)
    have later := ih (fun b member => small b (List.mem_cons_of_mem block member)) (pre ++ c)
    rw [List.length_append] at later
    rw [List.flatten_cons, List.zipWith_cons_cons, walk, length]
    simp only [List.append_assoc] at decoded later ⊢
    rw [decoded, Outcome.okBind, later, Outcome.okBind]

theorem archivePasses {x : Bytes} {opts : CompressOptions} {compressed : List Bytes} (roomy : Roomy x opts)
    (pieces : Pieces opts (chunks opts.blockSize x) compressed) :
    Passes (archiveOf x opts compressed) (headerOf x opts) (entriesOf x opts compressed)
      (26 + 12 * count opts.blockSize x.length) (chunks opts.blockSize x) := by
  have size := piecesLength pieces
  have blocks : (UInt32.ofNat (count opts.blockSize x.length)).toNat = count opts.blockSize x.length :=
    UInt32.toNat_ofNat_of_lt' roomy.few
  have bytes : (UInt64.ofNat x.length).toNat = x.length :=
    UInt64.toNat_ofNat_of_lt' (Nat.lt_of_le_of_lt (roomyLength roomy) (by decide))
  refine ⟨?_, ?_, ?_⟩
  · rw [← size]
    exact readHeaderOfWritten _ _ _ (size.trans blocks.symm)
  · have walked := walkPieces pieces (chunkSmall roomy)
      (writeHeader (headerOf x opts) (entriesOf x opts compressed)) []
    rwa [List.append_nil, lengthWriteHeader, size] at walked
  · rw [Chunks.flattenChunks roomy.positive]
    exact bytes.symm

theorem roomyDecompresses {x : Bytes} {opts : CompressOptions} {compressed : List Bytes} (roomy : Roomy x opts)
    (pieces : Pieces opts (chunks opts.blockSize x) compressed) : decompress (archiveOf x opts compressed) = .ok x := by
  have passes := archivePasses roomy pieces
  have whole := Chunks.flattenChunks roomy.positive x
  exact decompressOk.mpr ⟨_, _, _, _, passes, whole.symm, by rw [← passes.size, whole]; exact roomyLength roomy⟩

theorem compressRoundTrip (rayon : Rayon) (x : Bytes) (opts : CompressOptions) (positive : 1 ≤ opts.blockSize)
    (bound : opts.blockSize ≤ 2 ^ 31) (few : count opts.blockSize x.length < 2 ^ 32) :
    ∃ a, compress rayon x opts = .ok a ∧ decompress a = .ok x := by
  have roomy : Roomy x opts := ⟨positive, bound, few⟩
  obtain ⟨compressed, run, pieces⟩ := compressRoomy rayon roomy
  exact ⟨_, run, roomyDecompresses roomy pieces⟩

theorem compressRoundTripThree : ∃ a, compress Rayon.sequential [7, 8, 9] ⟨2, 32, true⟩ = .ok a ∧
    decompress a = .ok [7, 8, 9] :=
  compressRoundTrip Rayon.sequential [7, 8, 9] ⟨2, 32, true⟩ (by decide) (by decide) (by decide)

theorem threeRoomy : Roomy [7, 8, 9] ⟨2, 32, true⟩ := ⟨by decide, by decide, by decide⟩

/-! Where each block lies. -/
theorem payloadPieces {opts : CompressOptions} {blocks compressed : List Bytes}
    (pieces : Pieces opts blocks compressed) (small : ∀ b ∈ blocks, b.length ≤ 2 ^ 31) :
    payloadLength (compressed.zipWith blockEntry blocks) = compressed.flatten.length := by
  induction pieces with
  | nil => rfl
  | @cons block c blocks cs piece rest ih =>
    have length := (pieceDecodes piece (small block List.mem_cons_self) [] []).2.1
    have later := ih fun b member => small b (List.mem_cons_of_mem block member)
    rw [payloadLength] at later ⊢
    rw [List.zipWith_cons_cons, List.map_cons, List.sum_cons, later, length, List.flatten_cons,
      List.length_append]

/-- What directory entry `i` says about chunk `i`, and where the archive holds it. -/
structure Describes (x : Bytes) (opts : CompressOptions) (a : Bytes) (directory : List BlockEntry) (i : Nat)
    (entry : BlockEntry) : Prop where
  uncompressedLen : entry.uncompressedLen.toNat = min opts.blockSize (x.length - i * opts.blockSize)
  crc : entry.crc32 = crc32 (chunk opts.blockSize x i)
  inside : 26 + 12 * directory.length + payloadLength (directory.take i) + entry.compressedLen.toNat ≤ a.length
  payload : compressBlock (chunk opts.blockSize x i) opts =
    .ok ((a.drop (26 + 12 * directory.length + payloadLength (directory.take i))).take entry.compressedLen.toNat)

theorem entryDescribes {x : Bytes} {opts : CompressOptions} {compressed : List Bytes} (roomy : Roomy x opts)
    (pieces : Pieces opts (chunks opts.blockSize x) compressed) {i : Nat} {entry : BlockEntry}
    (found : (entriesOf x opts compressed)[i]? = some entry) :
    Describes x opts (archiveOf x opts compressed) (entriesOf x opts compressed) i entry := by
  have small := chunkSmall roomy
  have size := piecesLength pieces
  have same := pieces.length_eq
  rw [Chunks.lengthChunks] at same
  have bound : i < count opts.blockSize x.length := size ▸ (List.getElem?_eq_some_iff.mp found).1
  have inBlocks : i < (chunks opts.blockSize x).length := by rwa [Chunks.lengthChunks]
  have inPieces : i < compressed.length := same ▸ bound
  have block : (chunks opts.blockSize x)[i] = chunk opts.blockSize x i := by simp [chunks]
  have piece : Piece opts (chunk opts.blockSize x i) compressed[i] := by
    have h := pieces.get inBlocks inPieces
    simpa [block] using h
  have made : entry = blockEntry compressed[i] (chunk opts.blockSize x i) := by
    rw [entriesOf, List.getElem?_zipWith, List.getElem?_eq_getElem inPieces,
      List.getElem?_eq_getElem inBlocks, block] at found
    exact (Option.some.inj found).symm
  have short : (chunk opts.blockSize x i).length ≤ 2 ^ 31 :=
    small _ (block ▸ List.getElem_mem inBlocks)
  obtain ⟨_, length, length'⟩ := pieceDecodes piece short [] []
  rw [← made] at length length'
  have before : payloadLength ((entriesOf x opts compressed).take i) = (compressed.take i).flatten.length := by
    rw [entriesOf, List.take_zipWith]
    exact payloadPieces (List.forall₂_take i pieces) fun b member => small b (List.mem_of_mem_take member)
  have split : archiveOf x opts compressed = writeHeader (headerOf x opts) (entriesOf x opts compressed) ++
      (compressed.take i).flatten ++ compressed[i] ++ (compressed.drop (i + 1)).flatten := by
    have flat := congrArg List.flatten (List.take_append_drop i compressed)
    rw [List.flatten_append, List.drop_eq_getElem_cons inPieces, List.flatten_cons] at flat
    rw [archiveOf, ← flat]
    simp only [List.append_assoc]
  have place : (writeHeader (headerOf x opts) (entriesOf x opts compressed) ++
      (compressed.take i).flatten).length = 26 + 12 * (entriesOf x opts compressed).length +
        payloadLength ((entriesOf x opts compressed).take i) := by
    rw [List.length_append, lengthWriteHeader, before]
  refine ⟨by rw [length', Chunks.lengthChunk], by rw [made]; rfl, ?_, ?_⟩
  · rw [split, List.length_append, List.length_append, place, length]
    omega
  · rw [split, ← place, length, List.append_assoc, List.drop_left, List.take_left]
    exact piece.run

theorem archiveLength {x : Bytes} {opts : CompressOptions} {compressed : List Bytes} (roomy : Roomy x opts)
    (pieces : Pieces opts (chunks opts.blockSize x) compressed) :
    (archiveOf x opts compressed).length = 26 + 12 * (entriesOf x opts compressed).length +
      payloadLength (entriesOf x opts compressed) := by
  rw [archiveOf, List.length_append, lengthWriteHeader, entriesOf, payloadPieces pieces (chunkSmall roomy)]

theorem headerParallel (x : Bytes) (opts : CompressOptions) :
    decide ((headerOf x opts).flags &&& flagParallel ≠ 0) = opts.parallel := by
  cases parallel : opts.parallel with
  | true => simp only [headerOf, parallel]; decide
  | false => simp only [headerOf, parallel]; decide

theorem compressDescribesArchive (rayon : Rayon) (x : Bytes) (opts : CompressOptions)
    (positive : 1 ≤ opts.blockSize) (bound : opts.blockSize ≤ 2 ^ 31)
    (few : count opts.blockSize x.length < 2 ^ 32) :
    ∃ a info header directory stop, compress rayon x opts = .ok a ∧ verify a = .ok info ∧
      readHeader a = .ok (header, directory, stop) ∧
      info.originalSize.toNat = x.length ∧ info.blockCount.toNat = count opts.blockSize x.length ∧
      info.blockSize.toNat = opts.blockSize ∧ info.parallel = opts.parallel ∧ info.compressedSize = a.length ∧
      directory.length = count opts.blockSize x.length ∧
      (∀ i entry, directory[i]? = some entry → Describes x opts a directory i entry) ∧
      a.length = 26 + 12 * directory.length + payloadLength directory := by
  have roomy : Roomy x opts := ⟨positive, bound, few⟩
  obtain ⟨compressed, run, pieces⟩ := compressRoomy rayon roomy
  have passes := archivePasses roomy pieces
  obtain ⟨info, inspected, size, blocks, blockSize, total, parallel⟩ := inspectOk passes.read
  refine ⟨_, info, _, _, _, run, verifyOk.mpr ⟨inspected, _, _, _, _, passes⟩, passes.read, ?_, ?_, ?_, ?_,
    total, piecesLength pieces, fun i entry found => entryDescribes roomy pieces found,
    archiveLength roomy pieces⟩
  · rw [size, ← passes.size, Chunks.flattenChunks positive]
  · rw [blocks]
    exact UInt32.toNat_ofNat_of_lt' few
  · rw [blockSize]
    exact UInt32.toNat_ofNat_of_lt' (Nat.lt_of_le_of_lt bound (by decide))
  · rw [parallel, headerParallel]

theorem compressDescribesArchiveThree :
    ∃ a info, compress Rayon.sequential [7, 8, 9] ⟨2, 32, true⟩ = .ok a ∧ verify a = .ok info ∧
      info.blockCount.toNat = 2 := by
  obtain ⟨a, info, _, _, _, run, verified, _, _, blocks, _⟩ :=
    compressDescribesArchive Rayon.sequential [7, 8, 9] ⟨2, 32, true⟩ (by decide) (by decide) (by decide)
  exact ⟨a, info, run, verified, blocks⟩

end Openpresser.Archive
