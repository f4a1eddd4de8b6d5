import Openpresser.Format
import Openpresser.MiddleOut
import Openpresser.Huffman
import Openpresser.Library.Chunks

/-! `block.rs`. A block is its pivot, its left token count, a Huffman table and one
bitstream for the tokens of both sides. -/
namespace Openpresser.Block
open Format (BlockEntry crc32 readU32 u32Bytes)
open Huffman (decodeTokens decodeTokensReserving deserialiseTable encodeTokens serialiseTable)
open Lz (Token)
open MiddleOut (decodeBidirectional encodeBidirectional)

structure CompressOptions where
  blockSize : Nat
  maxDepth : Nat
  parallel : Bool
  deriving DecidableEq, Repr

def CompressOptions.default : CompressOptions := ⟨65536, 32, true⟩

def compressBlock (block : Bytes) (opts : CompressOptions) : Result Bytes := do
  let (pivot, leftTokens, rightTokens) ← encodeBidirectional block opts.maxDepth
  let leftCount := UInt32.ofNat leftTokens.length
  let combined := leftTokens ++ rightTokens
  let (table, bitstream) ← encodeTokens combined
  .ok (u32Bytes (UInt32.ofNat pivot) ++ u32Bytes leftCount ++ serialiseTable table ++ bitstream)

def decompressBlock (compressed : Bytes) (uncompressedLen : Nat) : Result Bytes := do
  Outcome.ensure (10 ≤ compressed.length) (.decompressError "block too short")
  let pivot ← readU32 compressed 0
  let leftCount ← readU32 compressed 4
  let tableBytes ← Outcome.slice compressed 8 compressed.length
  let (table, tableConsumed) ← deserialiseTable tableBytes
  let bitstream ← Outcome.slice compressed (8 + tableConsumed) compressed.length
  let combined ← decodeTokensReserving table bitstream uncompressedLen
  Outcome.ensure (leftCount.toNat ≤ combined.length) (.decompressError
    ("left_count " ++ toString leftCount.toNat ++ " > total tokens " ++ toString combined.length))
  let leftTokens ← Outcome.slice combined 0 leftCount.toNat
  let rightTokens ← Outcome.slice combined leftCount.toNat combined.length
  decodeBidirectional pivot.toNat leftTokens rightTokens uncompressedLen

/-! What a block holds. -/
def blockTokens (compressed : Bytes) : Result (List Token) := do
  let tableBytes ← Outcome.slice compressed 8 compressed.length
  let (table, tableConsumed) ← deserialiseTable tableBytes
  let bitstream ← Outcome.slice compressed (8 + tableConsumed) compressed.length
  decodeTokens table bitstream 0

def pivotField (compressed : Bytes) : Nat := LittleEndian.decode (compressed.take 4)

def leftCountField (compressed : Bytes) : Nat := LittleEndian.decode ((compressed.drop 4).take 4)

/-! Many blocks. -/
/-- `data.chunks(block_size)` refuses a size of zero; the empty input never gets there. -/
def splitIntoBlocks (data : Bytes) (blockSize : Nat) : Result (List Bytes) :=
  if data = [] then .ok [] else do
    Outcome.assert (blockSize ≠ 0)
    .ok (Chunks.chunks blockSize data)

/-- `par_iter().map(..).collect()`: on calls that return or panic it is the map in input order. -/
structure Rayon where
  parMap : (Bytes → Result Bytes) → List Bytes → Result (List Bytes)
  inOrder : ∀ f blocks, (∀ b ∈ blocks, (∃ c, f b = .ok c) ∨ f b = .panic) → parMap f blocks = blocks.mapM f

def Rayon.sequential : Rayon := ⟨fun f blocks => blocks.mapM f, fun _ _ _ => rfl⟩

def blockEntry (compressed block : Bytes) : BlockEntry :=
  ⟨UInt32.ofNat compressed.length, UInt32.ofNat block.length, crc32 block⟩

def compressBlocks (rayon : Rayon) (blocks : List Bytes) (opts : CompressOptions) :
    Result (List Bytes × List BlockEntry) := do
  let compressed ← (if opts.parallel = true ∧ blocks.length > 1 then
      rayon.parMap (fun b => compressBlock b opts) blocks
    else blocks.mapM (fun b => compressBlock b opts) : Result (List Bytes))
  .ok (compressed, compressed.zipWith blockEntry blocks)

end Openpresser.Block
