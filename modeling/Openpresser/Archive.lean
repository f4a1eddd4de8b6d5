import Openpresser.Block

/-! `compress.rs`, `decompress.rs` and `info.rs`. The archive walk is written twice
in the source, once for its bytes and once for its checks, and is twice here. -/
namespace Openpresser.Archive
open Block (CompressOptions Rayon compressBlocks decompressBlock splitIntoBlocks)
open Format (BlockEntry PpmoHeader crc32 flagParallel readHeader writeHeader)

def compress (rayon : Rayon) (input : Bytes) (opts : CompressOptions) : Result Bytes := do
  let blocks ← splitIntoBlocks input opts.blockSize
  let (compressed, entries) ← compressBlocks rayon blocks opts
  let flags := if opts.parallel = true then flagParallel else 0
  let header : PpmoHeader := ⟨flags, UInt32.ofNat entries.length, UInt64.ofNat input.length,
    UInt32.ofNat opts.blockSize⟩
  .ok (writeHeader header entries ++ compressed.flatten)

def decompressFrom (input : Bytes) : List BlockEntry → Nat → Bytes → Result Bytes
  | [], _, out => .ok out
  | entry :: directory, dataOffset, out => do
    let stop := dataOffset + entry.compressedLen.toNat
    Outcome.ensure (stop ≤ input.length) (.decompressError "truncated block data")
    let blockData ← Outcome.slice input dataOffset stop
    let raw ← decompressBlock blockData entry.uncompressedLen.toNat
    Outcome.ensure (crc32 raw = entry.crc32) .checksumMismatch
    decompressFrom input directory stop (out ++ raw)

/-- `Vec::with_capacity` panics on a request above `isize::MAX`. -/
def decompress (input : Bytes) : Result Bytes := do
  let (header, directory, dataOffset) ← readHeader input
  Outcome.assert (header.originalSize.toNat ≤ isizeMax)
  let out ← decompressFrom input directory dataOffset []
  Outcome.ensure (out.length = header.originalSize.toNat) (.decompressError
    ("size mismatch: expected " ++ toString header.originalSize.toNat ++ " bytes, got " ++
      toString out.length))
  .ok out

structure ArchiveInfo where
  version : UInt8
  parallel : Bool
  blockCount : UInt32
  originalSize : UInt64
  blockSize : UInt32
  compressedSize : Nat
  ratio : Float
  spaceSaving : Float

def inspect (input : Bytes) : Result ArchiveInfo := do
  let (header, _directory, _dataOffset) ← readHeader input
  let compressedSize := input.length
  let originalSize := header.originalSize
  let (ratio, spaceSaving) :=
    if originalSize = 0 ∨ compressedSize = 0 then ((1.0 : Float), (0.0 : Float))
    else (originalSize.toFloat / Float.ofNat compressedSize,
      1.0 - Float.ofNat compressedSize / originalSize.toFloat)
  .ok ⟨Format.version, header.flags &&& flagParallel ≠ 0, header.blockCount, originalSize, header.blockSize,
    compressedSize, ratio, spaceSaving⟩

def verifyFrom (input : Bytes) : Nat → List BlockEntry → Nat → Nat → Result Nat
  | _, [], _, total => .ok total
  | i, entry :: directory, dataOffset, total => do
    let stop := dataOffset + entry.compressedLen.toNat
    Outcome.ensure (stop ≤ input.length) (.decompressError ("block " ++ toString i ++ ": truncated block data"))
    let blockData ← Outcome.slice input dataOffset stop
    let raw ← decompressBlock blockData entry.uncompressedLen.toNat
    Outcome.ensure (crc32 raw = entry.crc32) .checksumMismatch
    let total ← Outcome.add 64 total raw.length
    verifyFrom input (i + 1) directory stop total

def verify (input : Bytes) : Result ArchiveInfo := do
  let (header, directory, dataOffset) ← readHeader input
  let total ← verifyFrom input 0 directory dataOffset 0
  Outcome.ensure (total = header.originalSize.toNat) (.decompressError
    ("size mismatch: header claims " ++ toString header.originalSize.toNat ++ " bytes, blocks sum to " ++
      toString total))
  inspect input

end Openpresser.Archive
