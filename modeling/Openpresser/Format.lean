import Openpresser.Engine
import Openpresser.Library.ShiftRegister

/-! `format.rs`: the CRC of the format and the file header. The directory lies
behind the header's CRC field and is covered by no checksum. -/
namespace Openpresser.Format

def crcEntryStep (c : UInt32) : UInt32 :=
  if c &&& 1 ≠ 0 then (0xEDB88320 : UInt32) ^^^ (c >>> 1) else c >>> 1

def crcEntry : Nat → UInt32 → UInt32
  | 0, c => c
  | k+1, c => crcEntry k (crcEntryStep c)

def makeCrcTable : Vector UInt32 256 := Vector.ofFn (fun i => crcEntry 8 (UInt32.ofNat i.val))

theorem maskBound (c : UInt32) : (c &&& 0xFF).toNat < 256 := by
  rw [UInt32.toNat_and]
  exact Nat.lt_of_le_of_lt Nat.and_le_right (by decide)

def crcUpdate (crc : UInt32) (b : UInt8) : UInt32 :=
  makeCrcTable.get ⟨((crc ^^^ b.toUInt32) &&& 0xFF).toNat, maskBound _⟩ ^^^ (crc >>> 8)

def crc32 (data : Bytes) : UInt32 := data.foldl crcUpdate 0xFFFFFFFF ^^^ 0xFFFFFFFF

def magic : Bytes := [0x50, 0x50, 0x4D, 0x4F]
def version : UInt8 := 0x01
def flagParallel : UInt8 := 0x01
def headerBaseLen : Nat := 26

structure PpmoHeader where
  flags : UInt8
  blockCount : UInt32
  originalSize : UInt64
  blockSize : UInt32
  deriving DecidableEq, Repr

structure BlockEntry where
  compressedLen : UInt32
  uncompressedLen : UInt32
  crc32 : UInt32
  deriving DecidableEq, Repr

def u32Bytes (v : UInt32) : Bytes := LittleEndian.encode 4 v.toNat
def u64Bytes (v : UInt64) : Bytes := LittleEndian.encode 8 v.toNat

/-- Bytes 0..22, what the header CRC covers. -/
def headerFields (hdr : PpmoHeader) : Bytes :=
  magic ++ [version] ++ [hdr.flags] ++ u32Bytes hdr.blockCount ++ u64Bytes hdr.originalSize ++
    u32Bytes hdr.blockSize

def entryBytes (e : BlockEntry) : Bytes :=
  u32Bytes e.compressedLen ++ u32Bytes e.uncompressedLen ++ u32Bytes e.crc32

def writeHeader (hdr : PpmoHeader) (directory : List BlockEntry) : Bytes :=
  let buf := headerFields hdr
  buf ++ u32Bytes (crc32 (buf.take 22)) ++ directory.flatMap entryBytes

def readU32 (data : Bytes) (start : Nat) : Result UInt32 := do
  let raw ← Outcome.slice data start (start + 4)
  .ok (UInt32.ofNat (LittleEndian.decode raw))

def readU64 (data : Bytes) (start : Nat) : Result UInt64 := do
  let raw ← Outcome.slice data start (start + 8)
  .ok (UInt64.ofNat (LittleEndian.decode raw))

def hexByte (b : UInt8) : String :=
  String.ofList [(b.toNat / 16).digitChar.toUpper, (b.toNat % 16).digitChar.toUpper]

def readEntry (data : Bytes) (base : Nat) : Result BlockEntry := do
  let compressedLen ← readU32 data base
  let uncompressedLen ← readU32 data (base + 4)
  let blockCrc ← readU32 data (base + 8)
  .ok ⟨compressedLen, uncompressedLen, blockCrc⟩

def readHeader (data : Bytes) : Result (PpmoHeader × List BlockEntry × Nat) := do
  Outcome.ensure (headerBaseLen ≤ data.length) (.invalidHeader "file too short")
  let found ← Outcome.slice data 0 4
  Outcome.ensure (found = magic) (.invalidHeader "bad magic")
  let v ← Outcome.get data 4
  Outcome.ensure (v = version) (.invalidHeader ("unsupported version 0x" ++ hexByte v))
  let flags ← Outcome.get data 5
  let blockCount ← readU32 data 6
  let originalSize ← readU64 data 10
  let blockSize ← readU32 data 18
  let storedCrc ← readU32 data 22
  let covered ← Outcome.slice data 0 22
  Outcome.ensure (storedCrc = crc32 covered) .checksumMismatch
  let dirOffset := headerBaseLen
  let dirEnd := dirOffset + blockCount.toNat * 12
  Outcome.ensure (dirEnd ≤ data.length) (.invalidHeader "truncated block directory")
  let directory ← (List.range blockCount.toNat).mapM (fun i => readEntry data (dirOffset + i * 12))
  .ok (⟨flags, blockCount, originalSize, blockSize⟩, directory, dirEnd)

end Openpresser.Format
