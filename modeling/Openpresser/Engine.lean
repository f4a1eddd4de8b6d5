import Openpresser.Library.Outcome

/-! What every module of the engine shares: the error type of `lib.rs` and the results of
its functions. Arithmetic is checked, as it is where overflow checks are on. A vector that
sits in memory is shorter than `isize::MAX`, and the allocator never runs out. Of the
reservations, the two that an archive can push past that bound are checked: the output of
`decompress` and the tokens of `decode_tokens`. The others are taken to fit: a block's
halves and their join, for which `decode_tokens` has reserved six times as much, and what
the encoder reserves, a few bytes for each byte of its input. -/
namespace Openpresser

abbrev Bytes := List UInt8

inductive EngineError where
  | invalidHeader (message : String)
  | checksumMismatch
  | decompressError (message : String)
  deriving DecidableEq, Repr

inductive Variant where
  | invalidHeader
  | checksumMismatch
  | decompressError
  deriving DecidableEq, Repr

def EngineError.variant : EngineError → Variant
  | .invalidHeader _ => .invalidHeader
  | .checksumMismatch => .checksumMismatch
  | .decompressError _ => .decompressError

/-- The texts of `thiserror`. -/
def EngineError.display : EngineError → String
  | .invalidHeader message => "invalid header: " ++ message
  | .checksumMismatch => "CRC32 checksum mismatch"
  | .decompressError message => "decompression error: " ++ message

abbrev Result (α : Type) := Outcome EngineError α

def isizeMax : Nat := 2 ^ 63 - 1

end Openpresser
