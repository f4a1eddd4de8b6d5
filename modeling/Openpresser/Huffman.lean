import Openpresser.Lz
import Openpresser.Library.PackageMerge

/-! `huffman.rs`. Symbols, lengths, codes and accumulators are numbers with the
casts and the width checks of the source written out; vectors that are indexed
by a computed position are arrays. -/
namespace Openpresser.Huffman
open Lz (Token)

def maxCodeLen : Nat := 15
def eob : Nat := 515
def u16Max : Nat := 65535

structure HuffmanTable where
  -- symbol ↦ (code, len)
  encode : Array (Nat × Nat)
  -- (symbol, len), by length and then by symbol
  lengths : List (Nat × Nat)
  symbolCount : Nat
  -- the next 15 bits ↦ (symbol, len)
  decodeTable : Array (Nat × Nat)

/-! Canonical codes. -/
def shorterFirst (a b : Nat × Nat) : Prop := a.2 < b.2 ∨ (a.2 = b.2 ∧ a.1 ≤ b.1)
instance : DecidableRel shorterFirst := fun a b => by unfold shorterFirst; infer_instance

def present (lengthsMap : List Nat) : List (Nat × Nat) :=
  (lengthsMap.zipIdx.filter (fun p => 0 < p.1)).map (fun p => (p.2 % 65536, p.1))

def assignCodes : List (Nat × Nat) → Array (Nat × Nat) → Nat → Nat → Result (Array (Nat × Nat))
  | [], encode, _, _ => .ok encode
  | (sym, len) :: rest, encode, code, prevLen => do
    let code ← (if prevLen > 0 then do
        let following ← Outcome.add 32 code 1
        let grow ← Outcome.sub len prevLen
        Outcome.shiftLeft 32 following grow
      else .ok code : Result Nat)
    let encode ← Outcome.store encode sym (code, len)
    assignCodes rest encode code len

def fillEntry (encode decodeTable : Array (Nat × Nat)) (entry : Nat × Nat) : Result (Array (Nat × Nat)) := do
  let (c, _) ← Outcome.index encode entry.1
  let pad ← Outcome.sub maxCodeLen entry.2
  let base ← Outcome.shiftLeft 64 c pad
  (List.range (2 ^ pad)).foldlM (fun table i => Outcome.store table (base ||| i) entry) decodeTable

def fromLengths (lengthsMap : List Nat) : Result HuffmanTable := do
  let n := lengthsMap.length
  let lengths := (present lengthsMap).insertionSort shorterFirst
  let encode ← assignCodes lengths (Array.replicate n (0, 0)) 0 0
  let decodeTable ← lengths.foldlM (fillEntry encode) (Array.replicate (2 ^ maxCodeLen) (u16Max, 0))
  .ok ⟨encode, lengths, n, decodeTable⟩

def HuffmanTable.empty (n : Nat) : HuffmanTable := ⟨Array.replicate n (0, 0), [], n, #[]⟩

def HuffmanTable.encodeSymbol (table : HuffmanTable) (sym : Nat) : Result (Nat × Nat) :=
  Outcome.index table.encode sym

def HuffmanTable.decodeSymbol (table : HuffmanTable) (bits : Nat) : Result (Nat × Nat) := do
  let entry ← Outcome.index table.decodeTable (bits >>> (32 - maxCodeLen))
  Outcome.ensure (entry.1 ≠ u16Max) (.decompressError "invalid Huffman code")
  .ok entry

/-! Package-merge. -/
abbrev Item := PackageMerge.Item Nat

def packagePairs : List Item → Result (List Item)
  | [] => .ok []
  | [_] => .ok []
  | x :: y :: rest => do
    let mergedFreq ← Outcome.add 64 x.1 y.1
    let packages ← packagePairs rest
    .ok ((mergedFreq, x.2 ++ y.2) :: packages)

def mergeSorted (a b : List Item) : List Item := a.merge b (fun x y => x.1 ≤ y.1)

def mergeRounds (leaves : List Item) : Nat → List Item → Result (List Item)
  | 0, items => .ok items
  | k+1, items => do
    let packages ← packagePairs items
    mergeRounds leaves k (mergeSorted leaves packages)

def countSymbol (alphabet : Nat) (counts : Array Nat) (sym : Nat) : Result (Array Nat) :=
  if sym < alphabet then do
    let c ← Outcome.index counts sym
    let c ← Outcome.add 8 c 1
    Outcome.store counts sym c
  else .ok counts

def packageMerge (symbols : List (Nat × Nat)) (alphabet maxLen : Nat) : Result (List Nat) := do
  let sorted := symbols.insertionSort (fun a b => a.1 ≤ b.1)
  let leaves : List Item := sorted.map (fun e => (e.1, [e.2]))
  let items ← mergeRounds leaves (maxLen - 1) leaves
  let n := sorted.length
  let take := min (2 * n - 2) items.length
  let counts ← ((items.take take).flatMap Prod.snd).foldlM (countSymbol alphabet) (Array.replicate alphabet 0)
  .ok counts.toList

/-- The symbols of non-zero frequency, in order, and the end-of-block symbol last when it has none. -/
def usedSymbols (freqs : List Nat) : List (Nat × Nat) :=
  let symbols := (freqs.zipIdx.filter (fun p => p.1 > 0)).map (fun p => (p.1, p.2 % 65536))
  if eob ≥ freqs.length ∨ freqs[eob]? = some 0 then symbols ++ [(1, eob)] else symbols

def build (freqs : List Nat) : Result HuffmanTable :=
  let n := freqs.length
  if (freqs.zipIdx.filter (fun p => p.1 > 0)) = [] then .ok (HuffmanTable.empty n) else do
    let symbols := usedSymbols freqs
    let lengthsMap ← (match symbols with
      | [(_, sym)] => .ok ((List.replicate (max n (sym + 1)) 0).set sym 1)
      | _ => packageMerge symbols (max n (eob + 1)) maxCodeLen : Result (List Nat))
    fromLengths lengthsMap

/-! Bit streams, most significant bit first. -/
structure BitWriter where
  buf : Bytes
  acc : Nat
  bits : Nat

namespace BitWriter

def new : BitWriter := ⟨[], 0, 0⟩

/-- `while self.bits >= 8`; a round takes eight bits, so `bits + 1` rounds are more than enough. -/
def drain : Nat → BitWriter → Result BitWriter
  | 0, _ => .diverge
  | fuel+1, w =>
    if w.bits ≥ 8 then do
      let top ← Outcome.shiftRight 64 w.acc (w.bits - 8)
      drain fuel ⟨w.buf ++ [UInt8.ofNat top], w.acc, w.bits - 8⟩
    else .ok w

def writeBits (w : BitWriter) (code len : Nat) : Result BitWriter :=
  if len = 0 then .ok w else do
    let shifted ← Outcome.shiftLeft 64 w.acc len
    let one ← Outcome.shiftLeft 64 1 len
    let mask ← Outcome.sub one 1
    let bits := w.bits + len
    drain (bits + 1) ⟨w.buf, shifted ||| (code &&& mask), bits⟩

def finish (w : BitWriter) : Result Bytes :=
  if w.bits > 0 then do
    let n ← Outcome.sub 8 w.bits
    let last ← Outcome.shiftLeft 64 w.acc n
    .ok (w.buf ++ [UInt8.ofNat last])
  else .ok w.buf

end BitWriter

structure BitReader where
  data : Bytes
  pos : Nat
  acc : Nat
  bits : Nat

namespace BitReader

def new (data : Bytes) : BitReader := ⟨data, 0, 0, 0⟩

/-- `while self.bits <= 56 && self.pos < self.data.len()`; eight rounds fill the accumulator. -/
def refillLoop : Nat → BitReader → Result BitReader
  | 0, _ => .diverge
  | fuel+1, r =>
    if r.bits ≤ 56 ∧ r.pos < r.data.length then do
      let shifted ← Outcome.shiftLeft 64 r.acc 8
      let b ← Outcome.get r.data r.pos
      refillLoop fuel ⟨r.data, r.pos + 1, shifted ||| b.toNat, r.bits + 8⟩
    else .ok r

def refill (r : BitReader) : Result BitReader := refillLoop 9 r

def peek32 (r : BitReader) : Result (Nat × BitReader) := do
  let r ← r.refill
  if r.bits ≥ 32 then do
    let top ← Outcome.shiftRight 64 r.acc (r.bits - 32)
    .ok (top % 2 ^ 32, r)
  else do
    let top ← Outcome.shiftLeft 64 r.acc (32 - r.bits)
    .ok (top % 2 ^ 32, r)

def consume (r : BitReader) (n : Nat) : Result BitReader :=
  let bits := r.bits - n
  if bits < 64 then do
    let one ← Outcome.shiftLeft 64 1 bits
    let mask ← Outcome.sub one 1
    .ok ⟨r.data, r.pos, r.acc &&& mask, bits⟩
  else .ok ⟨r.data, r.pos, r.acc, bits⟩

def readBits (r : BitReader) (n : Nat) : Result (Except EngineError Nat × BitReader) := do
  let r ← r.refill
  if r.bits < n then .ok (.error (.decompressError "unexpected end of bitstream"), r) else do
    let bits := r.bits - n
    let top ← Outcome.shiftRight 64 r.acc bits
    let val := top % 2 ^ 32
    let one ← Outcome.shiftLeft 64 1 bits
    let mask ← Outcome.sub one 1
    let low ← Outcome.shiftLeft 32 1 n
    let valMask ← Outcome.sub low 1
    .ok (.ok (val &&& valMask), ⟨r.data, r.pos, r.acc &&& mask, bits⟩)

/-- The `?` behind a call that leaves a reader, error or not. -/
def orReturn : Except EngineError Nat × BitReader → Result (Nat × BitReader)
  | (.ok v, r) => .ok (v, r)
  | (.error e, _) => .err e

end BitReader

/-! The table on the wire. -/
def serialiseTable (table : HuffmanTable) : Bytes :=
  LittleEndian.encode 2 (table.lengths.length % 65536) ++
    table.lengths.flatMap (fun e => LittleEndian.encode 2 e.1 ++ [UInt8.ofNat e.2])

def readU16 (data : Bytes) (start : Nat) : Result Nat := do
  let raw ← Outcome.slice data start (start + 2)
  .ok (LittleEndian.decode raw)

def largestSymbol (data : Bytes) (m i : Nat) : Result Nat := do
  let sym ← readU16 data (2 + i * 3)
  .ok (if sym > m then sym else m)

def recordLength (data : Bytes) (lengthsMap : Array Nat) (i : Nat) : Result (Array Nat) := do
  let base := 2 + i * 3
  let sym ← readU16 data base
  let len ← Outcome.get data (base + 2)
  if sym < lengthsMap.size then Outcome.store lengthsMap sym len.toNat else .ok lengthsMap

def deserialiseTable (data : Bytes) : Result (HuffmanTable × Nat) := do
  Outcome.ensure (2 ≤ data.length) (.decompressError "table too short")
  let count ← readU16 data 0
  let needed := 2 + count * 3
  Outcome.ensure (needed ≤ data.length) (.decompressError "truncated table")
  let maxSym ← (if count = 0 then .ok 0 else do
    let m ← (List.range count).foldlM (largestSymbol data) 0
    .ok (m + 1) : Result Nat)
  let lengthsMap ← (List.range count).foldlM (recordLength data) (Array.replicate maxSym 0)
  let table ← fromLengths lengthsMap.toList
  .ok (table, needed)

/-! Token streams. -/
def symbolOf : Token → Nat
  | .literal b => b.toNat
  | .matched _ length => 256 + length.toNat

def countToken (freqs : Array Nat) (tok : Token) : Result (Array Nat) := do
  let f ← Outcome.index freqs (symbolOf tok)
  Outcome.store freqs (symbolOf tok) (f + 1)

def writeToken (table : HuffmanTable) (bw : BitWriter) (tok : Token) : Result BitWriter := do
  let (code, len) ← table.encodeSymbol (symbolOf tok % 65536)
  let bw ← bw.writeBits code len
  match tok with
  | .literal _ => .ok bw
  | .matched distance _ => bw.writeBits distance.toNat 16

def encodeTokens (tokens : List Token) : Result (HuffmanTable × Bytes) := do
  let freqs ← tokens.foldlM countToken (Array.replicate (eob + 1) 0)
  let f ← Outcome.index freqs eob
  let freqs ← Outcome.store freqs eob (f + 1)
  let table ← build freqs.toList
  let bw ← tokens.foldlM (writeToken table) BitWriter.new
  let (code, len) ← table.encodeSymbol eob
  let bw ← bw.writeBits code len
  let bitstream ← bw.finish
  .ok (table, bitstream)

/-- `loop { .. }` with a bound on its iterations. -/
def decodeLoop (table : HuffmanTable) : Nat → BitReader → Result (List Token)
  | 0, _ => .diverge
  | iterations+1, br => do
    let (bits32, br) ← br.peek32
    let (sym, len) ← table.decodeSymbol bits32
    let br ← br.consume len
    if sym = eob then .ok []
    else if sym < 256 then do
      let tokens ← decodeLoop table iterations br
      .ok (.literal (UInt8.ofNat sym) :: tokens)
    else do
      let length := (sym - 256) % 65536
      let answered ← br.readBits 16
      let (distance, br) ← BitReader.orReturn answered
      let tokens ← decodeLoop table iterations br
      .ok (.matched (UInt16.ofNat distance) (UInt16.ofNat length) :: tokens)

/-- `decode_tokens` with its tokens reserved. A run still going after `8 * len + 1` iterations
never ends. -/
def decodeTokens (table : HuffmanTable) (bitstream : Bytes) (_tokenCapacity : Nat) : Result (List Token) :=
  decodeLoop table (8 * bitstream.length + 1) (BitReader.new bitstream)

-- an enumeration of a `u8` and two `u16`
def tokenBytes : Nat := 6

/-- `decode_tokens`, which reserves first: `Vec::with_capacity` panics above `isize::MAX` bytes. -/
def decodeTokensReserving (table : HuffmanTable) (bitstream : Bytes) (tokenCapacity : Nat) :
    Result (List Token) := do
  Outcome.assert (tokenBytes * tokenCapacity ≤ isizeMax)
  decodeTokens table bitstream tokenCapacity

end Openpresser.Huffman
