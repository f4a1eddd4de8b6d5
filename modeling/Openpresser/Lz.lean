import Openpresser.Engine
import Openpresser.Library.Bits

/-! `lz.rs`: hash chains and tokens. Stored positions are `u32` and wrap; the
value `u32::MAX` ends a chain whether it was stored as a sentinel or as a position. -/
namespace Openpresser.Lz

def minMatch : Nat := 4
def maxMatch : Nat := 258
def maxDist : Nat := 32768
def hashSize : Nat := 65536
def u32Max : UInt32 := 0xFFFFFFFF

inductive Token where
  | literal (byte : UInt8)
  | matched (distance length : UInt16)
  deriving DecidableEq, Repr

structure HashChain where
  head : Array UInt32
  next : Array UInt32
  maxDepth : Nat

namespace HashChain

def new (dataLen maxDepth : Nat) : HashChain :=
  ⟨Array.replicate hashSize u32Max, Array.replicate (max dataLen 1) u32Max, maxDepth⟩

def hash4 (data : Bytes) (pos : Nat) : Result Nat :=
  if pos + 4 > data.length then .ok 0 else do
    let raw ← Outcome.slice data pos (pos + 4)
    let v := UInt32.ofNat (LittleEndian.decode raw)
    .ok (((v * 0x9E3779B9) >>> 16).toNat &&& (hashSize - 1))

def insert (chain : HashChain) (data : Bytes) (pos : Nat) : Result HashChain := do
  let h ← hash4 data pos
  let prev ← Outcome.index chain.head h
  let next ← Outcome.store chain.next pos prev
  let head ← Outcome.store chain.head h (UInt32.ofNat pos)
  .ok ⟨head, next, chain.maxDepth⟩

/-- Counts equal bytes; the first argument is `max_len - len`. -/
def matchLength (data : Bytes) (pos curPos : Nat) : Nat → Nat → Result Nat
  | 0, len => .ok len
  | left+1, len => do
    let a ← Outcome.get data (pos + len)
    let b ← Outcome.get data (curPos + len)
    if a = b then matchLength data pos curPos left (len + 1) else .ok len

/-- The chain walk; the first argument is `max_depth - depth`. -/
def search (chain : HashChain) (data : Bytes) (pos limit maxLen : Nat) :
    Nat → UInt32 → Nat → UInt16 → Result (Nat × UInt16)
  | 0, _, bestLen, bestDist => .ok (bestLen, bestDist)
  | left+1, cur, bestLen, bestDist =>
    if cur = u32Max then .ok (bestLen, bestDist)
    else if cur.toNat < limit then .ok (bestLen, bestDist)
    else do
      let dist ← Outcome.sub pos cur.toNat
      if dist = 0 then do
        let following ← Outcome.index chain.next cur.toNat
        search chain data pos limit maxLen left following bestLen bestDist
      else do
        let len ← matchLength data pos cur.toNat maxLen 0
        if len > bestLen then
          if len = maxMatch then .ok (len, UInt16.ofNat dist)
          else do
            let following ← Outcome.index chain.next cur.toNat
            search chain data pos limit maxLen left following len (UInt16.ofNat dist)
        else do
          let following ← Outcome.index chain.next cur.toNat
          search chain data pos limit maxLen left following bestLen bestDist

def findLongestMatchForward (chain : HashChain) (data : Bytes) (pos : Nat) :
    Result (Option (UInt16 × UInt16)) :=
  if pos + minMatch > data.length then .ok none else do
    let h ← hash4 data pos
    let limit := if pos > maxDist then pos - maxDist else 0
    let maxLen := min (data.length - pos) maxMatch
    let cur ← Outcome.index chain.head h
    let (bestLen, bestDist) ← search chain data pos limit maxLen chain.maxDepth cur (minMatch - 1) 0
    if bestLen ≥ minMatch then .ok (some (bestDist, UInt16.ofNat bestLen)) else .ok none

end HashChain

def insertSkipped (data : Bytes) (pos len : Nat) (chain : HashChain) : Result HashChain :=
  (List.range' 1 (len - 1)).foldlM
    (fun chain i => if pos + i < data.length then chain.insert data (pos + i) else .ok chain) chain

def tokeniseFrom (data : Bytes) : Nat → HashChain → Nat → Result (List Token)
  | 0, _, _ => .diverge
  | fuel+1, chain, pos =>
    if pos < data.length then do
      let chain ← chain.insert data pos
      match ← chain.findLongestMatchForward data pos with
      | some (dist, len) => do
        let chain ← insertSkipped data pos len.toNat chain
        let rest ← tokeniseFrom data fuel chain (pos + len.toNat)
        .ok (.matched dist len :: rest)
      | none => do
        let b ← Outcome.get data pos
        let rest ← tokeniseFrom data fuel chain (pos + 1)
        .ok (.literal b :: rest)
    else .ok []

def tokenise (data : Bytes) (maxDepth : Nat) : Result (List Token) :=
  tokeniseFrom data (data.length + 1) (HashChain.new data.length maxDepth) 0

def copyWindow (start dist len : Nat) (out : Bytes) : Result Bytes :=
  (List.range len).foldlM (fun out i => do
    let r ← Outcome.rem i dist
    let b ← Outcome.get out (start + r)
    .ok (out ++ [b])) out

/-- The branch for a distance no encoder writes; an empty buffer supplies one zero byte. -/
def copyDegenerate (start safeDist len : Nat) (out : Bytes) : Result Bytes :=
  (List.range len).foldlM (fun out i =>
    if out = [] then .ok (out ++ [0])
    else do
      let r ← Outcome.rem i safeDist
      let b ← Outcome.get out (start + r)
      .ok (out ++ [b])) out

def emit (out : Bytes) : Token → Result Bytes
  | .literal b => .ok (out ++ [b])
  | .matched distance length =>
    let dist := distance.toNat
    let len := length.toNat
    if dist = 0 ∨ dist > out.length then
      let safeDist := min (max dist 1) (max out.length 1)
      let start := out.length - safeDist
      copyDegenerate start safeDist len out
    else do
      let start ← Outcome.sub out.length dist
      copyWindow start dist len out

def detokenise (tokens : List Token) (_capacityHint : Nat) : Result Bytes := tokens.foldlM emit []

end Openpresser.Lz
