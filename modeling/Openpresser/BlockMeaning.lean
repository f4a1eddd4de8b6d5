import Openpresser.Clamping
import Openpresser.BlockFields
import Openpresser.StreamGrammar
import Openpresser.TableReader

/-! What the bytes of a block say, for any bytes. The reader gives that meaning where
there is one; the rest it refuses, except for the blocks that stop or hang the program. -/
namespace Openpresser.Huffman
open Lz (Token)

/-! Symbols without a length do not matter to a code. -/
structure SameLengths (a b : List Nat) : Prop where
  length : ∀ s, a.getD s 0 = b.getD s 0
  codeword : ∀ s, canonical a s = canonical b s

theorem presentPadded (lengthsMap : List Nat) (n : Nat) :
    present (lengthsMap ++ List.replicate n 0) = present lengthsMap := by
  have silent : ((List.replicate n 0).zipIdx (0 + lengthsMap.length)).filter (fun p => 0 < p.1) = [] := by
    refine List.filter_eq_nil_iff.mpr fun p member => ?_
    have zero := List.eq_of_mem_replicate (List.fst_mem_of_mem_zipIdx member)
    simp [zero]
  rw [present, List.zipIdx_append, List.filter_append, silent, List.append_nil, present]

theorem samePadded (lengthsMap : List Nat) (n : Nat) :
    SameLengths lengthsMap (lengthsMap ++ List.replicate n 0) := by
  have length : ∀ s, lengthsMap.getD s 0 = (lengthsMap ++ List.replicate n 0).getD s 0 := by
    intro s
    rw [List.getD_eq_getElem?_getD, List.getD_eq_getElem?_getD]
    by_cases inside : s < lengthsMap.length
    · rw [List.getElem?_append_left inside]
    · rw [List.getElem?_append_right (by omega), List.getElem?_eq_none (by omega), List.getElem?_replicate]
      split <;> rfl
  exact ⟨length, fun s => by rw [canonical, canonical, presentPadded, ← length]⟩

theorem sameSymm {a b : List Nat} (same : SameLengths a b) : SameLengths b a :=
  ⟨fun s => (same.length s).symm, fun s => (same.codeword s).symm⟩

theorem sameNext {a b : List Nat} (same : SameLengths a b) {bits : List Bool} {s : Nat} (next : Next a bits s) :
    Next b bits s :=
  ⟨same.length s ▸ next.coded, next.usable, same.codeword s ▸ next.front⟩

theorem sameSpells {a b : List Nat} (same : SameLengths a b) {bits : List Bool} {tokens : List Token}
    (spells : Spells a bits tokens) : Spells b bits tokens := by
  induction spells with
  | stop next => exact .stop (sameNext same next)
  | literal next tail ih => exact .literal (sameNext same next) (same.length _ ▸ ih)
  | matched next goesOn split tail ih => exact .matched (sameNext same next) goesOn (same.codeword _ ▸ split) ih

theorem sameStarves {a b : List Nat} (same : SameLengths a b) {bits : List Bool} (starves : Starves a bits) :
    Starves b bits := by
  induction starves with
  | dry next => exact .dry (sameNext same next)
  | literal next tail ih => exact .literal (sameNext same next) (same.length _ ▸ ih)
  | matched next goesOn split tail ih => exact .matched (sameNext same next) goesOn (same.codeword _ ▸ split) ih

theorem gatheredPadded {data : Bytes} {lengths : Array Nat} (gathered : Gathered data lengths) :
    resulting data = lengths.toList ++ List.replicate (65536 - lengths.size) 0 := by
  have small := gathered.small
  apply List.ext_getElem?
  intro s
  by_cases inside : s < lengths.size
  · rw [resulting, List.getElem?_map, List.getElem?_range (by omega), List.getElem?_append_left (by simpa using inside),
      Array.getElem?_toList, gathered.inside s inside]
    rfl
  · rw [List.getElem?_append_right (by simpa using inside), List.getElem?_replicate, resulting, List.getElem?_map,
      Array.length_toList]
    by_cases bound : s < 65536
    · rw [List.getElem?_range bound, if_pos (by omega), Option.map_some, gathered.beyond s (by omega)]
    · rw [List.getElem?_eq_none (by simpa using bound), if_neg (by omega)]
      rfl

theorem deserialiseMeans {data : Bytes} (long : ¬ Short data) :
    (KraftLengths (resulting data) ∧ ∃ lengthsMap table, ValidMap lengthsMap ∧
      fromLengths lengthsMap = .ok table ∧ SameLengths lengthsMap (resulting data) ∧
      deserialiseTable data = .ok (table, 2 + announced data * 3)) ∨
    (¬ KraftLengths (resulting data) ∧ deserialiseTable data = .panic) := by
  obtain ⟨lengths, gathered, run⟩ := deserialiseGathers long
  have kraft := gatheredKraft gathered
  have small : lengths.toList.length ≤ 65536 := Array.length_toList ▸ gathered.small
  rcases fromLengthsCases small with ⟨fits, table, made⟩ | ⟨excess, stopped⟩
  · rw [made, Outcome.okBind] at run
    exact .inl ⟨kraft.mp fits, _, table, (validIff small).mpr fits, made,
      gatheredPadded gathered ▸ samePadded _ _, run⟩
  · rw [stopped, Outcome.panicBind] at run
    exact .inr ⟨fun fits => excess (kraft.mpr fits), run⟩

end Openpresser.Huffman

namespace Openpresser.Block
open Huffman (KraftLengths Short Spells Starves announced resulting tokenBytes)
open Lz (Token expand lengthExpand)

/-! The three parts of a block behind its two fields. -/
def tableOf (compressed : Bytes) : Bytes := compressed.drop 8

def lengthsOf (compressed : Bytes) : List Nat := resulting (tableOf compressed)

def streamOf (compressed : Bytes) : List Bool :=
  Bits.ofBytes (compressed.drop (8 + (2 + announced (tableOf compressed) * 3)))

def meaning (compressed : Bytes) (tokens : List Token) : Bytes :=
  expand (tokens.take (leftCountField compressed)) ++ expand (tokens.drop (leftCountField compressed))

theorem lengthMeaning (compressed : Bytes) (tokens : List Token) :
    (meaning compressed tokens).length = (tokens.map Token.span).sum := by
  rw [meaning, List.length_append, lengthExpand, lengthExpand, ← List.sum_append, ← List.map_append,
    List.take_append_drop]

/-- The tokens of a block, where its table is a code and its stream keeps to the grammar. -/
structure Tells (compressed : Bytes) (tokens : List Token) : Prop where
  whole : ¬ Short (tableOf compressed)
  lengths : KraftLengths (lengthsOf compressed)
  spells : Spells (lengthsOf compressed) (streamOf compressed) tokens

structure Says (compressed : Bytes) (declared : Nat) (raw : Bytes) : Prop where
  decoded : ∃ tokens, Tells compressed tokens ∧ leftCountField compressed ≤ tokens.length ∧
    raw = meaning compressed tokens
  inside : pivotField compressed ≤ declared

def Panics (compressed : Bytes) (declared : Nat) : Prop :=
  (¬ Short (tableOf compressed) ∧ ¬ KraftLengths (lengthsOf compressed)) ∨
  (∃ tokens, Tells compressed tokens ∧ leftCountField compressed ≤ tokens.length ∧ declared < pivotField compressed)

structure Spins (compressed : Bytes) : Prop where
  whole : ¬ Short (tableOf compressed)
  lengths : KraftLengths (lengthsOf compressed)
  starves : Starves (lengthsOf compressed) (streamOf compressed)

theorem decodeBidirectionalExpands (pivot declared : Nat) (left right : List Token) :
    MiddleOut.decodeBidirectional pivot left right declared =
      if pivot ≤ declared then .ok (expand left ++ expand right) else .panic := by
  rw [MiddleOut.decodeBidirectional, Lz.detokeniseExpands, Outcome.okBind]
  split
  · rename_i inside
    rw [Outcome.subFits inside, Outcome.okBind, Lz.detokeniseExpands, Outcome.okBind]
  · rename_i outside
    rw [Outcome.sub, if_neg outside, Outcome.panicBind]

theorem tableLong {compressed : Bytes} (whole : ¬ Short (tableOf compressed)) : 10 ≤ compressed.length := by
  have two := (not_or.mp whole).1
  rw [tableOf, List.length_drop] at two
  omega

theorem decompressBlockExpands {compressed : Bytes} {declared : Nat} (long : 10 ≤ compressed.length)
    (room : tokenBytes * declared ≤ isizeMax) :
    decompressBlock compressed declared = blockTokens compressed >>= fun tokens =>
      if leftCountField compressed ≤ tokens.length then
        if pivotField compressed ≤ declared then .ok (meaning compressed tokens) else .panic
      else .err (.decompressError ("left_count " ++ toString (leftCountField compressed) ++ " > total tokens " ++
        toString tokens.length)) := by
  rw [decompressBlockTokens long room]
  congr 1
  funext tokens
  by_cases enough : leftCountField compressed ≤ tokens.length
  · rw [Outcome.ensurePass _ enough, Outcome.okBind, if_pos enough, decodeBidirectionalExpands, meaning]
  · rw [Outcome.ensureFail _ enough, Outcome.errBind, if_neg enough]

theorem tableSlice {compressed : Bytes} (long : 10 ≤ compressed.length) :
    (Outcome.slice compressed 8 compressed.length : Result Bytes) = .ok (tableOf compressed) := by
  rw [Outcome.sliceInside (by omega) (Nat.le_refl _), List.take_of_length_le (by rw [List.length_drop]), tableOf]

theorem streamSlice {compressed : Bytes} (whole : ¬ Short (tableOf compressed)) :
    (Outcome.slice compressed (8 + (2 + announced (tableOf compressed) * 3)) compressed.length : Result Bytes) =
      .ok (compressed.drop (8 + (2 + announced (tableOf compressed) * 3))) := by
  have long := tableLong whole
  have enough := (not_or.mp whole).2
  have behind : (tableOf compressed).length = compressed.length - 8 := List.length_drop
  rw [Outcome.sliceInside (by omega) (Nat.le_refl _), List.take_of_length_le (by rw [List.length_drop])]

theorem blockTokensMeans {compressed : Bytes} (whole : ¬ Short (tableOf compressed)) :
    (∀ tokens, blockTokens compressed = .ok tokens ↔ Tells compressed tokens) ∧
    (blockTokens compressed = .panic ↔ ¬ KraftLengths (lengthsOf compressed)) ∧
    (blockTokens compressed = .diverge ↔ Spins compressed) := by
  rw [blockTokens, tableSlice (tableLong whole), Outcome.okBind]
  rcases Huffman.deserialiseMeans whole with ⟨lengths, lengthsMap, made, valid, run, same, read⟩ | ⟨excess, stopped⟩
  · have stream := streamSlice whole
    obtain ⟨decoded, spins, quiet⟩ := Huffman.decodeTokensMeans valid run
      (compressed.drop (8 + (2 + announced (tableOf compressed) * 3))) 0
    simp only [read, Outcome.okBind, stream]
    refine ⟨fun tokens => ?_, ⟨fun stopped => absurd stopped quiet, fun excess => absurd lengths excess⟩, ?_⟩
    · rw [decoded]
      exact ⟨fun spells => ⟨whole, lengths, Huffman.sameSpells same spells⟩,
        fun tells => Huffman.sameSpells (Huffman.sameSymm same) tells.spells⟩
    · rw [spins]
      exact ⟨fun starves => ⟨whole, lengths, Huffman.sameStarves same starves⟩,
        fun spins => Huffman.sameStarves (Huffman.sameSymm same) spins.starves⟩
  · rw [stopped, Outcome.panicBind]
    refine ⟨fun tokens => ⟨fun run => by contradiction, fun tells => absurd tells.lengths excess⟩,
      ⟨fun _ => excess, fun _ => rfl⟩, ⟨fun run => by contradiction, fun spins => absurd spins.lengths excess⟩⟩

theorem tellsOnce {compressed : Bytes} {tokens tokens' : List Token} (tells : Tells compressed tokens)
    (tells' : Tells compressed tokens') : tokens = tokens' := by
  have decoded := (blockTokensMeans tells.whole).1
  exact Outcome.ok.inj (((decoded tokens).mpr tells).symm.trans ((decoded tokens').mpr tells'))

theorem decompressBlockShort {compressed : Bytes} (short : Short (tableOf compressed)) (declared : Nat) :
    ∃ e, decompressBlock compressed declared = .err e := by
  by_cases long : 10 ≤ compressed.length
  · obtain ⟨e, failed⟩ := Outcome.failsIff.mp (Huffman.deserialiseShort short)
    obtain ⟨_, _, readPivot, _, readCount, _⟩ := blockFieldsRead long
    exact ⟨e, by simp only [decompressBlock, Outcome.ensurePass _ long, readPivot, readCount, tableSlice long, failed,
      Outcome.okBind, Outcome.errBind]⟩
  · exact ⟨_, by rw [decompressBlock, Outcome.ensureFail _ long, Outcome.errBind]⟩

theorem decompressBlockOverflows {compressed : Bytes} (whole : ¬ Short (tableOf compressed)) {declared : Nat}
    (excess : isizeMax < tokenBytes * declared) : decompressBlock compressed declared = .panic := by
  have long := tableLong whole
  obtain ⟨_, _, readPivot, _, readCount, _⟩ := blockFieldsRead long
  simp only [decompressBlock, Outcome.ensurePass _ long, readPivot, readCount, tableSlice long, Outcome.okBind]
  rcases Huffman.deserialiseMeans whole with ⟨_, _, _, _, _, _, read⟩ | ⟨_, stopped⟩
  · simp only [read, streamSlice whole, Outcome.okBind, Huffman.decodeTokensReserving, Outcome.assert,
      if_neg (Nat.not_le.mpr excess), Outcome.panicBind]
  · rw [stopped, Outcome.panicBind]

section
variable {compressed : Bytes} {declared : Nat} (room : tokenBytes * declared ≤ isizeMax)
include room

theorem decompressBlockSays {raw : Bytes} :
    decompressBlock compressed declared = .ok raw ↔ Says compressed declared raw := by
  by_cases short : Short (tableOf compressed)
  · obtain ⟨e, failed⟩ := decompressBlockShort short declared
    rw [failed]
    refine ⟨fun run => by contradiction, fun said => ?_⟩
    obtain ⟨tokens, tells, _⟩ := said.decoded
    exact absurd short tells.whole
  rw [decompressBlockExpands (tableLong short) room, Outcome.bindOk]
  constructor
  · rintro ⟨tokens, run, last⟩
    split at last
    · split at last
      · exact ⟨⟨tokens, ((blockTokensMeans short).1 _).mp run, ‹_›, (Outcome.ok.inj last).symm⟩, ‹_›⟩
      · contradiction
    · contradiction
  · rintro ⟨⟨tokens, tells, enough, rfl⟩, inside⟩
    exact ⟨tokens, ((blockTokensMeans short).1 _).mpr tells, by rw [if_pos enough, if_pos inside]⟩

theorem decompressBlockPanics : decompressBlock compressed declared = .panic ↔ Panics compressed declared := by
  by_cases short : Short (tableOf compressed)
  · obtain ⟨e, failed⟩ := decompressBlockShort short declared
    rw [failed]
    refine ⟨fun run => by contradiction, ?_⟩
    rintro (⟨whole, _⟩ | ⟨tokens, tells, _⟩)
    · exact absurd short whole
    · exact absurd short tells.whole
  rw [decompressBlockExpands (tableLong short) room, Outcome.bindPanic, (blockTokensMeans short).2.1]
  constructor
  · rintro (excess | ⟨tokens, run, last⟩)
    · exact .inl ⟨short, excess⟩
    · split at last
      · split at last
        · contradiction
        · exact .inr ⟨tokens, ((blockTokensMeans short).1 _).mp run, ‹_›, Nat.lt_of_not_le ‹_›⟩
      · contradiction
  · rintro (⟨_, excess⟩ | ⟨tokens, tells, enough, outside⟩)
    · exact .inl excess
    · exact .inr ⟨tokens, ((blockTokensMeans short).1 _).mpr tells,
        by rw [if_pos enough, if_neg (Nat.not_le_of_lt outside)]⟩

theorem decompressBlockSpins : decompressBlock compressed declared = .diverge ↔ Spins compressed := by
  by_cases short : Short (tableOf compressed)
  · obtain ⟨e, failed⟩ := decompressBlockShort short declared
    rw [failed]
    exact ⟨fun run => by contradiction, fun spins => absurd short spins.whole⟩
  rw [decompressBlockExpands (tableLong short) room, Outcome.bindDiverge, (blockTokensMeans short).2.2]
  refine or_iff_left ?_
  rintro ⟨tokens, _, last⟩
  split at last
  · split at last <;> contradiction
  · contradiction

end

/-- What comes back from any block, and the ways in which nothing comes back: where the tokens
can be reserved, a table or a pivot out of bounds and a stream that starves. -/
theorem decompressBlockMeans (compressed : Bytes) (declared : Nat) :
    (tokenBytes * declared ≤ isizeMax →
      (∀ raw, decompressBlock compressed declared = .ok raw ↔ Says compressed declared raw) ∧
      (decompressBlock compressed declared = .panic ↔ Panics compressed declared) ∧
      (decompressBlock compressed declared = .diverge ↔ Spins compressed)) ∧
    (isizeMax < tokenBytes * declared →
      ((∃ e, decompressBlock compressed declared = .err e) ↔ Short (tableOf compressed)) ∧
      (decompressBlock compressed declared = .panic ↔ ¬ Short (tableOf compressed))) := by
  refine ⟨fun room => ⟨fun _ => decompressBlockSays room, decompressBlockPanics room, decompressBlockSpins room⟩,
    fun excess => ?_⟩
  by_cases short : Short (tableOf compressed)
  · obtain ⟨e, failed⟩ := decompressBlockShort short declared
    rw [failed]
    exact ⟨iff_of_true ⟨e, rfl⟩ short, iff_of_false (by rintro ⟨⟩) (not_not_intro short)⟩
  · rw [decompressBlockOverflows short excess]
    exact ⟨iff_of_false (by rintro ⟨_, ⟨⟩⟩) short, iff_of_true rfl short⟩

end Openpresser.Block
