import Openpresser.ArchiveMeaning
import Mathlib.Tactic.Linarith

/-! How much an archive can say. A match takes seventeen bits and stands for 65278 bytes
at the most, whoever wrote the archive, and some archives say that much. -/
namespace Openpresser.Huffman
open Lz (Token)

theorem spansPay {most : Nat} (enough : 17 ≤ most) {tokens : List Token} (short : ∀ tok ∈ tokens, tok.span ≤ most) :
    17 * (tokens.map Token.span).sum ≤ most * (tokens.map leastBits).sum := by
  induction tokens with
  | nil => simp
  | cons tok tokens ih =>
    have later := ih fun t member => short t (List.mem_cons_of_mem tok member)
    have here : 17 * tok.span ≤ most * leastBits tok := by
      cases tok with
      | literal b =>
        rw [Token.span, leastBits]
        omega
      | matched distance length =>
        have bound := short _ List.mem_cons_self
        rw [leastBits, Nat.mul_comm]
        exact Nat.mul_le_mul_right 17 bound
    rw [List.map_cons, List.map_cons, List.sum_cons, List.sum_cons, Nat.mul_add, Nat.mul_add]
    exact Nat.add_le_add here later

theorem codedInside {lengthsMap : List Nat} {bits : List Bool} {s : Nat} (next : Next lengthsMap bits s) :
    s < lengthsMap.length := by
  by_contra beyond
  have coded := next.coded
  rw [List.getD_eq_getElem?_getD, List.getElem?_eq_none (by omega)] at coded
  exact absurd coded (Nat.lt_irrefl 0)

theorem spellsShort {lengthsMap : List Nat} (small : lengthsMap.length ≤ 65536) {bits : List Bool}
    {tokens : List Token} (spells : Spells lengthsMap bits tokens) : ∀ tok ∈ tokens, tok.span ≤ 65278 := by
  induction spells with
  | stop next => simp
  | literal next tail ih =>
    intro tok member
    rcases List.mem_cons.mp member with rfl | later
    · exact (by decide : 1 ≤ 65278)
    · exact ih tok later
  | @matched bits rest distance length tokens next goesOn split tail ih =>
    intro tok member
    rcases List.mem_cons.mp member with rfl | later
    · have inside := codedInside next
      have usable : 256 + length.toNat ≠ 65535 := next.usable
      rw [Token.span]
      omega
    · exact ih tok later

theorem spellsSome {lengthsMap : List Nat} {bits : List Bool} {tokens : List Token}
    (spells : Spells lengthsMap bits tokens) : ∃ s, 0 < lengthsMap.getD s 0 := by
  cases spells with
  | stop next => exact ⟨_, next.coded⟩
  | literal next _ => exact ⟨_, next.coded⟩
  | matched next _ _ _ => exact ⟨_, next.coded⟩

theorem resultingFound {data : Bytes} {s : Nat} (bound : s < 65536) :
    (resulting data).getD s 0 = lastLength (records data) s := by
  rw [resulting, List.getD_eq_getElem?_getD, List.getElem?_map, List.getElem?_range bound]
  rfl

theorem announcedSome {data : Bytes} {s : Nat} (coded : 0 < (resulting data).getD s 0) : 0 < announced data := by
  by_contra zero
  have bound : s < 65536 := by
    by_contra beyond
    have size : (resulting data).length = 65536 := by rw [resulting, List.length_map, List.length_range]
    rw [List.getD_eq_getElem?_getD, List.getElem?_eq_none (by omega)] at coded
    exact absurd coded (Nat.lt_irrefl 0)
  have empty : records data = [] := by rw [records, Nat.eq_zero_of_not_pos zero]; rfl
  rw [resultingFound bound, empty] at coded
  exact absurd coded (Nat.lt_irrefl 0)

end Openpresser.Huffman

namespace Openpresser.Block
open Huffman (KraftLengths Spells announced announcedSome canonical deserialiseMeans leastBits resultingFound
  sameSpells sameSymm spansPay spellsPays spellsShort spellsSome)
open Lz (Token expand)

theorem tellsPays {compressed : Bytes} {tokens : List Token} (tells : Tells compressed tokens) :
    17 * (tokens.map Token.span).sum ≤ 65278 * (streamOf compressed).length := by
  have size : (lengthsOf compressed).length = 65536 := by
    rw [lengthsOf, Huffman.resulting, List.length_map, List.length_range]
  have paid : (tokens.map leastBits).sum ≤ (streamOf compressed).length := by
    rcases deserialiseMeans tells.whole with ⟨_, lengthsMap, table, valid, run, same, _⟩ | ⟨excess, _⟩
    · exact spellsPays valid run (sameSpells (sameSymm same) tells.spells)
    · exact absurd tells.lengths excess
  have spans := spansPay (by decide) (spellsShort (Nat.le_of_eq size) tells.spells)
  exact Nat.le_trans spans (Nat.mul_le_mul_left 65278 paid)

/-- Thirteen bytes of a block are no data: two fields and a table of one record. -/
theorem saysBounded {compressed : Bytes} {declared : Nat} {raw : Bytes} (said : Says compressed declared raw) :
    17 * raw.length + 522224 * 13 ≤ 522224 * compressed.length := by
  obtain ⟨tokens, tells, _, rfl⟩ := said.decoded
  obtain ⟨s, coded⟩ := spellsSome tells.spells
  have record : 0 < announced (tableOf compressed) := announcedSome coded
  have whole := not_or.mp tells.whole
  have behind : (tableOf compressed).length = compressed.length - 8 := List.length_drop
  have paid := tellsPays tells
  have stream : (streamOf compressed).length + 8 * 13 ≤ 8 * compressed.length := by
    rw [streamOf, Bits.lengthOfBytes, List.length_drop]
    omega
  rw [lengthMeaning]
  omega

/-! A block of nothing but the longest matches. The two symbols share the code, one bit each. -/
def longestTable : Bytes := [2, 0, 3, 2, 1, 254, 255, 1]

def longestBits (k : Nat) : List Bool := (List.replicate k (true :: Bits.ofNat 16 0)).flatten ++ [false]

theorem longestRecords (stream : Bytes) :
    announced (longestTable ++ stream) = 2 ∧ Huffman.records (longestTable ++ stream) = [(515, 1), (65534, 1)] := by
  have two : announced (longestTable ++ stream) = 2 := rfl
  refine ⟨two, ?_⟩
  rw [Huffman.records, two]
  simp [List.range_succ, Huffman.record, longestTable, LittleEndian.decode]

theorem longestLengths (stream : Bytes) (s : Nat) :
    (Huffman.resulting (longestTable ++ stream)).getD s 0 = if s = 515 ∨ s = 65534 then 1 else 0 := by
  by_cases bound : s < 65536
  · rw [resultingFound bound, (longestRecords stream).2, Huffman.lastLength, List.foldl_cons, List.foldl_cons,
      List.foldl_nil]
    grind
  · rw [List.getD_eq_getElem?_getD, List.getElem?_eq_none (by simp [Huffman.resulting]; omega)]
    grind

theorem longestPresent (stream : Bytes) :
    (Huffman.present (Huffman.resulting (longestTable ++ stream))).Perm [(515, 1), (65534, 1)] := by
  have small : (Huffman.resulting (longestTable ++ stream)).length ≤ 65536 := by simp [Huffman.resulting]
  refine (List.perm_ext_iff_of_nodup (List.Nodup.of_map _ (Huffman.presentDistinct small)) (by decide)).mpr ?_
  rintro ⟨s, l⟩
  have found := longestLengths stream s
  rw [Huffman.presentMember small]
  rw [List.getD_eq_getElem?_getD] at found
  cases entry : (Huffman.resulting (longestTable ++ stream))[s]? with
  | none => grind
  | some l' => grind

theorem longestKraft (stream : Bytes) : KraftLengths (Huffman.resulting (longestTable ++ stream)) := by
  constructor
  · intro l member
    obtain ⟨s, bound, rfl⟩ := List.getElem_of_mem member
    have found := longestLengths stream s
    rw [List.getD_eq_getElem _ _ bound] at found
    rw [found]
    split <;> decide
  · rw [← Huffman.presentLengths, (((longestPresent stream).map _).map _).sum_eq]
    decide

theorem longestCanonical (stream : Bytes) :
    canonical (Huffman.resulting (longestTable ++ stream)) 515 = [false] ∧
    canonical (Huffman.resulting (longestTable ++ stream)) 65534 = [true] := by
  constructor
  all_goals
    rw [canonical, longestLengths]
    simp only [CanonicalCode.code, CanonicalCode.kraftPerm _ ((longestPresent stream).filter _)]
    decide

theorem longestSpells (stream : Bytes) (k pad : Nat) :
    Spells (Huffman.resulting (longestTable ++ stream)) (longestBits k ++ Bits.zeros pad)
      (List.replicate k (.matched 0 65278)) := by
  obtain ⟨stop, more⟩ := longestCanonical stream
  induction k with
  | zero =>
    refine .stop ⟨?_, by decide, ?_⟩
    · rw [show Huffman.eob = 515 by rfl, longestLengths]
      decide
    · rw [show Huffman.eob = 515 by rfl, stop]
      exact Bits.frontAppend _ _
  | succ k ih =>
    have front : longestBits (k + 1) ++ Bits.zeros pad =
        [true] ++ Bits.ofNat 16 0 ++ (longestBits k ++ Bits.zeros pad) := by
      simp [longestBits, List.replicate_succ]
    have symbol : 256 + (65278 : UInt16).toNat = 65534 := rfl
    rw [front, List.replicate_succ]
    refine .matched ⟨?_, by decide, ?_⟩ (by decide) ?_ ih
    · rw [symbol, longestLengths]
      decide
    · rw [symbol, more, List.append_assoc]
      exact Bits.frontAppend _ _
    · rw [symbol, more]
      rfl

theorem longestExpands (k : Nat) : expand (List.replicate k (.matched 0 65278)) = List.replicate (65278 * k) 0 := by
  induction k with
  | zero => rfl
  | succ k ih =>
    rw [List.replicate_succ', Lz.expandAppend, ih, List.foldl_cons, List.foldl_nil, Lz.expandStep]
    exact Lz77.repeatBackDefault _ 65278 (65278 * k)

theorem longestSays (k declared : Nat) : ∃ compressed, compressed.length = 16 + (17 * k + 8) / 8 ∧
    Says compressed declared (List.replicate (65278 * k) 0) := by
  have size : (longestBits k).length = 17 * k + 1 := by
    simp [longestBits, Nat.mul_comm]
  have whole : (longestBits k ++ Bits.zeros (8 * ((17 * k + 8) / 8) - (17 * k + 1))).length =
      8 * ((17 * k + 8) / 8) := by
    rw [List.length_append, size, Bits.lengthZeros]
    omega
  obtain ⟨stream, bits⟩ := Bits.ofBytesOnto whole
  have length := congrArg List.length bits
  rw [Bits.lengthOfBytes, List.length_append, size, Bits.lengthZeros] at length
  have table : tableOf (List.replicate 8 0 ++ longestTable ++ stream) = longestTable ++ stream := rfl
  have behind : streamOf (List.replicate 8 0 ++ longestTable ++ stream) = Bits.ofBytes stream := rfl
  have counts : announced (longestTable ++ stream) = 2 := (longestRecords stream).1
  refine ⟨List.replicate 8 0 ++ longestTable ++ stream, ?_,
    ⟨List.replicate k (.matched 0 65278), ⟨?_, ?_, ?_⟩, ?_, ?_⟩, ?_⟩
  · simp [longestTable]
    omega
  · rw [table, Huffman.Short, counts]
    simp [longestTable]
  · exact longestKraft stream
  · rw [lengthsOf, table, behind, bits]
    exact longestSpells stream k _
  · exact Nat.zero_le _
  · have noLeft : leftCountField (List.replicate 8 0 ++ longestTable ++ stream) = 0 := rfl
    rw [meaning, noLeft]
    exact (longestExpands k).symm
  · exact Nat.zero_le _

end Openpresser.Block

namespace Openpresser.Archive
open Block (saysBounded)
open Format (BlockEntry PpmoHeader crc32 writeHeader)

theorem holdsBounded {directory : List BlockEntry} {payloads raws : List Bytes}
    (holds : Holds directory payloads raws) :
    17 * raws.flatten.length + 522224 * 13 * directory.length ≤ 522224 * payloads.flatten.length := by
  induction holds with
  | nil => simp
  | @cons entry payload raw directory payloads raws size decoded check tail ih =>
    have here := saysBounded decoded
    rw [List.flatten_cons, List.flatten_cons, List.length_append, List.length_append, List.length_cons]
    linarith

theorem meansBounded {input out : Bytes} (means : Means input out) :
    17 * out.length + 522224 * 26 ≤ 522224 * input.length := by
  obtain ⟨header, directory, payloads, raws, rest, image, holds, rfl, _⟩ := means
  have bounded := holdsBounded holds
  rw [image.bytes, List.length_append, List.length_append, Format.lengthWriteHeader]
  omega

theorem longestMeans {k : Nat} (small : k ≤ 2 ^ 30) : ∃ input, input.length = 54 + (17 * k + 8) / 8 ∧
    Means input (List.replicate (65278 * k) 0) := by
  obtain ⟨payload, size, said⟩ := Block.longestSays k 0
  let entry : BlockEntry := ⟨UInt32.ofNat payload.length, 0, crc32 (List.replicate (65278 * k) 0)⟩
  let header : PpmoHeader := ⟨0, 1, UInt64.ofNat (65278 * k), 0⟩
  have length : payload.length = entry.compressedLen.toNat :=
    (UInt32.toNat_ofNat_of_lt' (by rw [size, UInt32.size]; omega)).symm
  have total : (List.replicate (65278 * k) (0 : UInt8)).length = header.originalSize.toNat := by
    rw [List.length_replicate]
    exact (UInt64.toNat_ofNat_of_lt' (by rw [UInt64.size]; omega)).symm
  refine ⟨writeHeader header [entry] ++ payload, ?_, header, [entry], [payload], [List.replicate (65278 * k) 0], [],
    ⟨by simp, rfl⟩, .cons length said rfl .nil, by simp, total⟩
  rw [List.length_append, Format.lengthWriteHeader, size, List.length_singleton]
  omega

theorem decompressAmplifies :
    (∀ input out, decompress input = .ok out → 17 * out.length + 522224 * 26 ≤ 522224 * input.length) ∧
    (∀ input info, verify input = .ok info →
      17 * info.originalSize.toNat + 522224 * 26 ≤ 522224 * input.length) ∧
    ∀ k ≤ 2 ^ 30, ∃ input, input.length = 54 + (17 * k + 8) / 8 ∧
      decompress input = .ok (List.replicate (65278 * k) 0) := by
  refine ⟨fun input out run => ?_, fun input info run => ?_, fun k small => ?_⟩
  · obtain ⟨header, directory, stop, raws, passes, same, _⟩ := decompressOk.mp run
    exact meansBounded (meansPasses.mpr ⟨header, directory, stop, raws, passes, same⟩)
  · obtain ⟨inspected, header, directory, stop, raws, passes⟩ := verifyOk.mp run
    obtain ⟨info', inspected', size, _⟩ := inspectOk passes.read
    cases Outcome.ok.inj (inspected.symm.trans inspected')
    rw [size, ← passes.size]
    exact meansBounded (meansPasses.mpr ⟨header, directory, stop, raws, passes, rfl⟩)
  · obtain ⟨input, length, means⟩ := longestMeans small
    obtain ⟨header, directory, stop, raws, passes, same⟩ := meansPasses.mp means
    have limit : isizeMax = 2 ^ 63 - 1 := rfl
    refine ⟨input, length, decompressOk.mpr ⟨header, directory, stop, raws, passes, same, ?_⟩⟩
    rw [← passes.size, ← same, List.length_replicate]
    omega

theorem decompressAmplifiesOnce : ∃ input, input.length = 54 + (17 * 1 + 8) / 8 ∧
    decompress input = .ok (List.replicate (65278 * 1) 0) := decompressAmplifies.2.2 1 (by decide)

end Openpresser.Archive
