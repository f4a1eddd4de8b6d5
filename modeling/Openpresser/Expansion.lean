import Openpresser.FrequencyTable
import Openpresser.BlockRoundTrip
import Mathlib.Algebra.Group.Action.Defs

/-! How much a block can grow. Nine bits would do for each of the 512 symbols that can
occur, the code of a block costs no more, and a match pays for its distance itself. -/
namespace Openpresser.Huffman
open Lz (Token matchOf)

section
variable {freqs : Array Nat} {syms : List Nat} (counted : Counted freqs syms) (ends : eob ∈ syms)
  (inside : ∀ s ∈ syms, s < eob + 1)

include counted inside in
theorem countedOccurs (s : Nat) : freqs.toList.getD s 0 = syms.count s := by
  rw [List.getD_eq_getElem?_getD, Array.getElem?_toList]
  by_cases bound : s < eob + 1
  · rw [counted.2 s bound, Option.getD_some]
  · have size := counted.1
    have absent : s ∉ syms := fun member => bound (inside s member)
    rw [Array.getElem?_eq_none (by omega), Option.getD_none, List.count_eq_zero_of_not_mem absent]

include counted ends inside

theorem countedAlphabet {s : Nat} : s ∈ alphabetOf freqs.toList ↔ s ∈ syms := by
  rw [alphabetMember, countedOccurs counted inside, List.count_pos_iff]
  constructor
  · rintro (rfl | member)
    · exact ends
    · exact member
  · exact .inr

theorem countedFrequency (s : Nat) : frequency freqs.toList s = syms.count s := by
  rw [frequency, countedOccurs counted inside]
  by_cases last : s = eob
  · have once := List.count_pos_iff.mpr ends
    rw [if_pos last, last]
    exact Nat.max_eq_right once
  · rw [if_neg last]

theorem countedCost (l : Nat → Nat) : totalCost freqs.toList l = (syms.map l).sum := by
  simp only [totalCost, countedFrequency counted ends inside]
  exact countsWeighted (alphabetDistinct _) (fun s member => (countedAlphabet counted ends inside).mpr member) l

end

/-- No match is shorter than four bytes, so the symbols 256 to 259 stay out. -/
def Sparse (syms : List Nat) : Prop := ∀ s ∈ syms, s < 256 ∨ 260 ≤ s

def occurring : List Nat := (List.range (eob + 1)).filter (fun s => s < 256 ∨ 260 ≤ s)

section
variable {freqs : Array Nat} {syms : List Nat} (counted : Counted freqs (syms ++ [eob])) (small : ∀ s ∈ syms, s < eob)
  (sparse : Sparse syms)
include counted small

theorem tokenAlphabet {s : Nat} : s ∈ alphabetOf freqs.toList ↔ s ∈ syms ++ [eob] :=
  countedAlphabet counted (by simp) (symbolsInside small)

theorem alphabetSame : (alphabetOf freqs.toList).toFinset = (syms ++ [eob]).toFinset := by
  ext s
  rw [List.mem_toFinset, List.mem_toFinset, tokenAlphabet counted small]

theorem alphabetCard : (syms ++ [eob]).toFinset.card = (alphabetOf freqs.toList).length := by
  rw [← alphabetSame counted small, List.toFinset_card_of_nodup (alphabetDistinct _)]

theorem alphabetSum (f : Nat → Nat) :
    ((alphabetOf freqs.toList).map f).sum = ∑ s ∈ (syms ++ [eob]).toFinset, f s := by
  rw [← alphabetSame counted small, List.sum_toFinset _ (alphabetDistinct _)]

theorem twoSymbols (filled : syms ≠ []) : 2 ≤ (alphabetOf freqs.toList).length := by
  obtain ⟨s, rest, rfl⟩ := List.exists_cons_of_ne_nil filled
  have apart : s ≠ eob := Nat.ne_of_lt (small s List.mem_cons_self)
  have both : [s, eob] ⊆ alphabetOf freqs.toList := by
    intro t member
    rw [tokenAlphabet counted small]
    rcases List.mem_cons.mp member with rfl | last
    · simp
    · rw [List.mem_singleton.mp last]
      simp
  exact (List.subperm_of_subset (by simpa using apart) both).length_le

include sparse

theorem fewSymbols : (alphabetOf freqs.toList).length ≤ 512 := by
  have sub : alphabetOf freqs.toList ⊆ occurring := by
    intro s member
    rw [tokenAlphabet counted small] at member
    refine List.mem_filter.mpr ⟨List.mem_range.mpr (symbolsInside small s member), decide_eq_true ?_⟩
    rcases List.mem_append.mp member with early | last
    · exact sparse s early
    · rw [List.mem_singleton.mp last]
      exact .inr (by decide)
  have size : occurring.length = 512 := by decide +kernel
  rw [← size]
  exact (List.subperm_of_subset (alphabetDistinct _) sub).length_le

theorem flatFeasible : Feasible freqs.toList (fun _ => 9) where
  bounded := fun _ _ => ⟨by decide, by decide⟩
  kraft := by
    have few := fewSymbols counted small sparse
    have six : 2 ^ (maxCodeLen - 9) = 64 := rfl
    have whole : 2 ^ maxCodeLen = 32768 := rfl
    rw [List.map_const', List.sum_replicate, smul_eq_mul, six, whole]
    omega

omit sparse small in
theorem countedShort : freqs.toList.length ≤ 65535 := by
  rw [Array.length_toList, counted.1]
  decide

theorem countedNine : ((syms ++ [eob]).map (codeLength (usedSymbols freqs.toList))).sum ≤ 9 * (syms.length + 1) := by
  have ends : eob ∈ syms ++ [eob] := by simp
  have inside := symbolsInside small
  have cheapest := codeLengthCheapest (countedShort counted) (flatFeasible counted small sparse)
  rw [countedCost counted ends inside, countedCost counted ends inside, List.map_const', List.sum_replicate,
    smul_eq_mul, List.length_append, List.length_singleton] at cheapest
  omega

theorem builtSum {table : HuffmanTable} (filled : syms ≠ []) (run : build freqs.toList = .ok table) :
    ((syms ++ [eob]).map (lengthOf table)).sum =
        ((syms ++ [eob]).map (codeLength (usedSymbols freqs.toList))).sum ∧
      table.lengths.length = (alphabetOf freqs.toList).length := by
  have few := Nat.le_trans (fewSymbols counted small sparse) (by decide : 512 ≤ 2 ^ maxCodeLen)
  have built := builtFrom (countedShort counted) (twoSymbols counted small filled) few run
  refine ⟨congrArg List.sum (List.map_congr_left fun s member =>
    builtLength built ((tokenAlphabet counted small).mpr member)), ?_⟩
  have frequencies := countedFrequencies counted
  rcases buildCases frequencies with ⟨table', lengthsMap, made, whole, tableFor⟩ | overflow
  · cases Outcome.ok.inj (made.symm.trans run)
    have count := whole.used.length_eq
    rw [List.length_map, List.length_map, usedCount (frequenciesSmall frequencies)] at count
    rw [tableFor.lengths, (sortedPerm lengthsMap).length_eq, count]
  · rw [overflow] at run
    contradiction

theorem builtNine {table : HuffmanTable} (filled : syms ≠ []) (run : build freqs.toList = .ok table) :
    ((syms ++ [eob]).map (lengthOf table)).sum ≤ 9 * (syms.length + 1) ∧ table.lengths.length ≤ 512 := by
  obtain ⟨sum, records⟩ := builtSum counted small sparse filled run
  exact ⟨sum ▸ countedNine counted small sparse, records ▸ fewSymbols counted small sparse⟩

end

/-! The bits of a stream. -/
theorem symbolBitsLength (table : HuffmanTable) (s : Nat) : (symbolBits table s).length = lengthOf table s := by
  rw [symbolBits, lengthOf]
  cases table.encode[s]? with
  | none => rfl
  | some e => exact Bits.lengthOfNat _ _

theorem streamBitsLength (table : HuffmanTable) (tokens : List Token) :
    (streamBits table tokens).length = ((tokens.map symbolOf ++ [eob]).map (lengthOf table)).sum +
      (tokens.map (fun tok => (distanceBits tok).length)).sum := by
  induction tokens with
  | nil =>
    have last : streamBits table [] = symbolBits table eob := rfl
    simp [last, symbolBitsLength]
  | cons tok tokens ih =>
    rw [streamBitsCons, tokenBits, List.length_append, List.length_append, symbolBitsLength, ih]
    simp only [List.map_cons, List.cons_append, List.sum_cons]
    omega

def matchCount (tokens : List Token) : Nat := (tokens.filterMap matchOf).length

theorem distancesLength (tokens : List Token) :
    (tokens.map fun tok => (distanceBits tok).length).sum = 16 * matchCount tokens := by
  induction tokens with
  | nil => rfl
  | cons tok tokens ih =>
    rw [List.map_cons, List.sum_cons, ih]
    cases tok with
    | literal b =>
      have same : matchCount (.literal b :: tokens) = matchCount tokens := rfl
      rw [same, distanceBits, List.length_nil, Nat.zero_add]
    | matched distance length =>
      have more : matchCount (.matched distance length :: tokens) = matchCount tokens + 1 := rfl
      rw [more, distanceBits, Bits.lengthOfNat]
      omega

theorem encodedBuilt {tokens : List Token} {table : HuffmanTable} {bitstream : Bytes}
    (small : ∀ tok ∈ tokens, symbolOf tok < eob) (run : encodeTokens tokens = .ok (table, bitstream)) :
    ∃ freqs, Counted freqs (tokens.map symbolOf ++ [eob]) ∧ build freqs.toList = .ok table := by
  obtain ⟨freqs, counted, build⟩ := encodeTokensBuild small
  rw [run] at build
  obtain ⟨made, built, rest⟩ := Outcome.bindOk.mp build.symm
  refine ⟨freqs, counted, built.trans ?_⟩
  simp only [Outcome.bindOk] at rest
  obtain ⟨_, _, _, _, _, _, _, _, last⟩ := rest
  rw [(Prod.mk.inj (Outcome.ok.inj last)).1]

theorem encodedNine {tokens : List Token} {table : HuffmanTable} {bitstream : Bytes} (filled : tokens ≠ [])
    (small : ∀ tok ∈ tokens, symbolOf tok < eob) (sparse : Sparse (tokens.map symbolOf))
    (run : encodeTokens tokens = .ok (table, bitstream)) :
    (streamBits table tokens).length ≤
        9 * (tokens.length + 1) + (tokens.map (fun tok => (distanceBits tok).length)).sum ∧
      table.lengths.length ≤ 512 := by
  obtain ⟨freqs, counted, built⟩ := encodedBuilt small run
  obtain ⟨bits, few⟩ := builtNine counted (by simpa using small) sparse (by simpa using filled) built
  rw [List.length_map] at bits
  rw [streamBitsLength]
  exact ⟨Nat.add_le_add_right bits _, few⟩

end Openpresser.Huffman

namespace Openpresser.Block
open Format (lengthU32Bytes)
open Huffman (Sparse distanceBits encodedNine eob streamBits symbolOf)
open Lz (Parse Token)
open MiddleOut (encodeBidirectional)

theorem parseSparse {data : Bytes} {pos : Nat} {tokens : List Token} (parse : Parse data pos tokens) :
    ∀ tok ∈ tokens, symbolOf tok < 256 ∨ 260 ≤ symbolOf tok := by
  induction parse with
  | stop => simp
  | @literal pos b rest byte tail ih =>
    intro tok member
    rcases List.mem_cons.mp member with rfl | later
    · exact .inl b.toNat_lt
    · exact ih tok later
  | @matched pos dist len rest copy tail ih =>
    intro tok member
    rcases List.mem_cons.mp member with rfl | later
    · have long := copy.long
      simp only [symbolOf, Lz.minMatch] at long ⊢
      omega
    · exact ih tok later

theorem parseNine {data : Bytes} {pos : Nat} {tokens : List Token} (parse : Parse data pos tokens) :
    9 * tokens.length + (tokens.map (fun tok => (distanceBits tok).length)).sum + 9 * pos ≤ 9 * data.length := by
  induction parse with
  | stop => simp
  | @literal pos b rest byte tail ih =>
    have free : (distanceBits (.literal b)).length = 0 := rfl
    rw [List.length_cons, List.map_cons, List.sum_cons, free]
    omega
  | @matched pos dist len rest copy tail ih =>
    -- twenty-five bits for at least four bytes
    have long : 4 ≤ len.toNat := copy.long
    have paid : (distanceBits (.matched dist len)).length = 16 := Bits.lengthOfNat 16 _
    rw [List.length_cons, List.map_cons, List.sum_cons, paid]
    omega

theorem layoutSymbols {block : Bytes} {opts : CompressOptions} {pivot : Nat} {left right : List Token}
    {table : Huffman.HuffmanTable} {lengthsMap : List Nat} {bitstream compressed : Bytes} (filled : block ≠ [])
    (layout : Layout block opts pivot left right table lengthsMap bitstream compressed) :
    left ++ right ≠ [] ∧ (∀ tok ∈ left ++ right, symbolOf tok < eob) ∧ Sparse ((left ++ right).map symbolOf) := by
  refine ⟨fun nothing => ?_, parsesSymbols layout.parseLeft layout.parseRight, fun s member => ?_⟩
  · obtain ⟨noLeft, noRight⟩ := List.append_eq_nil_iff.mp nothing
    by_cases front : block.take pivot = []
    · refine parseFilled (fun back => filled ?_) layout.parseRight noRight
      rw [← List.take_append_drop pivot block, front, back]
      rfl
    · exact parseFilled front layout.parseLeft noLeft
  · obtain ⟨tok, inside, rfl⟩ := List.mem_map.mp member
    rcases List.mem_append.mp inside with inLeft | inRight
    · exact parseSparse layout.parseLeft tok inLeft
    · exact parseSparse layout.parseRight tok inRight

theorem layoutLength {block : Bytes} {opts : CompressOptions} {pivot : Nat} {left right : List Token}
    {table : Huffman.HuffmanTable} {lengthsMap : List Nat} {bitstream compressed : Bytes}
    (layout : Layout block opts pivot left right table lengthsMap bitstream compressed) :
    ∃ pad < 8, 8 * compressed.length =
      (streamBits table (left ++ right)).length + pad + 8 * (10 + 3 * table.lengths.length) := by
  obtain ⟨pad, few, padded⟩ := layout.encoded.padded
  have bits := congrArg List.length padded
  rw [Bits.lengthOfBytes, List.length_append, Bits.lengthZeros] at bits
  refine ⟨pad, few, ?_⟩
  rw [layout.bytes]
  simp only [List.length_append, lengthU32Bytes, Huffman.lengthSerialiseTable]
  omega

theorem laidOutNine {block : Bytes} {opts : CompressOptions} {compressed : Bytes} (filled : block ≠ [])
    (laidOut : LaidOut block opts compressed) : compressed.length ≤ 1546 + (9 * (block.length + 1) + 7) / 8 := by
  obtain ⟨pivot, left, right, table, lengthsMap, bitstream, layout⟩ := laidOut
  have inside := layout.inside
  obtain ⟨nonempty, small, sparse⟩ := layoutSymbols filled layout
  obtain ⟨bits, few⟩ := encodedNine nonempty small sparse layout.coded
  obtain ⟨pad, padding, size⟩ := layoutLength layout
  have first := parseNine layout.parseLeft
  have second := parseNine layout.parseRight
  rw [List.length_take] at first
  rw [List.length_drop] at second
  rw [List.length_append, List.map_append, List.sum_append] at bits
  omega

/-- A token takes six bytes of memory; the call returns as soon as the tokens fit there. -/
theorem expansionBounded (block : Bytes) (opts : CompressOptions) (filled : block ≠ []) :
    (∀ c, compressBlock block opts = .ok c → c.length ≤ 1546 + (9 * (block.length + 1) + 7) / 8) ∧
    (∀ pivot left right, encodeBidirectional block opts.maxDepth = .ok (pivot, left, right) →
      6 * (left ++ right).length ≤ isizeMax → ∃ c, compressBlock block opts = .ok c) ∧
    (block.length ≤ 2 ^ 31 → ∃ c, compressBlock block opts = .ok c ∧ c.length < 2 ^ 32 ∧
      (blockEntry c block).compressedLen.toNat = c.length) := by
  have bounded : ∀ c, compressBlock block opts = .ok c → c.length ≤ 1546 + (9 * (block.length + 1) + 7) / 8 := by
    intro c run
    rcases compressBlockCases block opts with ⟨c', run', laidOut⟩ | overflow
    · cases Outcome.ok.inj (run'.symm.trans run)
      exact laidOutNine filled laidOut
    · rw [overflow] at run
      contradiction
  refine ⟨bounded, fun pivot left right run memory => ?_, fun small => ?_⟩
  · have limit : isizeMax = 2 ^ 63 - 1 := rfl
    obtain ⟨c, compressed, _⟩ := compressBlockTokens run (by omega)
    exact ⟨c, compressed⟩
  · obtain ⟨c, run, _⟩ := compressBlockFits block opts (by omega)
    have size := bounded c run
    have fits : c.length < 2 ^ 32 := by omega
    exact ⟨c, run, fits, UInt32.toNat_ofNat_of_lt' fits⟩

theorem expansionBoundedRepeats :
    (∀ c, compressBlock [1, 2, 3, 4, 1, 2, 3, 4, 1, 2, 3, 4, 5] ⟨13, 9, false⟩ = .ok c →
      c.length ≤ 1546 + (9 * (13 + 1) + 7) / 8) ∧
    (∀ pivot left right, encodeBidirectional [1, 2, 3, 4, 1, 2, 3, 4, 1, 2, 3, 4, 5] 9 = .ok (pivot, left, right) →
      6 * (left ++ right).length ≤ isizeMax →
        ∃ c, compressBlock [1, 2, 3, 4, 1, 2, 3, 4, 1, 2, 3, 4, 5] ⟨13, 9, false⟩ = .ok c) ∧
    (13 ≤ 2 ^ 31 → ∃ c, compressBlock [1, 2, 3, 4, 1, 2, 3, 4, 1, 2, 3, 4, 5] ⟨13, 9, false⟩ = .ok c ∧
      c.length < 2 ^ 32 ∧
      (blockEntry c [1, 2, 3, 4, 1, 2, 3, 4, 1, 2, 3, 4, 5]).compressedLen.toNat = c.length) :=
  expansionBounded [1, 2, 3, 4, 1, 2, 3, 4, 1, 2, 3, 4, 5] ⟨13, 9, false⟩ (by decide)

end Openpresser.Block
