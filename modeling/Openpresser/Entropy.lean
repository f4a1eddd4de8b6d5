import Openpresser.Expansion
import Openpresser.Library.ShannonCode

/-! A block against the information of its symbols. Nothing that gives each symbol a fixed
word gets below it, and the code of the block stays within little more than a bit a symbol. -/
namespace Openpresser.Huffman
open Lz (Token)

/-- What the symbols say by their own frequencies, in bits. -/
noncomputable def information (syms : List Nat) : ℝ :=
  (syms.map fun s => Real.logb 2 (syms.length / syms.count s)).sum

theorem informationOver (syms : List Nat) : information syms =
    ∑ s ∈ syms.toFinset, (syms.count s : ℝ) * Real.logb 2 (syms.length / syms.count s) := by
  rw [information, Finset.sum_list_map_count]
  exact Finset.sum_congr rfl fun s _ => nsmul_eq_mul _ _

theorem costOver (syms : List Nat) (l : Nat → Nat) :
    ((syms.map l).sum : ℝ) = ∑ s ∈ syms.toFinset, (syms.count s : ℝ) * l s := by
  rw [Finset.sum_list_map_count, Nat.cast_sum]
  refine Finset.sum_congr rfl fun s _ => ?_
  rw [smul_eq_mul, Nat.cast_mul]

theorem symbolsTotal (syms : List Nat) : ShannonCode.total syms.toFinset (fun s => syms.count s) = syms.length :=
  List.sum_toFinset_count_eq_length syms

section
variable {freqs : Array Nat} {syms : List Nat} (counted : Counted freqs (syms ++ [eob])) (small : ∀ s ∈ syms, s < eob)
  (sparse : Sparse syms) (filled : syms ≠ [])
include counted small

include filled sparse

theorem shannonFeasible : Feasible freqs.toList
    (ShannonCode.length (syms ++ [eob]).toFinset fun s => (syms ++ [eob]).count s) := by
  have total : 0 < ShannonCode.total (syms ++ [eob]).toFinset (fun s => (syms ++ [eob]).count s) := by
    rw [symbolsTotal]
    simp
  have few := fewSymbols counted small sparse
  have two := twoSymbols counted small filled
  rw [← alphabetCard counted small] at few two
  have room : 64 * (syms ++ [eob]).toFinset.card ≤ 2 ^ maxCodeLen := by
    have limit : 2 ^ maxCodeLen = 32768 := rfl
    omega
  constructor
  · intro s member
    rw [tokenAlphabet counted small, ← List.mem_toFinset] at member
    exact ⟨ShannonCode.lengthPositive total two member, ShannonCode.lengthLimited total room s⟩
  · rw [alphabetSum counted small]
    exact ShannonCode.lengthsFit total room (Finset.card_pos.mp (by omega))

theorem codeInformation : (((syms ++ [eob]).map (codeLength (usedSymbols freqs.toList))).sum : ℝ) ≤
    information (syms ++ [eob]) + (1 + Real.logb 2 (64 / 63)) * (syms ++ [eob]).length := by
  have feasible := shannonFeasible counted small sparse filled
  have cheapest := codeLengthCheapest (countedShort counted) feasible
  rw [countedCost counted (by simp) (symbolsInside small), countedCost counted (by simp) (symbolsInside small)]
    at cheapest
  have total : 0 < ShannonCode.total (syms ++ [eob]).toFinset (fun s => (syms ++ [eob]).count s) := by
    rw [symbolsTotal]
    simp
  have every : ∀ s ∈ (syms ++ [eob]).toFinset,
      ((syms ++ [eob]).count s : ℝ) *
          ShannonCode.length (syms ++ [eob]).toFinset (fun t => (syms ++ [eob]).count t) s ≤
        (syms ++ [eob]).count s * (1 + Real.logb 2 (64 / 63)) +
          (syms ++ [eob]).count s * Real.logb 2 ((syms ++ [eob]).length / (syms ++ [eob]).count s) := by
    intro s member
    rw [List.mem_toFinset] at member
    have used := (feasible.bounded s ((tokenAlphabet counted small).mpr member)).1
    have close := ShannonCode.lengthClose total s used
    rw [symbolsTotal] at close
    rw [← mul_add]
    exact mul_le_mul_of_nonneg_left
      (ShannonCode.lengthInformation (List.count_pos_iff.mpr member) close used) (Nat.cast_nonneg _)
  calc (((syms ++ [eob]).map (codeLength (usedSymbols freqs.toList))).sum : ℝ)
      ≤ (((syms ++ [eob]).map
          (ShannonCode.length (syms ++ [eob]).toFinset fun s => (syms ++ [eob]).count s)).sum : ℝ) := by
        exact_mod_cast cheapest
    _ ≤ _ := by
        rw [costOver, informationOver]
        refine (Finset.sum_le_sum every).trans_eq ?_
        rw [Finset.sum_add_distrib, ← Finset.sum_mul, ← Nat.cast_sum, List.sum_toFinset_count_eq_length]
        ring

theorem informationCode : information (syms ++ [eob]) ≤
    (((syms ++ [eob]).map (codeLength (usedSymbols freqs.toList))).sum : ℝ) := by
  have few := Nat.le_trans (fewSymbols counted small sparse) (by decide : 512 ≤ 2 ^ maxCodeLen)
  have lengths := alphabetLengths (countedShort counted) (twoSymbols counted small filled) few
  have bounded : ∀ s ∈ (syms ++ [eob]).toFinset, codeLength (usedSymbols freqs.toList) s ≤ maxCodeLen := by
    intro s member
    rw [List.mem_toFinset, ← tokenAlphabet counted small] at member
    exact (lengths.bounded s member).2
  have room := lengths.full
  rw [alphabetSum counted small] at room
  have used : ∀ s ∈ (syms ++ [eob]).toFinset, 0 < (syms ++ [eob]).count s :=
    fun s member => List.count_pos_iff.mpr (List.mem_toFinset.mp member)
  have least := ShannonCode.informationLeast _ _ bounded (Nat.le_of_eq room) used
  rw [symbolsTotal] at least
  rw [informationOver, costOver]
  exact least

end

theorem encodedInformation {tokens : List Token} {table : HuffmanTable} {bitstream : Bytes} (filled : tokens ≠ [])
    (small : ∀ tok ∈ tokens, symbolOf tok < eob) (sparse : Sparse (tokens.map symbolOf))
    (run : encodeTokens tokens = .ok (table, bitstream)) :
    information (tokens.map symbolOf ++ [eob]) + 16 * matchCount tokens ≤ (streamBits table tokens).length ∧
    ((streamBits table tokens).length : ℝ) ≤ information (tokens.map symbolOf ++ [eob]) +
      (1 + Real.logb 2 (64 / 63)) * (tokens.length + 1) + 16 * matchCount tokens ∧
    table.lengths.length = (tokens.map symbolOf ++ [eob]).toFinset.card := by
  obtain ⟨freqs, counted, built⟩ := encodedBuilt small run
  have few : ∀ s ∈ tokens.map symbolOf, s < eob := by simpa using small
  have symbols : tokens.map symbolOf ≠ [] := by simpa using filled
  obtain ⟨sum, records⟩ := builtSum counted few sparse symbols built
  have most := codeInformation counted few sparse symbols
  have least := informationCode counted few sparse symbols
  rw [List.length_append, List.length_map, List.length_singleton, Nat.cast_add, Nat.cast_one] at most
  rw [streamBitsLength, sum, distancesLength, Nat.cast_add, Nat.cast_mul, Nat.cast_ofNat]
  exact ⟨by linarith, by linarith, records.trans (alphabetCard counted few).symm⟩

end Openpresser.Huffman

namespace Openpresser.Block
open Huffman (encodedInformation eob information matchCount streamBits symbolOf)
open Lz (Token)
open MiddleOut (encodeBidirectional)

/-- The fields, the table and the distances of a block, in bits. -/
def overhead (tokens : List Token) : Nat :=
  8 * (10 + 3 * (tokens.map symbolOf ++ [eob]).toFinset.card) + 16 * matchCount tokens

theorem laidOutInformation {block : Bytes} {opts : CompressOptions} {compressed : Bytes} (filled : block ≠ [])
    (laidOut : LaidOut block opts compressed) : ∃ pivot left right,
      encodeBidirectional block opts.maxDepth = .ok (pivot, left, right) ∧
      information ((left ++ right).map symbolOf ++ [eob]) + overhead (left ++ right) ≤ 8 * compressed.length ∧
      8 * (compressed.length : ℝ) ≤ information ((left ++ right).map symbolOf ++ [eob]) +
        (1 + Real.logb 2 (64 / 63)) * ((left ++ right).length + 1) + overhead (left ++ right) + 7 := by
  obtain ⟨pivot, left, right, table, lengthsMap, bitstream, layout⟩ := laidOut
  obtain ⟨nonempty, small, sparse⟩ := layoutSymbols filled layout
  obtain ⟨least, most, records⟩ := encodedInformation nonempty small sparse layout.coded
  obtain ⟨pad, padding, size⟩ := layoutLength layout
  rw [records] at size
  have sizeReal : 8 * (compressed.length : ℝ) = (streamBits table (left ++ right)).length + pad +
      8 * (10 + 3 * ((left ++ right).map symbolOf ++ [eob]).toFinset.card) := by exact_mod_cast size
  have padReal : (pad : ℝ) ≤ 7 := by exact_mod_cast Nat.le_of_lt_succ padding
  have total : (overhead (left ++ right) : ℝ) =
      8 * (10 + 3 * ((left ++ right).map symbolOf ++ [eob]).toFinset.card) + 16 * matchCount (left ++ right) := by
    exact_mod_cast (rfl : overhead (left ++ right) = _)
  refine ⟨pivot, left, right, layout.tokens, ?_, ?_⟩
  · rw [sizeReal, total]
    have := Nat.cast_nonneg (α := ℝ) pad
    linarith
  · rw [sizeReal, total]
    linarith

/-- A block is no shorter than its overhead and the information of its symbols, and longer by
little more than a bit for each of them. -/
theorem compressBlockInformation (block : Bytes) (opts : CompressOptions) (filled : block ≠ []) (compressed : Bytes)
    (run : compressBlock block opts = .ok compressed) : ∃ pivot left right,
      encodeBidirectional block opts.maxDepth = .ok (pivot, left, right) ∧
      information ((left ++ right).map symbolOf ++ [eob]) + overhead (left ++ right) ≤ 8 * compressed.length ∧
      8 * (compressed.length : ℝ) ≤ information ((left ++ right).map symbolOf ++ [eob]) +
        (1 + Real.logb 2 (64 / 63)) * ((left ++ right).length + 1) + overhead (left ++ right) + 7 := by
  rcases compressBlockCases block opts with ⟨c, run', laidOut⟩ | overflow
  · cases Outcome.ok.inj (run'.symm.trans run)
    exact laidOutInformation filled laidOut
  · rw [overflow] at run
    contradiction

theorem compressBlockInformationRepeats : ∃ compressed pivot left right,
    compressBlock [1, 2, 3, 4, 1, 2, 3, 4, 1, 2, 3, 4, 5] ⟨13, 9, false⟩ = .ok compressed ∧
    encodeBidirectional [1, 2, 3, 4, 1, 2, 3, 4, 1, 2, 3, 4, 5] 9 = .ok (pivot, left, right) ∧
    information ((left ++ right).map symbolOf ++ [eob]) + overhead (left ++ right) ≤ 8 * compressed.length ∧
    8 * (compressed.length : ℝ) ≤ information ((left ++ right).map symbolOf ++ [eob]) +
      (1 + Real.logb 2 (64 / 63)) * ((left ++ right).length + 1) + overhead (left ++ right) + 7 := by
  obtain ⟨compressed, run, _⟩ :=
    compressBlockFits [1, 2, 3, 4, 1, 2, 3, 4, 1, 2, 3, 4, 5] ⟨13, 9, false⟩ (by decide)
  obtain ⟨pivot, left, right, bounds⟩ := compressBlockInformation [1, 2, 3, 4, 1, 2, 3, 4, 1, 2, 3, 4, 5]
    ⟨13, 9, false⟩ (by decide) compressed run
  exact ⟨compressed, pivot, left, right, run, bounds⟩

end Openpresser.Block
