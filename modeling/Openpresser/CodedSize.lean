import Openpresser.Expansion
import Openpresser.Greedy
import Openpresser.Pivot
import Mathlib.Order.Bounds.Basic

/-! How long a block gets, told from its bytes alone: where its repeats are densest, the
greedy parse of either side, and the cheapest code for the symbols of both. -/
namespace Openpresser.MiddleOut
open Lz

/-- The bytes covered by matches in the parse that only knows where it stopped before. -/
def Density (window : Bytes) (score : Nat) : Prop :=
  ∃ tokens, Greedy window (bestMatch window scoreDepth) stops [] 0 tokens ∧ score = (tokens.map repeated).sum

/-- Short blocks are halved; the others split where repeats are densest, four bytes inside at least. -/
def SplitsAt (block : Bytes) (pivot : Nat) : Prop :=
  (block.length ≤ 8 ∧ pivot = block.length / 2) ∨
  (9 ≤ block.length ∧ ∃ score candidate, (∀ other, Density (windowAt block other) (score other)) ∧
    Chosen block.length score candidate ∧ pivot = max 4 (min candidate (block.length - 4)))

def GreedyParse (data : Bytes) (maxDepth : Nat) (tokens : List Token) : Prop :=
  Greedy data (fun _ pos => bruteForce data maxDepth pos) everything [] 0 tokens

theorem windowShort (block : Bytes) (candidate : Nat) : (windowAt block candidate).length ≤ 512 := by
  rw [windowAt, List.length_drop, List.length_take]
  omega

theorem densityScore (block : Bytes) (candidate : Nat) {score : Nat} :
    Density (windowAt block candidate) score ↔ scoreWindow (windowAt block candidate) = .ok score := by
  have short := windowShort block candidate
  obtain ⟨tokens, greedy, run⟩ := windowParse (by omega : (windowAt block candidate).length < 2 ^ 32 - 1)
  rw [run]
  constructor
  · rintro ⟨other, parse, rfl⟩
    rw [greedyUnique greedy parse]
  · exact fun same => ⟨tokens, greedy, (Outcome.ok.inj same).symm⟩

theorem splitsAtFinds {block : Bytes} {pivot : Nat} : SplitsAt block pivot ↔ findPivot block = .ok pivot := by
  by_cases long : 9 ≤ block.length
  · obtain ⟨score, scores⟩ := blockScores block
    obtain ⟨candidate, chosen, run⟩ := pivotChosen scores long
    rw [run]
    constructor
    · rintro (⟨short, _⟩ | ⟨_, score', candidate', densities, chosen', rfl⟩)
      · omega
      · have same : score' = score := funext fun other =>
          Outcome.ok.inj (((densityScore block other).mp (densities other)).symm.trans (scores.found other))
        subst same
        rw [chosenOnce chosen chosen']
    · intro same
      cases Outcome.ok.inj same
      exact .inr ⟨long, score, candidate, fun other => (densityScore block other).mpr (scores.found other), chosen, rfl⟩
  · have short : block.length ≤ minMatch * 2 := by
      have four : minMatch = 4 := rfl
      omega
    rw [findPivot, if_pos short]
    constructor
    · rintro (⟨_, rfl⟩ | ⟨long', _⟩)
      · rfl
      · exact absurd long' long
    · intro same
      cases Outcome.ok.inj same
      exact .inl ⟨by omega, rfl⟩

theorem tokenisesGreedy {data : Bytes} {maxDepth : Nat} (small : data.length < 2 ^ 32 - 1) {tokens : List Token} :
    tokenise data maxDepth = .ok tokens ↔ GreedyParse data maxDepth tokens :=
  tokeniseFinder small (fun _ pos => bruteForce data maxDepth pos) fun _ _ => rfl

/-- Neither side of a block of less than 2^32 bytes is as long as the chain's end mark. -/
theorem sidesSmall {block : Bytes} {pivot : Nat} (small : block.length < 2 ^ 32) (found : findPivot block = .ok pivot) :
    (block.take pivot).length < 2 ^ 32 - 1 ∧ (block.drop pivot).length < 2 ^ 32 - 1 := by
  obtain ⟨pivot', run, inside, middle⟩ := pivotInside block
  cases Outcome.ok.inj (run.symm.trans found)
  rw [List.length_take, List.length_drop]
  omega

theorem encodesGreedy {block : Bytes} {maxDepth pivot : Nat} {left right : List Token} (small : block.length < 2 ^ 32)
    (run : encodeBidirectional block maxDepth = .ok (pivot, left, right)) {pivot' : Nat} {left' right' : List Token} :
    SplitsAt block pivot' ∧ GreedyParse (block.take pivot') maxDepth left' ∧
      GreedyParse (block.drop pivot') maxDepth right' ↔ pivot' = pivot ∧ left' = left ∧ right' = right := by
  obtain ⟨found, runLeft, runRight⟩ := encodeSides run
  obtain ⟨smallLeft, smallRight⟩ := sidesSmall small found
  rw [splitsAtFinds]
  constructor
  · rintro ⟨found', parseLeft, parseRight⟩
    cases Outcome.ok.inj (found.symm.trans found')
    exact ⟨rfl, Outcome.ok.inj (((tokenisesGreedy smallLeft).mpr parseLeft).symm.trans runLeft),
      Outcome.ok.inj (((tokenisesGreedy smallRight).mpr parseRight).symm.trans runRight)⟩
  · rintro ⟨rfl, rfl, rfl⟩
    exact ⟨found, (tokenisesGreedy smallLeft).mp runLeft, (tokenisesGreedy smallRight).mp runRight⟩

end Openpresser.MiddleOut

namespace Openpresser.Huffman
open Lz (Token)

/-- Lengths of up to fifteen bits that leave room for a prefix code. -/
structure LengthsFor (syms : List Nat) (l : Nat → Nat) : Prop where
  bounded : ∀ s ∈ syms, 1 ≤ l s ∧ l s ≤ 15
  kraft : ∑ s ∈ syms.toFinset, 2 ^ (15 - l s) ≤ 2 ^ 15

def LeastCost (syms : List Nat) (cost : Nat) : Prop :=
  IsLeast {c | ∃ l, LengthsFor syms l ∧ c = (syms.map l).sum} cost

section
variable {freqs : Array Nat} {syms : List Nat} (counted : Counted freqs (syms ++ [eob])) (small : ∀ s ∈ syms, s < eob)
  (sparse : Sparse syms) (filled : syms ≠ [])
include counted small

theorem codesFeasible {l : Nat → Nat} : LengthsFor (syms ++ [eob]) l ↔ Feasible freqs.toList l := by
  have room := alphabetSum counted small fun s => 2 ^ (maxCodeLen - l s)
  constructor
  · rintro ⟨bounded, kraft⟩
    exact ⟨fun s member => bounded s ((tokenAlphabet counted small).mp member), room ▸ kraft⟩
  · rintro ⟨bounded, kraft⟩
    exact ⟨fun s member => bounded s ((tokenAlphabet counted small).mpr member), room ▸ kraft⟩

include sparse filled

theorem builtLeast {table : HuffmanTable} (run : build freqs.toList = .ok table) :
    LeastCost (syms ++ [eob]) ((syms ++ [eob]).map (lengthOf table)).sum := by
  have few := Nat.le_trans (fewSymbols counted small sparse) (by decide : 512 ≤ 2 ^ maxCodeLen)
  have lengths := alphabetLengths (countedShort counted) (twoSymbols counted small filled) few
  rw [(builtSum counted small sparse filled run).1]
  constructor
  · exact ⟨_, (codesFeasible counted small).mpr ⟨lengths.bounded, Nat.le_of_eq lengths.full⟩, rfl⟩
  · rintro _ ⟨l, codes, rfl⟩
    have cheapest := codeLengthCheapest (countedShort counted) ((codesFeasible counted small).mp codes)
    rwa [countedCost counted (by simp) (symbolsInside small), countedCost counted (by simp) (symbolsInside small)]
      at cheapest

end

theorem encodedLeast {tokens : List Token} {table : HuffmanTable} {bitstream : Bytes} (filled : tokens ≠ [])
    (small : ∀ tok ∈ tokens, symbolOf tok < eob) (sparse : Sparse (tokens.map symbolOf))
    (run : encodeTokens tokens = .ok (table, bitstream)) :
    ∃ cost, LeastCost (tokens.map symbolOf ++ [eob]) cost ∧
      (streamBits table tokens).length = cost + 16 * matchCount tokens ∧
      table.lengths.length = (tokens.map symbolOf ++ [eob]).toFinset.card := by
  obtain ⟨freqs, counted, built⟩ := encodedBuilt small run
  have few : ∀ s ∈ tokens.map symbolOf, s < eob := by simpa using small
  have symbols : tokens.map symbolOf ≠ [] := by simpa using filled
  refine ⟨_, builtLeast counted few sparse symbols built, ?_, ?_⟩
  · rw [streamBitsLength, distancesLength]
  · rw [(builtSum counted few sparse symbols built).2, alphabetCard counted few]

end Openpresser.Huffman

namespace Openpresser.Block
open Huffman (LeastCost eob matchCount symbolOf)
open MiddleOut (GreedyParse SplitsAt)

/-- Two fields and the record count, three bytes for each symbol that occurs, and the bits of the
codewords and distances. -/
def CodedSize (block : Bytes) (maxDepth size : Nat) : Prop :=
  ∃ pivot left right cost, (SplitsAt block pivot ∧ GreedyParse (block.take pivot) maxDepth left ∧
      GreedyParse (block.drop pivot) maxDepth right) ∧
    LeastCost ((left ++ right).map symbolOf ++ [eob]) cost ∧
    size = 10 + 3 * ((left ++ right).map symbolOf ++ [eob]).toFinset.card +
      (cost + 16 * matchCount (left ++ right) + 7) / 8

theorem laidOutCoded {block : Bytes} {opts : CompressOptions} {compressed : Bytes} (filled : block ≠ [])
    (small : block.length < 2 ^ 32) (laidOut : LaidOut block opts compressed) {size : Nat} :
    CodedSize block opts.maxDepth size ↔ size = compressed.length := by
  obtain ⟨pivot, left, right, table, lengthsMap, bitstream, layout⟩ := laidOut
  obtain ⟨nonempty, inside, sparse⟩ := layoutSymbols filled layout
  obtain ⟨cost, least, bits, records⟩ := Huffman.encodedLeast nonempty inside sparse layout.coded
  obtain ⟨pad, padding, total⟩ := layoutLength layout
  rw [bits, records] at total
  constructor
  · rintro ⟨pivot', left', right', cost', parses, least', rfl⟩
    obtain ⟨rfl, rfl, rfl⟩ := (MiddleOut.encodesGreedy small layout.tokens).mp parses
    rw [least'.unique least]
    omega
  · rintro rfl
    exact ⟨pivot, left, right, cost, (MiddleOut.encodesGreedy small layout.tokens).mpr ⟨rfl, rfl, rfl⟩, least, by omega⟩

end Openpresser.Block
