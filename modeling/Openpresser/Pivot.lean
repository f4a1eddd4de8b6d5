import Openpresser.MiddleOut
import Openpresser.Library.Selection

/-! Which pivot the scan settles on: the first of the densest windows, moved inward
when it lies too close to an end, and the middle when nothing repeats at all. -/
namespace Openpresser.MiddleOut
open Lz
open Selection (improve)

structure Scores (block : Bytes) (score : Nat → Nat) : Prop where
  found : ∀ candidate, scoreWindow (windowAt block candidate) = .ok (score candidate)
  bounded : ∀ candidate, score candidate ≤ (windowAt block candidate).length

theorem blockScores (block : Bytes) : ∃ score, Scores block score := by
  choose score found using fun candidate => scoreBounded (windowAt block candidate)
  exact ⟨score, fun candidate => (found candidate).1, fun candidate => (found candidate).2⟩

theorem considerImproves {block : Bytes} {score : Nat → Nat} (scores : Scores block score) (best : Nat × Nat)
    {candidate : Nat} (below : candidate < block.length) :
    considerCandidate block best candidate = .ok (improve score id best candidate) :=
  considerScored best below (scores.found candidate)

theorem candidatesIff {b candidate : Nat} : candidate ∈ candidates b ↔ 64 ∣ candidate ∧ candidate < b := by
  have width : stride = 64 := rfl
  rw [candidates, List.mem_range', width]
  constructor
  · rintro ⟨i, below, rfl⟩
    exact ⟨⟨i, by omega⟩, by omega⟩
  · rintro ⟨⟨i, rfl⟩, below⟩
    exact ⟨i, by omega, by omega⟩

theorem candidatesRising (b : Nat) : (candidates b).Pairwise (fun p q => p < q) :=
  List.pairwise_lt_range' stride (by decide)

/-- The earliest multiple of 64 whose window has the greatest score, and that score is not zero. -/
structure Densest (len : Nat) (score : Nat → Nat) (candidate : Nat) : Prop where
  aligned : 64 ∣ candidate
  inside : candidate < len
  positive : 0 < score candidate
  greatest : ∀ other, 64 ∣ other → other < len → score other ≤ score candidate
  earliest : ∀ other, 64 ∣ other → other < candidate → score other < score candidate

def Chosen (len : Nat) (score : Nat → Nat) (candidate : Nat) : Prop :=
  Densest len score candidate ∨
    ((∀ other, 64 ∣ other → other < len → score other = 0) ∧ candidate = len / 2)

theorem chosenOnce {len a b : Nat} {score : Nat → Nat} (first : Chosen len score a) (second : Chosen len score b) :
    a = b := by
  rcases first with denser | ⟨silent, middle⟩ <;> rcases second with denser' | ⟨silent', middle'⟩
  · have above := denser.greatest b denser'.aligned denser'.inside
    have below := denser'.greatest a denser.aligned denser.inside
    rcases Nat.lt_trichotomy a b with before | same | behind
    · have early := denser'.earliest a denser.aligned before
      omega
    · exact same
    · have early := denser.earliest b denser'.aligned behind
      omega
  · have nothing := silent' a denser.aligned denser.inside
    exact absurd denser.positive (by omega)
  · have nothing := silent b denser'.aligned denser'.inside
    exact absurd denser'.positive (by omega)
  · rw [middle, middle']

theorem scanChooses {block : Bytes} {score : Nat → Nat} (scores : Scores block score) :
    ∃ best, (candidates block.length).foldlM (considerCandidate block) (0, block.length / 2) = .ok best ∧
      Chosen block.length score best.2 := by
  refine ⟨_, Outcome.foldlMPure (fun candidate member best =>
    considerImproves scores best (candidateBelow member)) _, ?_⟩
  rw [Selection.improveArgmax]
  cases chosen : (candidates block.length).argmax score with
  | none =>
    have empty := List.argmax_eq_none.mp chosen
    refine .inr ⟨fun other aligned inside => ?_, rfl⟩
    have member := candidatesIff.mpr ⟨aligned, inside⟩
    rw [empty] at member
    cases member
  | some candidate =>
    obtain ⟨member, greatest, _⟩ := List.argmax_eq_some_iff.mp chosen
    obtain ⟨aligned, inside⟩ := candidatesIff.mp member
    have most : ∀ other, 64 ∣ other → other < block.length → score other ≤ score candidate :=
      fun other multiple below => greatest other (candidatesIff.mpr ⟨multiple, below⟩)
    by_cases positive : 0 < score candidate
    · simp only [if_pos positive]
      refine .inl ⟨aligned, inside, positive, most, fun other multiple before => ?_⟩
      exact Selection.argmaxEarliest (candidatesRising _) chosen
        (candidatesIff.mpr ⟨multiple, Nat.lt_trans before inside⟩) before
    · simp only [if_neg positive]
      refine .inr ⟨fun other multiple below => ?_, rfl⟩
      have small := most other multiple below
      omega

theorem pivotChosen {block : Bytes} {score : Nat → Nat} (scores : Scores block score) (long : 9 ≤ block.length) :
    ∃ candidate, Chosen block.length score candidate ∧
      findPivot block = .ok (max 4 (min candidate (block.length - 4))) := by
  have four : minMatch = 4 := rfl
  obtain ⟨best, scanned, chosen⟩ := scanChooses scores
  refine ⟨best.2, chosen, ?_⟩
  have low : min minMatch block.length = 4 := by omega
  have high : max (block.length - minMatch) 4 = block.length - 4 := by omega
  have order : 4 ≤ block.length - 4 := by omega
  rw [findPivot, if_neg (by omega), scanned, Outcome.okBind, low]
  simp only [high, clamp, Outcome.assertPass order, Outcome.okBind]
  congr 1
  split
  · omega
  · split <;> omega

theorem pivotSplits (block : Bytes) (maxDepth : Nat) :
    ∃ score pivot left right, Scores block score ∧ findPivot block = .ok pivot ∧ pivot ≤ block.length ∧
      (9 ≤ block.length → 4 ≤ pivot ∧ pivot ≤ block.length - 4 ∧
        ∃ candidate, Chosen block.length score candidate ∧ pivot = max 4 (min candidate (block.length - 4))) ∧
      encodeBidirectional block maxDepth = .ok (pivot, left, right) ∧
      (∀ hint, detokenise left hint = .ok (block.take pivot)) ∧
      (∀ hint, detokenise right hint = .ok (block.drop pivot)) ∧
      decodeBidirectional pivot left right block.length = .ok block := by
  obtain ⟨score, scores⟩ := blockScores block
  obtain ⟨pivot, left, right, encoded, inside, parseLeft, parseRight⟩ := encodeParses block maxDepth
  obtain ⟨found, run, _, middle⟩ := pivotInside block
  cases Outcome.ok.inj (run.symm.trans (encodeSides encoded).1)
  refine ⟨score, pivot, left, right, scores, run, inside, fun long => ?_, encoded, detokeniseParse parseLeft,
    detokeniseParse parseRight, decodeParses inside parseLeft parseRight⟩
  obtain ⟨low, high⟩ := middle long
  obtain ⟨candidate, chosen, clamped⟩ := pivotChosen scores long
  exact ⟨low, by omega, candidate, chosen, Outcome.ok.inj (run.symm.trans clamped)⟩

end Openpresser.MiddleOut
