import Openpresser.BruteForce
import Openpresser.MiddleOut

/-! Chains built by any rising insertions, and the search loop with its rounds counted.
The sentinel ends every walk, so the depth limit is never what makes the loop stop. -/
namespace Openpresser.Lz
open HashChain (Chained Linked bucket hash4 matchLength search)
open MiddleOut (scoreDepth)

def insertAll (data : Bytes) (maxDepth : Nat) (positions : List Nat) : Result HashChain :=
  positions.foldlM (fun (chain : HashChain) pos => chain.insert data pos) (HashChain.new data.length maxDepth)

theorem insertAllSnoc (data : Bytes) (maxDepth : Nat) (positions : List Nat) (pos : Nat) :
    insertAll data maxDepth (positions ++ [pos]) =
      insertAll data maxDepth positions >>= fun chain => chain.insert data pos := by
  rw [insertAll, Outcome.foldlMAppend]
  congr 1
  funext chain
  rw [Outcome.foldlMCons]
  cases chain.insert data pos <;> rfl

theorem insertAllChained {data : Bytes} (small : data.length < 2 ^ 32 - 1) (maxDepth : Nat) {positions : List Nat}
    (rising : positions.Pairwise (fun p q => p < q)) (inside : ∀ p ∈ positions, p < data.length) :
    ∃ chain, insertAll data maxDepth positions = .ok chain ∧ Chained chain data positions.reverse := by
  refine Outcome.foldlMInvariant (I := fun done chain => Chained chain data done.reverse) positions
    (HashChain.newChained data maxDepth) ?_
  intro done pos rest chain split chained
  rw [split] at rising
  have fresh : ∀ p ∈ done.reverse, p < pos := fun p member =>
    (List.pairwise_append.mp rising).2.2 p (List.mem_reverse.mp member) pos List.mem_cons_self
  obtain ⟨next, run, onto, _⟩ := HashChain.insertChained small chained (inside pos (by rw [split]; simp)) fresh
  exact ⟨next, run, by rwa [List.reverse_append]⟩

/-- From every bucket: the positions of that hash, each once, newest first, up to the sentinel. -/
def Walks (chain : HashChain) (data : Bytes) (positions : List Nat) : Prop :=
  ∀ h < hashSize, ∃ cur visited, chain.head[h]? = some cur ∧ Linked chain.next cur visited ∧
    visited.Pairwise (fun p q => q < p) ∧ ∀ p, p ∈ visited ↔ p ∈ positions ∧ hash4 data p = .ok h

theorem chainedWalks {chain : HashChain} {data : Bytes} {positions : List Nat}
    (chained : Chained chain data positions.reverse) : Walks chain data positions := by
  intro h bound
  obtain ⟨cur, top, linked⟩ := chained.buckets h bound
  refine ⟨cur, _, top, linked, chained.falling.filter _, fun p => ?_⟩
  rw [List.mem_filter, List.mem_reverse, decide_eq_true_eq, HashChain.hash4Bucket, Outcome.ok.injEq]

/-! The loop as it is written, with `depth` counted up; the first argument bounds its rounds. -/
def searchRounds (chain : HashChain) (data : Bytes) (pos limit maxLen : Nat) :
    Nat → UInt32 → Nat → Nat → UInt16 → Result (Nat × UInt16)
  | 0, _, _, _, _ => .diverge
  | rounds+1, cur, depth, bestLen, bestDist =>
    if cur ≠ u32Max ∧ depth < chain.maxDepth then
      if cur.toNat < limit then .ok (bestLen, bestDist)
      else do
        let dist ← Outcome.sub pos cur.toNat
        if dist = 0 then do
          let following ← Outcome.index chain.next cur.toNat
          searchRounds chain data pos limit maxLen rounds following (depth + 1) bestLen bestDist
        else do
          let len ← matchLength data pos cur.toNat maxLen 0
          if len > bestLen then
            if len = maxMatch then .ok (len, UInt16.ofNat dist)
            else do
              let following ← Outcome.index chain.next cur.toNat
              searchRounds chain data pos limit maxLen rounds following (depth + 1) len (UInt16.ofNat dist)
          else do
            let following ← Outcome.index chain.next cur.toNat
            searchRounds chain data pos limit maxLen rounds following (depth + 1) bestLen bestDist
    else .ok (bestLen, bestDist)

def findRounds (chain : HashChain) (data : Bytes) (pos rounds : Nat) : Result (Option (UInt16 × UInt16)) :=
  if pos + minMatch > data.length then .ok none else do
    let h ← hash4 data pos
    let limit := if pos > maxDist then pos - maxDist else 0
    let maxLen := min (data.length - pos) maxMatch
    let cur ← Outcome.index chain.head h
    let (bestLen, bestDist) ← searchRounds chain data pos limit maxLen rounds cur 0 (minMatch - 1) 0
    if bestLen ≥ minMatch then .ok (some (bestDist, UInt16.ofNat bestLen)) else .ok none

theorem searchRoundsEnough {chain : HashChain} {data : Bytes} {pos limit maxLen : Nat} (rounds : Nat) {cur : UInt32}
    {visited : List Nat} (linked : Linked chain.next cur visited) (enough : visited.length < rounds)
    (depth bestLen : Nat) (bestDist : UInt16) :
    searchRounds chain data pos limit maxLen rounds cur depth bestLen bestDist =
      search chain data pos limit maxLen (chain.maxDepth - depth) cur bestLen bestDist := by
  induction rounds generalizing cur visited depth bestLen bestDist with
  | zero => omega
  | succ rounds ih =>
    rw [searchRounds]
    by_cases deeper : depth < chain.maxDepth
    case neg =>
      rw [if_neg (fun both => deeper both.2), Nat.sub_eq_zero_of_le (Nat.not_lt.mp deeper)]
      rfl
    have left : chain.maxDepth - depth = chain.maxDepth - (depth + 1) + 1 := by omega
    rw [left, search]
    cases linked with
    | stop => rw [if_neg (fun both => both.1 rfl), if_pos rfl]
    | @link cur after rest real found tail =>
      have onward := ih tail (by simpa using enough) (depth + 1)
      rw [if_pos ⟨real, deeper⟩, if_neg real]
      simp only [Outcome.indexOk.mpr found, Outcome.okBind, onward]

theorem findRoundsEnough {chain : HashChain} {data : Bytes} {pos rounds : Nat} {inserted : List Nat}
    (chained : Chained chain data inserted) (enough : inserted.length < rounds) :
    findRounds chain data pos rounds = chain.findLongestMatchForward data pos := by
  obtain ⟨cur, top, linked⟩ := chained.buckets (bucket data pos) (HashChain.bucketBound data pos)
  have few : (inserted.filter (fun p => bucket data p = bucket data pos)).length < rounds :=
    Nat.lt_of_le_of_lt (List.length_filter_le _ _) enough
  unfold findRounds HashChain.findLongestMatchForward
  rw [HashChain.hash4Bucket, Outcome.okBind, Outcome.okBind, Outcome.indexOk.mpr top]
  simp only [Outcome.okBind, searchRoundsEnough rounds linked few, Nat.sub_zero]

theorem depthChained {chain : HashChain} {data : Bytes} {inserted : List Nat} (chained : Chained chain data inserted)
    (depth : Nat) : Chained ⟨chain.head, chain.next, depth⟩ data inserted :=
  ⟨chained.headSize, chained.nextSize, chained.falling, chained.inside, chained.buckets⟩

theorem lastSearched {chain : HashChain} {data : Bytes} {positions : List Nat} {pos : Nat}
    (chained : Chained chain data positions.reverse) (last : positions.getLast? = some pos) :
    ∃ found, findRounds chain data pos (positions.length + 1) = .ok found ∧
      chain.findLongestMatchForward data pos = .ok found := by
  obtain ⟨before, rfl⟩ := List.getLast?_eq_some_iff.mp last
  have rounds : findRounds chain data pos ((before ++ [pos]).length + 1) = chain.findLongestMatchForward data pos :=
    findRoundsEnough chained (by simp)
  rw [List.reverse_append] at chained
  obtain ⟨found, run, _⟩ := HashChain.findKeeps (findSelects chained)
  exact ⟨found, rounds.trans run, run⟩

/-! What the two callers insert. -/
theorem loopHeadInserts {data : Bytes} {maxDepth : Nat} {chain : HashChain} {pos : Nat}
    (head : LoopHead data maxDepth chain pos) : insertAll data maxDepth (List.range pos) = .ok chain := by
  induction head with
  | start => rfl
  | literal before more insert search ih => rw [List.range_succ, insertAllSnoc, ih, Outcome.okBind, insert]
  | @matched chain inserted skipped pos dist len before more insert search skip ih =>
    obtain ⟨onto, copy, long⟩ := matchFound (loopHeadOrdered before).1 more insert search
    have first : insertAll data maxDepth (List.range (pos + 1)) = .ok inserted := by
      rw [List.range_succ, insertAllSnoc, ih, Outcome.okBind, insert]
    obtain ⟨skipped', run, all, _⟩ := insertSkippedCarries
      (I := fun p chain => insertAll data maxDepth (List.range p) = .ok chain ∧ chain.Ordered data.length p)
      (fun p room chain held => by
        obtain ⟨next, inserts, ordered, _⟩ := HashChain.insertOrdered p held.2 (Nat.le_refl p) room
        exact ⟨next, inserts, by rw [List.range_succ, insertAllSnoc, held.1, Outcome.okBind, inserts], ordered⟩)
      long ⟨first, onto⟩ copy.repeats.inside
    cases Outcome.ok.inj (run.symm.trans skip)
    exact all

/-- The chain and the position at the head of the loop of `score_window`, which skips what a match covers. -/
inductive ScoreHead (window : Bytes) : HashChain → Nat → Prop where
  | start : ScoreHead window (HashChain.new window.length scoreDepth) 0
  | literal {chain inserted : HashChain} {pos : Nat} (before : ScoreHead window chain pos)
      (more : pos < window.length) (insert : chain.insert window pos = .ok inserted)
      (search : inserted.findLongestMatchForward window pos = .ok none) : ScoreHead window inserted (pos + 1)
  | matched {chain inserted : HashChain} {pos : Nat} {dist len : UInt16} (before : ScoreHead window chain pos)
      (more : pos < window.length) (insert : chain.insert window pos = .ok inserted)
      (search : inserted.findLongestMatchForward window pos = .ok (some (dist, len))) :
      ScoreHead window inserted (pos + len.toNat)

structure Inserts (data : Bytes) (maxDepth : Nat) (positions : List Nat) (chain : HashChain) (pos : Nat) : Prop where
  rising : positions.Pairwise (fun p q => p < q)
  below : ∀ p ∈ positions, p < pos
  inside : pos ≤ data.length
  run : insertAll data maxDepth positions = .ok chain

theorem insertsSnoc {data : Bytes} {maxDepth : Nat} {positions : List Nat} {chain inserted : HashChain}
    {pos next : Nat} (before : Inserts data maxDepth positions chain pos)
    (insert : chain.insert data pos = .ok inserted) (onward : pos < next) (inside : next ≤ data.length) :
    Inserts data maxDepth (positions ++ [pos]) inserted next where
  rising := List.pairwise_append.mpr ⟨before.rising, List.pairwise_singleton _ _, fun p member q last => by
    rw [List.mem_singleton.mp last]
    exact before.below p member⟩
  below := fun p member => by
    rcases List.mem_append.mp member with earlier | last
    · exact Nat.lt_trans (before.below p earlier) onward
    · rw [List.mem_singleton.mp last]
      exact onward
  inside := inside
  run := by rw [insertAllSnoc, before.run, Outcome.okBind, insert]

theorem scoreHeadInserts {window : Bytes} {chain : HashChain} {pos : Nat} (head : ScoreHead window chain pos) :
    ∃ positions, Inserts window scoreDepth positions chain pos := by
  suffices both : chain.Ordered window.length pos ∧ ∃ positions, Inserts window scoreDepth positions chain pos from
    both.2
  induction head with
  | start => exact ⟨HashChain.newOrdered _ _, [], .nil, by simp, Nat.zero_le _, rfl⟩
  | literal before more insert search ih =>
    obtain ⟨ordered, positions, inserts⟩ := ih
    obtain ⟨inserted, run, onto, _⟩ := HashChain.insertOrdered _ ordered (Nat.le_refl _) more
    cases Outcome.ok.inj (run.symm.trans insert)
    exact ⟨onto, _, insertsSnoc inserts insert (Nat.lt_succ_self _) more⟩
  | matched before more insert search ih =>
    obtain ⟨ordered, positions, inserts⟩ := ih
    obtain ⟨onto, copy, long⟩ := matchFound ordered more insert search
    exact ⟨HashChain.orderedHigher onto (by omega), _, insertsSnoc inserts insert (by omega) copy.repeats.inside⟩

theorem chainsWalk (data : Bytes) (small : data.length < 2 ^ 32 - 1) :
    (∀ maxDepth positions, positions.Pairwise (fun p q => p < q) → (∀ p ∈ positions, p < data.length) →
      ∃ chain, insertAll data maxDepth positions = .ok chain ∧ Walks chain data positions ∧
        ∀ pos, positions.getLast? = some pos → ∀ depth,
          ∃ found, findRounds ⟨chain.head, chain.next, depth⟩ data pos (positions.length + 1) = .ok found ∧
            HashChain.findLongestMatchForward ⟨chain.head, chain.next, depth⟩ data pos = .ok found) ∧
    (∀ maxDepth chain pos, LoopHead data maxDepth chain pos →
      Inserts data maxDepth (List.range pos) chain pos) ∧
    (∀ chain pos, ScoreHead data chain pos → ∃ positions, Inserts data scoreDepth positions chain pos) := by
  refine ⟨?_, ?_, fun chain pos head => scoreHeadInserts head⟩
  · intro maxDepth positions rising inside
    obtain ⟨chain, run, chained⟩ := insertAllChained small maxDepth rising inside
    exact ⟨chain, run, chainedWalks chained, fun pos last depth => lastSearched (depthChained chained depth) last⟩
  · intro maxDepth chain pos head
    exact ⟨List.pairwise_lt_range, fun p member => List.mem_range.mp member, (loopHeadOrdered head).2,
      loopHeadInserts head⟩

theorem chainsWalkGaps : ∃ chain, insertAll [7, 1, 7, 7, 7, 7, 7, 7] 9 [0, 2, 3] = .ok chain ∧
    Walks chain [7, 1, 7, 7, 7, 7, 7, 7] [0, 2, 3] ∧
    ∀ pos, [0, 2, 3].getLast? = some pos → ∀ depth,
      ∃ found, findRounds ⟨chain.head, chain.next, depth⟩ [7, 1, 7, 7, 7, 7, 7, 7] pos 4 = .ok found ∧
        HashChain.findLongestMatchForward ⟨chain.head, chain.next, depth⟩ [7, 1, 7, 7, 7, 7, 7, 7] pos = .ok found :=
  (chainsWalk [7, 1, 7, 7, 7, 7, 7, 7] (by decide)).1 9 [0, 2, 3] (by decide) (by decide)

end Openpresser.Lz
