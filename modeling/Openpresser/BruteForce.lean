import Openpresser.ChainLinks
import Openpresser.Tokenise

/-! The match finder against a brute-force search: the longest common extension among
the candidates, the nearest of them on ties. -/
namespace Openpresser.Lz
open HashChain (Chained Linked bucket findWide matchLength searchWide)
open Selection (improve)

/-- How far `pos` and an earlier `p` agree, capped by the longest match and the end of the data. -/
def extension (data : Bytes) (pos p : Nat) : Nat := min maxMatch (Lz77.common (data.drop pos) (data.drop p))

/-- The longest match among candidates listed newest first; the first of the longest is the nearest. -/
def select (data : Bytes) (pos : Nat) (candidates : List Nat) : Option (Nat × Nat) :=
  ((candidates.argmax (extension data pos)).map (fun p => (pos - p, extension data pos p))).filter
    (fun m => minMatch ≤ m.2)

def near (pos : Nat) (candidates : List Nat) : List Nat := candidates.filter (fun p => pos - p ≤ maxDist)

def sameBucket (data : Bytes) (pos : Nat) (candidates : List Nat) : List Nat :=
  candidates.filter (fun p => bucket data p = bucket data pos)

def earlier (pos : Nat) : List Nat := (List.range pos).reverse

def bruteForce (data : Bytes) (maxDepth pos : Nat) : Option (Nat × Nat) :=
  select data pos (near pos ((sameBucket data pos (earlier pos)).take (maxDepth - 1)))

example : bruteForce [7, 1, 7, 7, 7, 7, 7, 7] 9 3 = some (1, 5) := by decide

def exhaustive (data : Bytes) (pos : Nat) : Option (Nat × Nat) := select data pos (near pos (earlier pos))

theorem matchLengthCommon (data : Bytes) {pos cur : Nat} (left len : Nat) (behind : cur ≤ pos)
    (inside : pos + len + left ≤ data.length) :
    matchLength data pos cur left len =
      .ok (len + min left (Lz77.common (data.drop (pos + len)) (data.drop (cur + len)))) := by
  induction left generalizing len with
  | zero => rw [matchLength, Nat.zero_min, Nat.add_zero]
  | succ left ih =>
    have ha : pos + len < data.length := by omega
    have hb : cur + len < data.length := by omega
    rw [matchLength, Outcome.getInside ha, Outcome.okBind, Outcome.getInside hb, Outcome.okBind,
      List.drop_eq_getElem_cons ha, List.drop_eq_getElem_cons hb, Lz77.common]
    by_cases equal : data[pos + len] = data[cur + len]
    · rw [if_pos equal, if_pos equal, ih (len + 1) (by omega), ← Nat.add_assoc, ← Nat.add_assoc, Nat.succ_min_succ]
      congr 1
      omega
    · rw [if_neg equal, if_neg equal, Nat.min_zero, Nat.add_zero]

theorem matchLengthExtension {data : Bytes} {pos p : Nat} (behind : p ≤ pos) (inside : pos ≤ data.length) :
    matchLength data pos p (min (data.length - pos) maxMatch) 0 = .ok (extension data pos p) := by
  have short := Lz77.commonShort (data.drop pos) (data.drop p)
  rw [List.length_drop] at short
  rw [matchLengthCommon data _ 0 behind (by omega), extension, Nat.zero_add]
  congr 1
  simp only [Nat.add_zero]
  omega

theorem extensionCapped (data : Bytes) (pos p : Nat) : extension data pos p ≤ maxMatch := Nat.min_le_left _ _

theorem searchLinked {chain : HashChain} {data : Bytes} {pos : Nat} (inside : pos < data.length) (left : Nat)
    {cur : UInt32} {ps : List Nat} (linked : Linked chain.next cur ps) (falling : ps.Pairwise (fun p q => q < p))
    (behind : ∀ p ∈ ps, p < pos) (best : Nat × Nat) :
    searchWide chain data pos (pos - maxDist) (min (data.length - pos) maxMatch) left cur best =
      .ok ((near pos (ps.take left)).foldl (improve (extension data pos) (fun p => pos - p)) best) := by
  induction left generalizing cur ps best with
  | zero => rfl
  | succ left ih =>
    cases linked with
    | stop =>
      rw [searchWide, if_pos rfl]
      rfl
    | @link cur after rest real found tail =>
      have here := behind cur.toNat List.mem_cons_self
      obtain ⟨lower, falls⟩ := List.pairwise_cons.mp falling
      have onward := ih tail falls (fun p member => behind p (List.mem_cons_of_mem _ member))
      have apart : pos - cur.toNat ≠ 0 := by omega
      rw [searchWide, if_neg real, List.take_succ_cons]
      by_cases far : cur.toNat < pos - maxDist
      · -- everything behind it is farther still
        have tooFar : near pos (cur.toNat :: rest.take left) = [] := by
          rw [near, List.filter_eq_nil_iff]
          intro p member
          have low : p ≤ cur.toNat := by
            rcases List.mem_cons.mp member with rfl | later
            · exact Nat.le_refl _
            · exact Nat.le_of_lt (lower p (List.mem_of_mem_take later))
          simp only [decide_eq_true_eq]
          omega
        rw [if_pos far, tooFar]
        rfl
      have close : near pos (cur.toNat :: rest.take left) = cur.toNat :: near pos (rest.take left) :=
        List.filter_cons_of_pos (decide_eq_true (by omega : pos - cur.toNat ≤ maxDist))
      rw [if_neg far, Outcome.subFits (by omega), Outcome.okBind, if_neg apart,
        matchLengthExtension (by omega) (by omega), Outcome.okBind, Outcome.indexOk.mpr found,
        close, List.foldl_cons, improve]
      by_cases better : best.1 < extension data pos cur.toNat
      · rw [if_pos better, if_pos better]
        by_cases full : extension data pos cur.toNat = maxMatch
        · rw [if_pos full, Selection.improveLow]
          intro p member
          rw [full]
          exact extensionCapped data pos p
        · rw [if_neg full, Outcome.okBind]
          exact onward _
      · rw [if_neg better, if_neg better, Outcome.okBind]
        exact onward _

def accept (best : Nat × Nat) : Option (Nat × Nat) :=
  if best.1 ≥ minMatch then some (best.2, best.1) else none

theorem improveSelects (data : Bytes) (pos : Nat) (candidates : List Nat) :
    accept (candidates.foldl (improve (extension data pos) (fun p => pos - p)) (minMatch - 1, 0)) =
      select data pos candidates := by
  have three : minMatch - 1 = 3 := rfl
  have four : minMatch = 4 := rfl
  rw [Selection.improveArgmax, select]
  cases candidates.argmax (extension data pos) with
  | none => rfl
  | some p =>
    simp only [Option.map_some, Option.filter_some, accept]
    by_cases long : minMatch ≤ extension data pos p
    · rw [if_pos (by omega : minMatch - 1 < extension data pos p)]
      simp [long]
    · rw [if_neg (by omega : ¬ minMatch - 1 < extension data pos p), if_neg (by omega), if_neg (by simpa using long)]

theorem selectShort {data : Bytes} {pos : Nat} (tail : pos + minMatch > data.length) (candidates : List Nat) :
    select data pos candidates = none := by
  rw [select]
  cases candidates.argmax (extension data pos) with
  | none => rfl
  | some p =>
    have short := Lz77.commonShort (data.drop pos) (data.drop p)
    rw [List.length_drop] at short
    have few : ¬ minMatch ≤ extension data pos p := by
      have below := Nat.le_trans (Nat.min_le_right maxMatch _) short
      have four : minMatch = 4 := rfl
      rw [extension]
      omega
    rw [Option.map_some, Option.filter_some, if_neg (by simpa using few)]

theorem findSelects {chain : HashChain} {data : Bytes} {pos : Nat} {inserted : List Nat}
    (chained : Chained chain data (pos :: inserted)) :
    findWide chain data pos =
      .ok (select data pos (near pos ((sameBucket data pos inserted).take (chain.maxDepth - 1)))) := by
  have inside : pos < data.length := chained.inside pos List.mem_cons_self
  obtain ⟨behind, falling⟩ := List.pairwise_cons.mp chained.falling
  unfold findWide
  by_cases tail : pos + minMatch > data.length
  · rw [if_pos tail, selectShort tail]
  obtain ⟨cur, top, linked⟩ := chained.buckets (bucket data pos) (HashChain.bucketBound data pos)
  rw [List.filter_cons_of_pos (by simp)] at linked
  obtain ⟨real, self, after, found, older⟩ := HashChain.linkedCons linked
  have limit : (if pos > maxDist then pos - maxDist else 0) = pos - maxDist := by
    split <;> omega
  rw [if_neg tail, HashChain.hash4Bucket, Outcome.okBind, Outcome.indexOk.mpr top, Outcome.okBind]
  simp only [limit]
  cases depth : chain.maxDepth with
  | zero => rfl
  | succ left =>
    -- the position itself uses up one step
    have first : searchWide chain data pos (pos - maxDist) (min (data.length - pos) maxMatch) (left + 1) cur
        (minMatch - 1, 0) = searchWide chain data pos (pos - maxDist) (min (data.length - pos) maxMatch) left after
        (minMatch - 1, 0) := by
      rw [searchWide, if_neg real, self, if_neg (by omega), Outcome.subFits (Nat.le_refl _), Outcome.okBind,
        Nat.sub_self, if_pos rfl, Outcome.indexOk.mpr found, Outcome.okBind]
    have older' : Linked chain.next after (sameBucket data pos inserted) := older
    rw [first, searchLinked inside left older' (falling.filter _)
      (fun p member => behind p (List.mem_filter.mp member).1), Outcome.okBind, Nat.add_sub_cancel,
      ← improveSelects data pos (near pos ((sameBucket data pos inserted).take left))]
    exact (apply_ite Outcome.ok _ _ _).symm

/-- The chain and the position at the head of the loop of `tokenise`. -/
inductive LoopHead (data : Bytes) (maxDepth : Nat) : HashChain → Nat → Prop where
  | start : LoopHead data maxDepth (HashChain.new data.length maxDepth) 0
  | literal {chain inserted : HashChain} {pos : Nat} (before : LoopHead data maxDepth chain pos)
      (more : pos < data.length) (insert : chain.insert data pos = .ok inserted)
      (search : inserted.findLongestMatchForward data pos = .ok none) : LoopHead data maxDepth inserted (pos + 1)
  | matched {chain inserted skipped : HashChain} {pos : Nat} {dist len : UInt16}
      (before : LoopHead data maxDepth chain pos) (more : pos < data.length)
      (insert : chain.insert data pos = .ok inserted)
      (search : inserted.findLongestMatchForward data pos = .ok (some (dist, len)))
      (skip : insertSkipped data pos len.toNat inserted = .ok skipped) :
      LoopHead data maxDepth skipped (pos + len.toNat)

theorem tokeniseTurn {data : Bytes} {maxDepth fuel : Nat} {chain : HashChain} {pos : Nat}
    (head : LoopHead data maxDepth chain pos) {tok : Token} {rest : List Token}
    (run : tokeniseFrom data fuel chain pos = .ok (tok :: rest)) :
    ∃ inserted after fuel', pos < data.length ∧ chain.insert data pos = .ok inserted ∧
      inserted.findLongestMatchForward data pos = .ok (matchOf tok) ∧
      LoopHead data maxDepth after (pos + tok.span) ∧ tokeniseFrom data fuel' after (pos + tok.span) = .ok rest := by
  cases fuel with
  | zero => contradiction
  | succ fuel =>
    rw [tokeniseFrom] at run
    by_cases more : pos < data.length
    case neg =>
      rw [if_neg more] at run
      cases Outcome.ok.inj run
    rw [if_pos more, Outcome.bindOk] at run
    obtain ⟨inserted, insert, run⟩ := run
    rw [Outcome.bindOk] at run
    obtain ⟨found, search, run⟩ := run
    cases found with
    | none =>
      simp only [Outcome.bindOk] at run
      obtain ⟨b, _, later, onward, same⟩ := run
      cases Outcome.ok.inj same
      exact ⟨inserted, inserted, fuel, more, insert, search, .literal head more insert search, onward⟩
    | some found =>
      obtain ⟨dist, len⟩ := found
      simp only [Outcome.bindOk] at run
      obtain ⟨skipped, skip, later, onward, same⟩ := run
      cases Outcome.ok.inj same
      exact ⟨inserted, skipped, fuel, more, insert, search, .matched head more insert search skip, onward⟩

/-- Every token of a run comes from a turn of the loop, at the position its predecessors cover. -/
theorem tokenTurns {data : Bytes} {maxDepth fuel : Nat} {chain : HashChain} {pos : Nat}
    (head : LoopHead data maxDepth chain pos) {done rest : List Token} {tok : Token}
    (run : tokeniseFrom data fuel chain pos = .ok (done ++ tok :: rest)) :
    ∃ chain' inserted, LoopHead data maxDepth chain' (pos + (done.map Token.span).sum) ∧
      pos + (done.map Token.span).sum < data.length ∧
      chain'.insert data (pos + (done.map Token.span).sum) = .ok inserted ∧
      inserted.findLongestMatchForward data (pos + (done.map Token.span).sum) = .ok (matchOf tok) := by
  induction done generalizing fuel chain pos with
  | nil =>
    obtain ⟨inserted, _, _, more, insert, search, _⟩ := tokeniseTurn head run
    exact ⟨chain, inserted, head, more, insert, search⟩
  | cons first done ih =>
    obtain ⟨_, after, fuel', _, _, _, head', onward⟩ := tokeniseTurn head run
    have turn := ih head' onward
    rwa [Nat.add_assoc, ← List.sum_cons, ← List.map_cons] at turn

theorem matchFound {data : Bytes} {chain inserted : HashChain} {pos : Nat} {dist len : UInt16}
    (ordered : chain.Ordered data.length pos) (more : pos < data.length)
    (insert : chain.insert data pos = .ok inserted)
    (search : inserted.findLongestMatchForward data pos = .ok (some (dist, len))) :
    inserted.Ordered data.length (pos + 1) ∧ HashChain.IsMatch data pos dist.toNat len.toNat ∧ 1 ≤ len.toNat := by
  obtain ⟨inserted', run, onto, _⟩ := HashChain.insertOrdered pos ordered (Nat.le_refl _) more
  cases Outcome.ok.inj (run.symm.trans insert)
  obtain ⟨found, searched, real⟩ := HashChain.findReturns onto more
  cases Outcome.ok.inj (searched.symm.trans search)
  have copy := real dist len rfl
  exact ⟨onto, copy, Nat.le_trans (by decide) copy.long⟩

theorem loopHeadOrdered {data : Bytes} {maxDepth : Nat} {chain : HashChain} {pos : Nat}
    (head : LoopHead data maxDepth chain pos) : chain.Ordered data.length pos ∧ pos ≤ data.length := by
  induction head with
  | start => exact ⟨HashChain.newOrdered data.length maxDepth, Nat.zero_le _⟩
  | literal before more insert search ih =>
    obtain ⟨inserted, run, onto, _⟩ := HashChain.insertOrdered _ ih.1 (Nat.le_refl _) more
    cases Outcome.ok.inj (run.symm.trans insert)
    exact ⟨onto, more⟩
  | matched before more insert search skip ih =>
    obtain ⟨onto, copy, long⟩ := matchFound ih.1 more insert search
    obtain ⟨skipped, skips, beyond⟩ := insertSkippedOrdered long onto copy.repeats.inside
    cases Outcome.ok.inj (skips.symm.trans skip)
    exact ⟨beyond, copy.repeats.inside⟩

theorem earlierSucc (pos : Nat) : earlier (pos + 1) = pos :: earlier pos := by
  rw [earlier, List.range_succ, List.reverse_append]
  rfl

theorem earlierBelow {pos p : Nat} (member : p ∈ earlier pos) : p < pos :=
  List.mem_range.mp (List.mem_reverse.mp member)

theorem insertEarlier {chain : HashChain} {data : Bytes} {pos : Nat} (small : data.length < 2 ^ 32 - 1)
    (chained : Chained chain data (earlier pos)) (more : pos < data.length) :
    ∃ chain', chain.insert data pos = .ok chain' ∧ Chained chain' data (earlier (pos + 1)) ∧
      chain'.maxDepth = chain.maxDepth := by
  rw [earlierSucc]
  exact HashChain.insertChained small chained more fun p member => earlierBelow member

theorem loopHeadChained {data : Bytes} {maxDepth : Nat} (small : data.length < 2 ^ 32 - 1) {chain : HashChain}
    {pos : Nat} (head : LoopHead data maxDepth chain pos) :
    Chained chain data (earlier pos) ∧ chain.maxDepth = maxDepth := by
  induction head with
  | start => exact ⟨HashChain.newChained data maxDepth, rfl⟩
  | literal before more insert search ih =>
    obtain ⟨inserted, run, onto, depth⟩ := insertEarlier small ih.1 more
    cases Outcome.ok.inj (run.symm.trans insert)
    exact ⟨onto, depth.trans ih.2⟩
  | matched before more insert search skip ih =>
    obtain ⟨inserted, run, onto, depth⟩ := insertEarlier small ih.1 more
    cases Outcome.ok.inj (run.symm.trans insert)
    obtain ⟨_, copy, long⟩ := matchFound (loopHeadOrdered before).1 more insert search
    obtain ⟨skipped, skips, beyond⟩ := insertSkippedCarries
      (I := fun p chain => Chained chain data (earlier p) ∧ chain.maxDepth = maxDepth) (fun p room chain held => by
        obtain ⟨chain', run, next, same⟩ := insertEarlier small held.1 room
        exact ⟨chain', run, next, same.trans held.2⟩) long ⟨onto, depth.trans ih.2⟩ copy.repeats.inside
    cases Outcome.ok.inj (skips.symm.trans skip)
    exact beyond

/-! With depth to spare the buckets lose nothing: four equal bytes share one. -/
theorem bucketShared {data : Bytes} {pos p : Nat} (behind : p ≤ pos) (long : minMatch ≤ extension data pos p) :
    bucket data p = bucket data pos := by
  have far : 4 ≤ Lz77.common (data.drop pos) (data.drop p) := Nat.le_trans long (Nat.min_le_right _ _)
  have short := Lz77.commonShort (data.drop pos) (data.drop p)
  rw [List.length_drop] at short
  rw [bucket, bucket, if_neg (by omega), if_neg (by omega), Lz77.commonTake far]

theorem selectShared {data : Bytes} {pos : Nat} {candidates : List Nat} (behind : ∀ p ∈ candidates, p < pos) :
    select data pos (sameBucket data pos candidates) = select data pos candidates := by
  have three : minMatch - 1 = 3 := rfl
  have four : minMatch = 4 := rfl
  rw [← improveSelects, ← improveSelects, sameBucket]
  have low : ∀ p ∈ candidates, decide (bucket data p = bucket data pos) = false →
      extension data pos p ≤ minMatch - 1 := by
    intro p member apart
    rw [decide_eq_false_iff_not] at apart
    by_cases long : minMatch ≤ extension data pos p
    · exact absurd (bucketShared (Nat.le_of_lt (behind p member)) long) apart
    · omega
  rw [Selection.improveFilter _ _ _ low (Nat.le_refl _)]

theorem deepEnough {data : Bytes} {maxDepth pos : Nat} (deep : data.length < maxDepth) (more : pos < data.length) :
    bruteForce data maxDepth pos = exhaustive data pos := by
  have few : (sameBucket data pos (earlier pos)).length ≤ maxDepth - 1 := by
    have kept := List.length_filter_le (fun p => decide (bucket data p = bucket data pos)) (earlier pos)
    rw [earlier, List.length_reverse, List.length_range] at kept
    rw [sameBucket, earlier]
    omega
  have swap : near pos (sameBucket data pos (earlier pos)) = sameBucket data pos (near pos (earlier pos)) :=
    List.filter_comm _ _ _
  rw [bruteForce, exhaustive, List.take_of_length_le few, swap]
  exact selectShared fun p member => earlierBelow (List.mem_filter.mp member).1

theorem headFinds {data : Bytes} {maxDepth : Nat} (small : data.length < 2 ^ 32 - 1) {chain : HashChain} {pos : Nat}
    (head : LoopHead data maxDepth chain pos) (more : pos < data.length) :
    ∃ inserted found, chain.insert data pos = .ok inserted ∧
      inserted.findLongestMatchForward data pos = .ok found ∧
      found.map HashChain.widen = bruteForce data maxDepth pos := by
  obtain ⟨chained, depth⟩ := loopHeadChained small head
  obtain ⟨inserted, run, onto, depth'⟩ := insertEarlier small chained more
  rw [earlierSucc] at onto
  have searched := findSelects onto
  rw [depth', depth] at searched
  obtain ⟨found, cast, same⟩ := HashChain.findKeeps searched
  exact ⟨inserted, found, run, cast, same⟩

/-- The loop goes on behind the match, or behind the byte where there is none. -/
theorem headAdvances {data : Bytes} {maxDepth : Nat} (small : data.length < 2 ^ 32 - 1) {chain : HashChain} {pos : Nat}
    (head : LoopHead data maxDepth chain pos) (more : pos < data.length) :
    ∃ after, LoopHead data maxDepth after (pos + ((bruteForce data maxDepth pos).map Prod.snd).getD 1) := by
  obtain ⟨inserted, found, insert, search, same⟩ := headFinds small head more
  rw [← same]
  cases found with
  | none => exact ⟨inserted, .literal head more insert search⟩
  | some pair =>
    obtain ⟨dist, len⟩ := pair
    obtain ⟨onto, copy, long⟩ := matchFound (loopHeadOrdered head).1 more insert search
    obtain ⟨skipped, skip, _⟩ := insertSkippedOrdered long onto copy.repeats.inside
    exact ⟨skipped, .matched head more insert search skip⟩

theorem findIsBruteForce (data : Bytes) (maxDepth : Nat) (small : data.length < 2 ^ 32 - 1) (chain : HashChain)
    (pos : Nat) (head : LoopHead data maxDepth chain pos) (more : pos < data.length) :
    ∃ inserted found, chain.insert data pos = .ok inserted ∧
      inserted.findLongestMatchForward data pos = .ok found ∧
      found.map HashChain.widen = bruteForce data maxDepth pos ∧
      (data.length < maxDepth → found.map HashChain.widen = exhaustive data pos) := by
  obtain ⟨inserted, found, insert, search, same⟩ := headFinds small head more
  exact ⟨inserted, found, insert, search, same, fun deep => same.trans (deepEnough deep more)⟩

/-- The fourth turn of the loop: three earlier positions agree on four bytes, the nearest is taken. -/
theorem findIsBruteForceSevens : ∃ chain inserted found, LoopHead [7, 7, 7, 7, 7, 7, 8, 7, 7, 7, 7] 12 chain 7 ∧
    chain.insert [7, 7, 7, 7, 7, 7, 8, 7, 7, 7, 7] 7 = .ok inserted ∧
    inserted.findLongestMatchForward [7, 7, 7, 7, 7, 7, 8, 7, 7, 7, 7] 7 = .ok found ∧
    found.map HashChain.widen = bruteForce [7, 7, 7, 7, 7, 7, 8, 7, 7, 7, 7] 12 7 ∧
    found.map HashChain.widen = exhaustive [7, 7, 7, 7, 7, 7, 8, 7, 7, 7, 7] 7 ∧
    found.map HashChain.widen = some (5, 4) := by
  let data : Bytes := [7, 7, 7, 7, 7, 7, 8, 7, 7, 7, 7]
  have small : data.length < 2 ^ 32 - 1 := by decide
  have zeroth : LoopHead data 12 (HashChain.new data.length 12) 0 := .start
  obtain ⟨a, first⟩ := headAdvances small zeroth (by decide)
  rw [(by decide : bruteForce data 12 0 = none)] at first
  change LoopHead data 12 a 1 at first
  obtain ⟨b, second⟩ := headAdvances small first (by decide)
  rw [(by decide : bruteForce data 12 1 = some (1, 5))] at second
  change LoopHead data 12 b 6 at second
  obtain ⟨chain, head⟩ := headAdvances small second (by decide)
  rw [(by decide : bruteForce data 12 6 = none)] at head
  obtain ⟨inserted, found, insert, search, best, deep⟩ := findIsBruteForce data 12 small chain 7 head (by decide)
  exact ⟨chain, inserted, found, head, insert, search, best, deep (by decide), best.trans (by decide)⟩

end Openpresser.Lz
