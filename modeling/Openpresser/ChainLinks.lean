import Openpresser.HashChain
import Openpresser.Library.Selection
import Mathlib.Data.List.Basic

/-! What the chains hold. As long as positions fit in 32 bits, every bucket links
the inserted positions of its hash, newest first, and a search goes down that list. -/
namespace Openpresser.Lz.HashChain

/-- Following `next` from `cur` visits these positions and ends. -/
inductive Linked (next : Array UInt32) : UInt32 → List Nat → Prop where
  | stop : Linked next u32Max []
  | link {cur after : UInt32} {rest : List Nat} (real : cur ≠ u32Max) (found : next[cur.toNat]? = some after)
      (tail : Linked next after rest) : Linked next cur (cur.toNat :: rest)

theorem linkedFrame {next : Array UInt32} {cur : UInt32} {ps : List Nat} (linked : Linked next cur ps) {pos : Nat}
    (absent : pos ∉ ps) (v : UInt32) : Linked (next.setIfInBounds pos v) cur ps := by
  induction linked with
  | stop => exact .stop
  | link real found tail ih =>
    rw [List.mem_cons, not_or] at absent
    refine .link real ?_ (ih absent.2)
    rw [Array.getElem?_setIfInBounds_ne absent.1, found]

theorem linkedCons {next : Array UInt32} {cur : UInt32} {p : Nat} {rest : List Nat}
    (linked : Linked next cur (p :: rest)) :
    cur ≠ u32Max ∧ cur.toNat = p ∧ ∃ after, next[p]? = some after ∧ Linked next after rest := by
  generalize whole : p :: rest = ps at linked
  cases linked with
  | stop => contradiction
  | link real found tail =>
    obtain ⟨rfl, rfl⟩ := List.cons.inj whole
    exact ⟨real, rfl, _, found, tail⟩

structure Chained (chain : HashChain) (data : Bytes) (inserted : List Nat) : Prop where
  headSize : chain.head.size = hashSize
  nextSize : data.length ≤ chain.next.size
  falling : inserted.Pairwise (fun p q => q < p)
  inside : ∀ p ∈ inserted, p < data.length
  buckets : ∀ h < hashSize, ∃ cur, chain.head[h]? = some cur ∧
    Linked chain.next cur (inserted.filter (fun p => bucket data p = h))

theorem newChained (data : Bytes) (maxDepth : Nat) : Chained (new data.length maxDepth) data [] where
  headSize := Array.size_replicate
  nextSize := by simp [new]
  falling := .nil
  inside := by simp
  buckets := fun h bound => ⟨u32Max, by rw [new, Array.getElem?_replicate, if_pos bound], .stop⟩

theorem insertChained {chain : HashChain} {data : Bytes} {inserted : List Nat} (small : data.length < 2 ^ 32 - 1)
    (chained : Chained chain data inserted) {pos : Nat} (room : pos < data.length) (fresh : ∀ p ∈ inserted, p < pos) :
    ∃ chain', chain.insert data pos = .ok chain' ∧ Chained chain' data (pos :: inserted) ∧
      chain'.maxDepth = chain.maxDepth := by
  have inBucket := bucketBound data pos
  obtain ⟨prev, top, linked⟩ := chained.buckets (bucket data pos) inBucket
  have slot : bucket data pos < chain.head.size := by rw [chained.headSize]; exact inBucket
  have cell : pos < chain.next.size := Nat.lt_of_lt_of_le room chained.nextSize
  have number : (UInt32.ofNat pos).toNat = pos :=
    UInt32.toNat_ofNat_of_lt' (Nat.lt_trans room (Nat.lt_of_lt_of_le small (by decide)))
  have real : UInt32.ofNat pos ≠ u32Max := by
    intro same
    have value := congrArg UInt32.toNat same
    have limit : u32Max.toNat = 2 ^ 32 - 1 := rfl
    omega
  have absent (h : Nat) : pos ∉ inserted.filter (fun p => bucket data p = h) := fun member =>
    Nat.lt_irrefl pos (fresh pos (List.mem_filter.mp member).1)
  refine ⟨⟨chain.head.setIfInBounds (bucket data pos) (UInt32.ofNat pos), chain.next.setIfInBounds pos prev,
    chain.maxDepth⟩, ?_, ?_, rfl⟩
  · rw [insert, hash4Bucket, Outcome.okBind, Outcome.indexOk.mpr top, Outcome.okBind, Outcome.storeInside _ cell,
      Outcome.okBind, Outcome.storeInside _ slot, Outcome.okBind]
  refine ⟨by simpa using chained.headSize, by simpa using chained.nextSize, ?_, ?_, fun h bound => ?_⟩
  · exact List.pairwise_cons.mpr ⟨fresh, chained.falling⟩
  · intro p member
    rcases List.mem_cons.mp member with rfl | earlier
    · exact room
    · exact chained.inside p earlier
  by_cases here : bucket data pos = h
  · subst here
    refine ⟨UInt32.ofNat pos, Array.getElem?_setIfInBounds_self_of_lt slot, ?_⟩
    rw [List.filter_cons_of_pos (by simp)]
    have stored : (chain.next.setIfInBounds pos prev)[(UInt32.ofNat pos).toNat]? = some prev := by
      rw [number, Array.getElem?_setIfInBounds_self_of_lt cell]
    have front := Linked.link real stored (linkedFrame linked (absent _) prev)
    rwa [number] at front
  · obtain ⟨cur, found, others⟩ := chained.buckets h bound
    refine ⟨cur, by rw [Array.getElem?_setIfInBounds_ne here, found], ?_⟩
    rw [List.filter_cons_of_neg (by simpa using here)]
    exact linkedFrame others (absent h) prev

/-! The walk with the distance still a `usize`: the cast to `u16` loses nothing. -/
def searchWide (chain : HashChain) (data : Bytes) (pos limit maxLen : Nat) :
    Nat → UInt32 → Nat × Nat → Result (Nat × Nat)
  | 0, _, best => .ok best
  | left+1, cur, best =>
    if cur = u32Max then .ok best
    else if cur.toNat < limit then .ok best
    else do
      let dist ← Outcome.sub pos cur.toNat
      if dist = 0 then do
        let following ← Outcome.index chain.next cur.toNat
        searchWide chain data pos limit maxLen left following best
      else do
        let len ← matchLength data pos cur.toNat maxLen 0
        if len > best.1 then
          if len = maxMatch then .ok (len, dist)
          else do
            let following ← Outcome.index chain.next cur.toNat
            searchWide chain data pos limit maxLen left following (len, dist)
        else do
          let following ← Outcome.index chain.next cur.toNat
          searchWide chain data pos limit maxLen left following best

def findWide (chain : HashChain) (data : Bytes) (pos : Nat) : Result (Option (Nat × Nat)) :=
  if pos + minMatch > data.length then .ok none else do
    let h ← hash4 data pos
    let limit := if pos > maxDist then pos - maxDist else 0
    let maxLen := min (data.length - pos) maxMatch
    let cur ← Outcome.index chain.head h
    let (bestLen, bestDist) ← searchWide chain data pos limit maxLen chain.maxDepth cur (minMatch - 1, 0)
    if bestLen ≥ minMatch then .ok (some (bestDist, bestLen)) else .ok none

theorem searchNarrows (chain : HashChain) (data : Bytes) (pos limit maxLen left : Nat) (cur : UInt32)
    (best : Nat × Nat) :
    search chain data pos limit maxLen left cur best.1 (UInt16.ofNat best.2) =
      (searchWide chain data pos limit maxLen left cur best >>= fun m => .ok (m.1, UInt16.ofNat m.2)) := by
  induction left generalizing cur best with
  | zero => rfl
  | succ left ih =>
    rw [search, searchWide]
    by_cases last : cur = u32Max
    · simp only [if_pos last, Outcome.okBind]
    by_cases far : cur.toNat < limit
    · simp only [if_neg last, if_pos far, Outcome.okBind]
    simp only [if_neg last, if_neg far, bind_assoc]
    congr 1
    funext dist
    by_cases self : dist = 0
    · simp only [if_pos self, ih, bind_assoc]
    simp only [if_neg self, bind_assoc]
    congr 1
    funext len
    by_cases better : len > best.1
    · by_cases full : len = maxMatch
      · simp only [if_pos better, if_pos full, Outcome.okBind]
      · simp only [if_pos better, if_neg full, ← ih, bind_assoc]
    · simp only [if_neg better, ih, bind_assoc]

def narrow (found : Nat × Nat) : UInt16 × UInt16 := (UInt16.ofNat found.1, UInt16.ofNat found.2)

theorem findNarrows (chain : HashChain) (data : Bytes) (pos : Nat) :
    chain.findLongestMatchForward data pos = (findWide chain data pos >>= fun found => .ok (found.map narrow)) := by
  unfold findLongestMatchForward findWide
  by_cases tail : pos + minMatch > data.length
  · rw [if_pos tail, if_pos tail]
    rfl
  rw [if_neg tail, if_neg tail]
  simp only [bind_assoc]
  congr 1
  funext h
  congr 1
  funext cur
  have same := searchNarrows chain data pos (if pos > maxDist then pos - maxDist else 0)
    (min (data.length - pos) maxMatch) chain.maxDepth cur (minMatch - 1, 0)
  have zero : UInt16.ofNat 0 = 0 := rfl
  rw [zero] at same
  rw [same, bind_assoc]
  congr 1
  funext best
  by_cases enough : best.1 ≥ minMatch
  · simp only [Outcome.okBind, if_pos enough, Option.map_some, narrow]
  · simp only [Outcome.okBind, if_neg enough, Option.map_none]

theorem matchLengthBounded {data : Bytes} {pos cur left len stop : Nat}
    (run : matchLength data pos cur left len = .ok stop) : stop ≤ len + left := by
  induction left generalizing len with
  | zero => exact Nat.le_of_eq (Outcome.ok.inj run).symm
  | succ left ih =>
    rw [matchLength, Outcome.bindOk] at run
    obtain ⟨a, _, run⟩ := run
    rw [Outcome.bindOk] at run
    obtain ⟨b, _, run⟩ := run
    split at run
    · have bound := ih run
      omega
    · rw [← Outcome.ok.inj run]
      exact Nat.le_add_right _ _

def Fits (best : Nat × Nat) : Prop := best.1 ≤ maxMatch ∧ best.2 ≤ maxDist

theorem searchWideFits {chain : HashChain} {data : Bytes} {pos limit maxLen left : Nat} {cur : UInt32}
    {best last : Nat × Nat} (capped : maxLen ≤ maxMatch) (close : pos ≤ limit + maxDist) (fits : Fits best)
    (run : searchWide chain data pos limit maxLen left cur best = .ok last) : Fits last := by
  induction left generalizing cur best with
  | zero =>
    cases Outcome.ok.inj run
    exact fits
  | succ left ih =>
    rw [searchWide] at run
    split at run
    · cases Outcome.ok.inj run
      exact fits
    split at run
    · cases Outcome.ok.inj run
      exact fits
    rename_i inWindow
    rw [Outcome.bindOk] at run
    obtain ⟨dist, behind, run⟩ := run
    obtain ⟨_, rfl⟩ := Outcome.subOk.mp behind
    split at run
    · rw [Outcome.bindOk] at run
      obtain ⟨following, _, run⟩ := run
      exact ih fits run
    rw [Outcome.bindOk] at run
    obtain ⟨len, counted, run⟩ := run
    have short := matchLengthBounded counted
    have better : Fits (len, pos - cur.toNat) := ⟨by omega, by simp only; omega⟩
    split at run
    · split at run
      · cases Outcome.ok.inj run
        exact better
      · rw [Outcome.bindOk] at run
        obtain ⟨following, _, run⟩ := run
        exact ih better run
    · rw [Outcome.bindOk] at run
      obtain ⟨following, _, run⟩ := run
      exact ih fits run

theorem findWideFits {chain : HashChain} {data : Bytes} {pos dist len : Nat}
    (run : findWide chain data pos = .ok (some (dist, len))) : dist ≤ maxDist ∧ len ≤ maxMatch := by
  unfold findWide at run
  split at run
  · cases Outcome.ok.inj run
  rw [hash4Bucket, Outcome.okBind, Outcome.bindOk] at run
  obtain ⟨cur, _, run⟩ := run
  rw [Outcome.bindOk] at run
  obtain ⟨best, searched, run⟩ := run
  have start : Fits (minMatch - 1, 0) := ⟨by decide, by decide⟩
  have fits := searchWideFits (Nat.min_le_right _ _) (by split <;> omega) start searched
  simp only at run
  split at run
  · obtain ⟨rfl, rfl⟩ := Prod.mk.inj (Option.some.inj (Outcome.ok.inj run))
    exact ⟨fits.2, fits.1⟩
  · cases Outcome.ok.inj run

def widen (found : UInt16 × UInt16) : Nat × Nat := (found.1.toNat, found.2.toNat)

theorem widenNarrow {found : Nat × Nat} (fits : found.1 ≤ maxDist ∧ found.2 ≤ maxMatch) :
    widen (narrow found) = found := by
  have first : found.1 < 65536 := Nat.lt_of_le_of_lt fits.1 (by decide)
  have second : found.2 < 65536 := Nat.lt_of_le_of_lt fits.2 (by decide)
  rw [narrow, widen, UInt16.toNat_ofNat_of_lt' first, UInt16.toNat_ofNat_of_lt' second]

theorem findKeeps {chain : HashChain} {data : Bytes} {pos : Nat} {found : Option (Nat × Nat)}
    (run : findWide chain data pos = .ok found) :
    ∃ cast, chain.findLongestMatchForward data pos = .ok cast ∧ cast.map widen = found := by
  refine ⟨found.map narrow, by rw [findNarrows, run, Outcome.okBind], ?_⟩
  cases found with
  | none => rfl
  | some m =>
    rw [Option.map_some, Option.map_some, widenNarrow (findWideFits run)]

end Openpresser.Lz.HashChain
