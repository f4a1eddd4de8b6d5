import Openpresser.Lz
import Openpresser.Library.Lz77

/-! The chain walk on any data and any depth. Links only ever lead to smaller
positions, so the subtraction and every index are in range, also after stored
positions have wrapped. -/
namespace Openpresser.Lz.HashChain

def bucket (data : Bytes) (pos : Nat) : Nat :=
  if pos + 4 > data.length then 0 else
    ((UInt32.ofNat (LittleEndian.decode ((data.drop pos).take 4)) * 0x9E3779B9) >>> 16).toNat &&& (hashSize - 1)

theorem hash4Bucket (data : Bytes) (pos : Nat) : hash4 data pos = .ok (bucket data pos) := by
  unfold hash4 bucket
  split
  · rfl
  · rw [Outcome.sliceInside (by omega) (by omega), Nat.add_sub_cancel_left, Outcome.okBind]

theorem bucketBound (data : Bytes) (pos : Nat) : bucket data pos < hashSize := by
  unfold bucket
  split
  · decide
  · exact Nat.lt_of_le_of_lt Nat.and_le_right (by decide)

structure Ordered (chain : HashChain) (size top : Nat) : Prop where
  headSize : chain.head.size = hashSize
  nextSize : size ≤ chain.next.size
  heads : ∀ (h : Nat) (p : UInt32), chain.head[h]? = some p → p ≠ u32Max → p.toNat < top
  links : ∀ (j : Nat) (p : UInt32), chain.next[j]? = some p → p ≠ u32Max → p.toNat < j

theorem newOrdered (dataLen maxDepth : Nat) : Ordered (new dataLen maxDepth) dataLen 0 where
  headSize := Array.size_replicate
  nextSize := by simp [new]
  heads := by
    intro h p found real
    rw [new, Array.getElem?_replicate] at found
    split at found <;> simp_all
  links := by
    intro j p found real
    rw [new, Array.getElem?_replicate] at found
    split at found <;> simp_all

theorem orderedHigher {chain : HashChain} {size top higher : Nat} (h : Ordered chain size top)
    (le : top ≤ higher) : Ordered chain size higher :=
  ⟨h.headSize, h.nextSize, fun b p found real => Nat.lt_of_lt_of_le (h.heads b p found real) le, h.links⟩

theorem storedBound (pos : Nat) : (UInt32.ofNat pos).toNat ≤ pos := by
  rw [UInt32.toNat_ofNat']; exact Nat.mod_le _ _

theorem insertOrdered {chain : HashChain} {data : Bytes} {top : Nat} (pos : Nat)
    (h : Ordered chain data.length top) (above : top ≤ pos) (inside : pos < data.length) :
    ∃ chain', chain.insert data pos = .ok chain' ∧ Ordered chain' data.length (pos + 1) ∧
      chain'.maxDepth = chain.maxDepth := by
  have slot : bucket data pos < chain.head.size := by rw [h.headSize]; exact bucketBound data pos
  have room : pos < chain.next.size := Nat.lt_of_lt_of_le inside h.nextSize
  refine ⟨⟨chain.head.setIfInBounds (bucket data pos) (UInt32.ofNat pos),
    chain.next.setIfInBounds pos chain.head[bucket data pos], chain.maxDepth⟩, ?_, ?_, rfl⟩
  · rw [insert, hash4Bucket, Outcome.okBind, Outcome.indexInside slot, Outcome.okBind,
      Outcome.storeInside _ room, Outcome.okBind, Outcome.storeInside _ slot, Outcome.okBind]
  · refine ⟨by simp [h.headSize], by simp [h.nextSize], ?_, ?_⟩
    · intro b p found real
      rw [Array.getElem?_setIfInBounds] at found
      split at found
      · cases Option.some.inj found
        exact Nat.lt_succ_of_le (storedBound pos)
      · exact Nat.lt_succ_of_lt (Nat.lt_of_lt_of_le (h.heads b p found real) above)
    · intro j p found real
      rw [Array.getElem?_setIfInBounds] at found
      split at found
      · rename_i same
        cases Option.some.inj found
        rw [← same]
        exact Nat.lt_of_lt_of_le (h.heads _ _ (Array.getElem?_eq_getElem slot) real) above
      · exact h.links j p found real

structure IsMatch (data : Bytes) (pos dist len : Nat) : Prop where
  repeats : Lz77.Repeats data pos dist len
  near : dist ≤ maxDist
  long : minMatch ≤ len
  short : len ≤ maxMatch

theorem matchLengthCounts (data : Bytes) {pos curPos : Nat} (left len : Nat) (behind : curPos ≤ pos)
    (inside : pos + len + left ≤ data.length) :
    ∃ stop, matchLength data pos curPos left len = .ok stop ∧ len ≤ stop ∧ stop ≤ len + left ∧
      ∀ i, len ≤ i → i < stop → data[pos + i]? = data[curPos + i]? := by
  induction left generalizing len with
  | zero => exact ⟨len, rfl, Nat.le_refl _, Nat.le_refl _, fun i low high => by omega⟩
  | succ left ih =>
    have ha : pos + len < data.length := by omega
    have hb : curPos + len < data.length := by omega
    rw [matchLength, Outcome.getInside ha, Outcome.okBind, Outcome.getInside hb, Outcome.okBind]
    by_cases equal : data[pos + len] = data[curPos + len]
    · obtain ⟨stop, found, low, high, same⟩ := ih (len + 1) (by omega)
      refine ⟨stop, by rw [if_pos equal]; exact found, by omega, by omega, ?_⟩
      intro i start finish
      by_cases first : i = len
      · rw [first, List.getElem?_eq_getElem ha, List.getElem?_eq_getElem hb, equal]
      · exact same i (by omega) finish
    · exact ⟨len, if_neg equal, Nat.le_refl _, by omega, fun i low high => by omega⟩

def Best (data : Bytes) (pos bestLen : Nat) (bestDist : UInt16) : Prop :=
  bestLen = minMatch - 1 ∨ IsMatch data pos bestDist.toNat bestLen

theorem longerIsBest {data : Bytes} {pos cur len bestLen : Nat} {bestDist : UInt16}
    (best : Best data pos bestLen bestDist) (behind : cur ≤ pos) (apart : pos - cur ≠ 0) (near : pos - cur ≤ maxDist)
    (better : bestLen < len) (short : len ≤ maxMatch) (inside : pos + len ≤ data.length)
    (same : ∀ i, i < len → data[pos + i]? = data[cur + i]?) :
    Best data pos len (UInt16.ofNat (pos - cur)) := by
  have number : (UInt16.ofNat (pos - cur)).toNat = pos - cur := by
    rw [UInt16.toNat_ofNat', Nat.mod_eq_of_lt (Nat.lt_of_le_of_lt near (by decide))]
  have long : minMatch ≤ len := by
    rcases best with initial | found
    · have three : minMatch - 1 = 3 := rfl
      have four : minMatch = 4 := rfl
      omega
    · exact Nat.le_trans found.long (Nat.le_of_lt better)
  refine .inr ⟨⟨by omega, by omega, by omega, ?_⟩, by omega, long, short⟩
  intro i below
  rw [number, Nat.sub_sub_self behind]
  exact same i below

theorem searchFinds {chain : HashChain} {data : Bytes} {pos : Nat} (limit maxLen left : Nat)
    {cur : UInt32} {bestLen : Nat} {bestDist : UInt16} (ordered : Ordered chain data.length (pos + 1))
    (reach : pos + maxLen ≤ data.length) (capped : maxLen ≤ maxMatch) (inside : pos < data.length)
    (near : pos ≤ limit + maxDist) (start : cur ≠ u32Max → cur.toNat ≤ pos)
    (best : Best data pos bestLen bestDist) :
    ∃ len dist, search chain data pos limit maxLen left cur bestLen bestDist = .ok (len, dist) ∧
      Best data pos len dist := by
  induction left generalizing cur bestLen bestDist with
  | zero => exact ⟨bestLen, bestDist, rfl, best⟩
  | succ left ih =>
    unfold search
    by_cases last : cur = u32Max
    · exact ⟨bestLen, bestDist, if_pos last, best⟩
    by_cases far : cur.toNat < limit
    · exact ⟨bestLen, bestDist, by rw [if_neg last, if_pos far], best⟩
    have behind := start last
    have slot : cur.toNat < chain.next.size := Nat.lt_of_lt_of_le (by omega) ordered.nextSize
    -- the link at `cur` leads below `cur`, hence to a position not above `pos`
    have onward : chain.next[cur.toNat] ≠ u32Max → chain.next[cur.toNat].toNat ≤ pos := by
      intro real
      have down := ordered.links _ _ (Array.getElem?_eq_getElem slot) real
      omega
    rw [if_neg last, if_neg far, Outcome.subFits behind, Outcome.okBind, Outcome.indexInside slot]
    by_cases self : pos - cur.toNat = 0
    · rw [if_pos self, Outcome.okBind]
      exact ih onward best
    rw [if_neg self]
    obtain ⟨len, counted, _, short, same⟩ := matchLengthCounts data maxLen 0 behind (by omega)
    rw [counted, Outcome.okBind]
    by_cases better : len > bestLen
    · have improved := longerIsBest best behind self (by omega) better (by omega) (by omega)
        fun i below => same i (Nat.zero_le i) (by omega)
      rw [if_pos better]
      by_cases full : len = maxMatch
      · exact ⟨_, _, if_pos full, improved⟩
      · rw [if_neg full, Outcome.okBind]
        exact ih onward improved
    · rw [if_neg better, Outcome.okBind]
      exact ih onward best

theorem findReturns {chain : HashChain} {data : Bytes} {pos : Nat}
    (ordered : Ordered chain data.length (pos + 1)) (inside : pos < data.length) :
    ∃ found, chain.findLongestMatchForward data pos = .ok found ∧
      ∀ dist len, found = some (dist, len) → IsMatch data pos dist.toNat len.toNat := by
  unfold findLongestMatchForward
  by_cases tail : pos + minMatch > data.length
  · exact ⟨none, if_pos tail, by simp⟩
  have slot : bucket data pos < chain.head.size := by rw [ordered.headSize]; exact bucketBound data pos
  have start : chain.head[bucket data pos] ≠ u32Max → chain.head[bucket data pos].toNat ≤ pos :=
    fun real => Nat.lt_succ_iff.mp (ordered.heads _ _ (Array.getElem?_eq_getElem slot) real)
  obtain ⟨len, dist, searched, best⟩ := searchFinds
    (if pos > maxDist then pos - maxDist else 0) (min (data.length - pos) maxMatch) chain.maxDepth ordered (by omega)
    (Nat.min_le_right _ _) inside (by split <;> omega) start (.inl rfl : Best data pos (minMatch - 1) 0)
  rw [if_neg tail, hash4Bucket, Outcome.okBind, Outcome.indexInside slot, Outcome.okBind, searched,
    Outcome.okBind]
  by_cases enough : len ≥ minMatch
  · refine ⟨some (dist, UInt16.ofNat len), by simp [enough], ?_⟩
    intro dist' len' same
    obtain ⟨rfl, rfl⟩ : dist = dist' ∧ UInt16.ofNat len = len' := by simpa using same
    rcases best with initial | real
    · have three : minMatch = 4 := rfl
      omega
    · have short : len ≤ 258 := real.short
      rwa [UInt16.toNat_ofNat', Nat.mod_eq_of_lt (by omega)]
  · exact ⟨none, by simp [enough], by simp⟩

end Openpresser.Lz.HashChain
