import Openpresser.CodeTable
import Openpresser.Library.CoinCollector

/-! `build`: the package-merge rounds are the levels of the library, so the code
lengths of a frequency table fill the code space and leave no used symbol out. -/
namespace Openpresser.Huffman
open PackageMerge (Alphabet Complete depth leaves levels packages weight)
open CanonicalCode (kraft)

/-! A round either overflows a weight or is the plain one. -/
theorem packagePairsCases (items : List Item) :
    packagePairs items = .ok (packages items) ∨ packagePairs items = .panic := by
  induction items using packagePairs.induct with
  | case1 => exact .inl rfl
  | case2 x => exact .inl rfl
  | case3 x y rest ih =>
    rw [packagePairs, packages]
    by_cases fits : x.1 + y.1 < 2 ^ 64
    · rw [Outcome.addFits fits, Outcome.okBind]
      rcases ih with run | run
      · exact .inl (by rw [run, Outcome.okBind])
      · exact .inr (by rw [run, Outcome.panicBind])
    · exact .inr (by rw [Outcome.add, if_neg fits, Outcome.panicBind])

theorem packagePairsFits {items : List Item} (small : weight (packages items) < 2 ^ 64) :
    packagePairs items = .ok (packages items) := by
  induction items using packagePairs.induct with
  | case1 => rfl
  | case2 x => rfl
  | case3 x y rest ih =>
    simp only [weight, packages, List.map_cons, List.sum_cons] at small ih
    rw [packagePairs, packages, Outcome.addFits (by omega), Outcome.okBind, ih (by omega), Outcome.okBind]

theorem mergeRoundsCases (items : List Item) (k j : Nat) :
    mergeRounds items k (levels items j) = .ok (levels items (j + k)) ∨
      mergeRounds items k (levels items j) = .panic := by
  induction k generalizing j with
  | zero => exact .inl rfl
  | succ k ih =>
    rw [mergeRounds]
    rcases packagePairsCases (levels items j) with run | run
    · rw [run, Outcome.okBind, Nat.add_comm k 1, ← Nat.add_assoc]
      exact ih (j + 1)
    · exact .inr (by rw [run, Outcome.panicBind])

theorem mergeRoundsFits (items : List Item) (k j : Nat)
    (small : ∀ i, weight (packages (levels items i)) < 2 ^ 64) :
    mergeRounds items k (levels items j) = .ok (levels items (j + k)) := by
  induction k generalizing j with
  | zero => rfl
  | succ k ih =>
    rw [mergeRounds, packagePairsFits (small j), Outcome.okBind, Nat.add_comm k 1, ← Nat.add_assoc]
    exact ih (j + 1)

theorem levelsOne (items : List Item) : levels items 1 = items := by simp [levels, packages]

/-! Counting. -/
theorem countSymbolCounts {alphabet : Nat} {counts : Array Nat} {done : List Nat} (sym : Nat)
    (size : counts.size = alphabet) (counted : ∀ s < alphabet, counts[s]? = some (done.count s))
    (small : done.count sym < 255) :
    ∃ counts', countSymbol alphabet counts sym = .ok counts' ∧ counts'.size = alphabet ∧
      ∀ s < alphabet, counts'[s]? = some ((done ++ [sym]).count s) := by
  unfold countSymbol
  by_cases inside : sym < alphabet
  · refine ⟨counts.setIfInBounds sym (done.count sym + 1), ?_, by simpa using size, ?_⟩
    · rw [if_pos inside, Outcome.indexOk.mpr (counted sym inside), Outcome.okBind,
        Outcome.addFits (by omega), Outcome.okBind, Outcome.storeInside _ (size ▸ inside)]
    · intro s bound
      by_cases same : sym = s
      · rw [← same, Array.getElem?_setIfInBounds_self_of_lt (size ▸ inside), List.count_append]
        simp
      · rw [Array.getElem?_setIfInBounds_ne same, counted s bound, List.count_append]
        simp [same]
  · refine ⟨counts, if_neg inside, size, fun s bound => ?_⟩
    have other : sym ≠ s := by omega
    rw [counted s bound, List.count_append]
    simp [other]

theorem countSymbolsCount (alphabet : Nat) (syms : List Nat) (small : ∀ s, syms.count s ≤ 255) :
    ∃ counts, syms.foldlM (countSymbol alphabet) (Array.replicate alphabet 0) = .ok counts ∧
      counts.size = alphabet ∧ ∀ s < alphabet, counts[s]? = some (syms.count s) := by
  refine Outcome.foldlMInvariant (I := fun done counts =>
    Array.size counts = alphabet ∧ ∀ s < alphabet, counts[s]? = some (List.count s done)) syms
    ⟨Array.size_replicate, fun s bound => by rw [Array.getElem?_replicate, if_pos bound]; rfl⟩ ?_
  rintro done sym rest counts split ⟨size, counted⟩
  have total := small sym
  rw [split, List.count_append, List.count_cons_self] at total
  exact countSymbolCounts sym size counted (by omega)

/-! The length map. -/
def sortedSymbols (symbols : List (Nat × Nat)) : List (Nat × Nat) :=
  symbols.insertionSort (fun a b => a.1 ≤ b.1)

instance lighterTotal : Std.Total (fun a b : Nat × Nat => a.1 ≤ b.1) := ⟨fun a b => Nat.le_total a.1 b.1⟩
instance lighterTrans : IsTrans (Nat × Nat) (fun a b => a.1 ≤ b.1) := ⟨fun _ _ _ => Nat.le_trans⟩

theorem sortedSymbolsPerm (symbols : List (Nat × Nat)) : (sortedSymbols symbols).Perm symbols :=
  List.perm_insertionSort _ _

theorem sortedAlphabet {symbols : List (Nat × Nat)} (distinct : (symbols.map Prod.snd).Nodup) :
    Alphabet (sortedSymbols symbols) where
  sorted := List.pairwise_insertionSort _ _
  distinct := ((sortedSymbolsPerm symbols).map Prod.snd).nodup_iff.mpr distinct

def codeLength (symbols : List (Nat × Nat)) (s : Nat) : Nat :=
  depth (sortedSymbols symbols) maxCodeLen (2 * symbols.length - 2) s

structure LengthsOf (symbols : List (Nat × Nat)) (alphabet : Nat) (lengthsMap : List Nat) : Prop where
  length : lengthsMap.length = alphabet
  value : ∀ s < alphabet, lengthsMap[s]? = some (codeLength symbols s)

theorem sortedComplete {symbols : List (Nat × Nat)} (distinct : (symbols.map Prod.snd).Nodup)
    (two : 2 ≤ symbols.length) (room : symbols.length ≤ 2 ^ maxCodeLen) :
    Complete (sortedSymbols symbols) maxCodeLen := by
  have size := (sortedSymbolsPerm symbols).length_eq
  exact PackageMerge.packageMergeComplete (sortedAlphabet distinct) (by omega) (by omega)

theorem packageMergeLengths {symbols : List (Nat × Nat)} {alphabet : Nat} {items : List Item}
    (distinct : (symbols.map Prod.snd).Nodup) (two : 2 ≤ symbols.length)
    (room : symbols.length ≤ 2 ^ maxCodeLen)
    (rounds : mergeRounds (leaves (sortedSymbols symbols)) 14 (leaves (sortedSymbols symbols)) = .ok items)
    (plain : items = levels (leaves (sortedSymbols symbols)) maxCodeLen) :
    ∃ lengthsMap, packageMerge symbols alphabet maxCodeLen = .ok lengthsMap ∧
      LengthsOf symbols alphabet lengthsMap := by
  have complete := sortedComplete distinct two room
  have size := (sortedSymbolsPerm symbols).length_eq
  have enough := complete.enough
  have shallow (s : Nat) : codeLength symbols s ≤ 15 := by
    have h := complete.shallow s
    rwa [size] at h
  obtain ⟨counts, run, length, counted⟩ := countSymbolsCount alphabet
    (PackageMerge.syms (items.take (2 * symbols.length - 2))) (by
      intro s
      have h := shallow s
      rw [codeLength, depth, ← plain] at h
      omega)
  refine ⟨counts.toList, ?_, by simpa using length, ?_⟩
  · have take : min (2 * (sortedSymbols symbols).length - 2) items.length = 2 * symbols.length - 2 := by
      rw [plain]; omega
    change (mergeRounds (leaves (sortedSymbols symbols)) 14 (leaves (sortedSymbols symbols)) >>= fun items =>
      ((items.take (min (2 * (sortedSymbols symbols).length - 2) items.length)).flatMap Prod.snd).foldlM
        (countSymbol alphabet) (Array.replicate alphabet 0) >>= fun counts => .ok counts.toList) = _
    rw [rounds, Outcome.okBind, take]
    rw [PackageMerge.syms] at run
    rw [run, Outcome.okBind]
  · intro s bound
    rw [Array.getElem?_toList, counted s bound, codeLength, depth, plain]

theorem packageMergeCases {symbols : List (Nat × Nat)} (alphabet : Nat)
    (distinct : (symbols.map Prod.snd).Nodup) (two : 2 ≤ symbols.length)
    (room : symbols.length ≤ 2 ^ maxCodeLen) :
    (∃ lengthsMap, packageMerge symbols alphabet maxCodeLen = .ok lengthsMap ∧
      LengthsOf symbols alphabet lengthsMap) ∨ packageMerge symbols alphabet maxCodeLen = .panic := by
  have cases := mergeRoundsCases (leaves (sortedSymbols symbols)) 14 1
  rw [levelsOne] at cases
  rcases cases with run | run
  · exact .inl (packageMergeLengths distinct two room run rfl)
  · refine .inr ?_
    change (mergeRounds (leaves (sortedSymbols symbols)) 14 (leaves (sortedSymbols symbols)) >>= _) = _
    rw [run, Outcome.panicBind]

/-- With at most `2 ^ t` symbols no weight exceeds `t` times the total. -/
theorem packageMergeFits {symbols : List (Nat × Nat)} (alphabet : Nat) {t : Nat}
    (distinct : (symbols.map Prod.snd).Nodup) (two : 2 ≤ symbols.length)
    (room : symbols.length ≤ 2 ^ maxCodeLen) (few : symbols.length ≤ 2 ^ t)
    (small : t * (symbols.map Prod.fst).sum < 2 ^ 64) :
    ∃ lengthsMap, packageMerge symbols alphabet maxCodeLen = .ok lengthsMap ∧
      LengthsOf symbols alphabet lengthsMap := by
  have size := (sortedSymbolsPerm symbols).length_eq
  have weights : weight (leaves (sortedSymbols symbols)) = (symbols.map Prod.fst).sum := by
    rw [PackageMerge.leavesWeight, ((sortedSymbolsPerm symbols).map Prod.fst).sum_eq]
  have ascending : PackageMerge.Ascending (leaves (sortedSymbols symbols)) :=
    List.pairwise_map.mpr ((sortedAlphabet distinct).sorted.imp fun h => h)
  have bounded (i : Nat) : weight (packages (levels (leaves (sortedSymbols symbols)) i)) < 2 ^ 64 := by
    have total := PackageMerge.packagesTotal ascending i (t := t) (by rw [size]; exact few)
    rw [weights] at total
    exact Nat.lt_of_le_of_lt total small
  have run := mergeRoundsFits (leaves (sortedSymbols symbols)) 14 1 bounded
  rw [levelsOne] at run
  exact packageMergeLengths distinct two room run rfl

theorem lengthsPresent {symbols : List (Nat × Nat)} {alphabet : Nat} {lengthsMap : List Nat}
    (distinct : (symbols.map Prod.snd).Nodup) (two : 2 ≤ symbols.length)
    (room : symbols.length ≤ 2 ^ maxCodeLen) (inside : ∀ s ∈ symbols.map Prod.snd, s < alphabet)
    (small : alphabet ≤ 65536) (lengths : LengthsOf symbols alphabet lengthsMap) :
    (present lengthsMap).Perm ((symbols.map Prod.snd).map (fun s => (s, codeLength symbols s))) := by
  have complete := sortedComplete distinct two room
  have size := (sortedSymbolsPerm symbols).length_eq
  have used (s : Nat) : 0 < codeLength symbols s ↔ s ∈ symbols.map Prod.snd := by
    have h := complete.used s
    rw [size] at h
    exact h.trans ((sortedSymbolsPerm symbols).map Prod.snd).mem_iff
  refine (List.perm_ext_iff_of_nodup ?_ ?_).mpr ?_
  · exact (presentDistinct (lengths.length ▸ small)).of_map
  · exact distinct.map (fun s t same => (Prod.mk.inj same).1)
  · rintro ⟨s, l⟩
    rw [presentMember (lengths.length ▸ small), List.mem_map]
    constructor
    · rintro ⟨positive, found⟩
      have bound := (List.getElem?_eq_some_iff.mp found).1
      rw [lengths.length] at bound
      obtain rfl : codeLength symbols s = l := Option.some.inj ((lengths.value s bound).symm.trans found)
      exact ⟨s, (used s).mp positive, rfl⟩
    · rintro ⟨t, member, same⟩
      obtain ⟨rfl, rfl⟩ := Prod.mk.inj same
      exact ⟨(used t).mpr member, lengths.value t (inside t member)⟩

theorem mergedValid {symbols : List (Nat × Nat)} {alphabet : Nat} {lengthsMap : List Nat}
    (distinct : (symbols.map Prod.snd).Nodup) (two : 2 ≤ symbols.length)
    (room : symbols.length ≤ 2 ^ maxCodeLen) (inside : ∀ s ∈ symbols.map Prod.snd, s < alphabet)
    (small : alphabet ≤ 65536) (lengths : LengthsOf symbols alphabet lengthsMap) :
    ValidMap lengthsMap ∧ kraft maxCodeLen (present lengthsMap) = 2 ^ maxCodeLen := by
  have complete := sortedComplete distinct two room
  have order := (sortedSymbolsPerm symbols).map Prod.snd
  have size := (sortedSymbolsPerm symbols).length_eq
  have full : kraft maxCodeLen (present lengthsMap) = 2 ^ maxCodeLen := by
    have h := complete.kraft
    rw [(order.map _).sum_eq, size] at h
    rw [CanonicalCode.kraftPerm maxCodeLen (lengthsPresent distinct two room inside small lengths),
      CanonicalCode.kraft, List.map_map]
    exact h
  refine ⟨⟨by rw [lengths.length]; exact small, ?_, Nat.le_of_eq full⟩, full⟩
  intro l member
  obtain ⟨s, bound, rfl⟩ := List.getElem_of_mem member
  have value := lengths.value s (lengths.length ▸ bound)
  rw [List.getElem?_eq_getElem bound] at value
  rw [Option.some.inj value]
  have h := complete.shallow s
  rwa [size] at h

/-! The alphabet of a frequency table: what occurs, and the end-of-block symbol, which counts as one when it does not. -/
def alphabetOf (freqs : List Nat) : List Nat :=
  (List.range (max freqs.length (eob + 1))).filter (fun s => s = eob ∨ 0 < freqs.getD s 0)

def frequency (freqs : List Nat) (s : Nat) : Nat :=
  if s = eob then max 1 (freqs.getD s 0) else freqs.getD s 0

theorem occursFound {freqs : List Nat} {s f : Nat} :
    0 < f ∧ freqs[s]? = some f ↔ 0 < freqs.getD s 0 ∧ f = freqs.getD s 0 := by
  rw [List.getD_eq_getElem?_getD]
  cases freqs[s]? with
  | none => simp
  | some g =>
    rw [Option.getD_some, Option.some.injEq]
    constructor
    · rintro ⟨positive, rfl⟩
      exact ⟨positive, rfl⟩
    · rintro ⟨positive, rfl⟩
      exact ⟨positive, rfl⟩

theorem alphabetMember {freqs : List Nat} {s : Nat} :
    s ∈ alphabetOf freqs ↔ s = eob ∨ 0 < freqs.getD s 0 := by
  rw [alphabetOf, List.mem_filter, List.mem_range, decide_eq_true_eq]
  refine ⟨And.right, fun here => ⟨?_, here⟩⟩
  rcases here with rfl | occurs
  · exact Nat.lt_of_lt_of_le (Nat.lt_succ_self eob) (Nat.le_max_right _ _)
  · have inside := (List.getElem?_eq_some_iff.mp (occursFound.mpr ⟨occurs, rfl⟩).2).1
    exact Nat.lt_of_lt_of_le inside (Nat.le_max_left _ _)

theorem alphabetDistinct (freqs : List Nat) : (alphabetOf freqs).Nodup := List.nodup_range.filter _

theorem endsSilent (freqs : List Nat) : (eob ≥ freqs.length ∨ freqs[eob]? = some 0) ↔ freqs.getD eob 0 = 0 := by
  rw [List.getD_eq_getElem?_getD, ge_iff_le, ← List.getElem?_eq_none_iff]
  cases freqs[eob]? <;> simp

theorem usedEntry {freqs : List Nat} (small : freqs.length ≤ 65536) {f s : Nat} :
    (f, s) ∈ usedSymbols freqs ↔ s ∈ alphabetOf freqs ∧ f = frequency freqs s := by
  have swapped : (f, s) ∈ (present freqs).map Prod.swap ↔ 0 < freqs.getD s 0 ∧ f = freqs.getD s 0 := by
    rw [← occursFound, ← presentMember small, List.mem_map]
    exact ⟨fun ⟨p, member, same⟩ => by rwa [← Prod.swap_swap p, same] at member, fun member => ⟨(s, f), member, rfl⟩⟩
  have symbols : usedSymbols freqs = if eob ≥ freqs.length ∨ freqs[eob]? = some 0 then
      (present freqs).map Prod.swap ++ [(1, eob)] else (present freqs).map Prod.swap := by
    rw [present, List.map_map]
    rfl
  rw [symbols, alphabetMember, frequency]
  by_cases silent : freqs.getD eob 0 = 0
  · rw [if_pos ((endsSilent freqs).mpr silent), List.mem_append, swapped, List.mem_singleton, Prod.mk.injEq]
    by_cases ends : s = eob
    · rw [ends, silent]
      simp
    · simp [ends]
  · rw [if_neg fun c => silent ((endsSilent freqs).mp c), swapped]
    by_cases ends : s = eob
    · have positive := Nat.pos_of_ne_zero silent
      rw [ends, if_pos rfl, Nat.max_eq_right positive]
      exact ⟨fun found => ⟨.inl rfl, found.2⟩, fun found => ⟨positive, found.2⟩⟩
    · simp [ends]

theorem usedDistinct {freqs : List Nat} (small : freqs.length ≤ 65536) :
    ((usedSymbols freqs).map Prod.snd).Nodup := by
  have distinct := presentDistinct small
  have symbols : (usedSymbols freqs).map Prod.snd = if eob ≥ freqs.length ∨ freqs[eob]? = some 0 then
      (present freqs).map Prod.fst ++ [eob] else (present freqs).map Prod.fst := by
    rw [usedSymbols, apply_ite (List.map Prod.snd), List.map_append, List.map_map, present, List.map_map]
    rfl
  rw [symbols]
  split
  · rename_i silent
    refine List.nodup_append.mpr ⟨distinct, List.nodup_singleton _, ?_⟩
    rintro s member t last rfl
    obtain ⟨⟨s, f⟩, inside, rfl⟩ := List.mem_map.mp member
    obtain rfl : s = eob := List.mem_singleton.mp last
    have occurs := (occursFound.mp ((presentMember small).mp inside)).1
    rw [(endsSilent freqs).mp silent] at occurs
    exact Nat.lt_irrefl 0 occurs
  · exact distinct

theorem usedPerm {freqs : List Nat} (small : freqs.length ≤ 65536) :
    (usedSymbols freqs).Perm ((alphabetOf freqs).map (fun s => (frequency freqs s, s))) := by
  refine (List.perm_ext_iff_of_nodup (usedDistinct small).of_map ?_).mpr ?_
  · exact (alphabetDistinct freqs).map fun s t same => (Prod.mk.inj same).2
  · rintro ⟨f, s⟩
    rw [usedEntry small, List.mem_map]
    constructor
    · rintro ⟨member, rfl⟩
      exact ⟨s, member, rfl⟩
    · rintro ⟨t, member, same⟩
      obtain ⟨rfl, rfl⟩ := Prod.mk.inj same
      exact ⟨member, rfl⟩

theorem usedAlphabet {freqs : List Nat} (small : freqs.length ≤ 65536) :
    ((usedSymbols freqs).map Prod.snd).Perm (alphabetOf freqs) := by
  have perm := (usedPerm small).map Prod.snd
  rwa [List.map_map, Function.comp_def, List.map_id''] at perm
  exact fun _ => rfl

theorem usedInside {freqs : List Nat} (small : freqs.length ≤ 65536) :
    ∀ s ∈ (usedSymbols freqs).map Prod.snd, s < max freqs.length (eob + 1) := by
  intro s member
  exact List.mem_range.mp (List.mem_filter.mp ((usedAlphabet small).mem_iff.mp member)).1

theorem usedCount {freqs : List Nat} (small : freqs.length ≤ 65536) :
    (usedSymbols freqs).length = (alphabetOf freqs).length := by
  rw [← (usedAlphabet small).length_eq, List.length_map]

theorem usedTotal (freqs : List Nat) : ((usedSymbols freqs).map Prod.fst).sum ≤ freqs.sum + 1 := by
  have occurring : ((freqs.zipIdx.filter (fun p => p.1 > 0)).map (fun p => (p.1, p.2 % 65536))).map Prod.fst =
      (freqs.zipIdx.filter (fun p => p.1 > 0)).map Prod.fst := by
    rw [List.map_map]
    rfl
  have kept : ((freqs.zipIdx.filter (fun p => p.1 > 0)).map Prod.fst).sum ≤ freqs.sum := by
    have sub : ((freqs.zipIdx.filter (fun p => p.1 > 0)).map Prod.fst).Sublist (freqs.zipIdx.map Prod.fst) :=
      List.filter_sublist.map _
    rw [List.zipIdx_map_fst] at sub
    exact sub.sum_le_sum fun _ _ => Nat.zero_le _
  rw [usedSymbols]
  split
  · rw [List.map_append, List.sum_append, occurring]
    exact Nat.add_le_add_right kept 1
  · rw [occurring]
    exact Nat.le_succ_of_le kept

theorem buildMerges {freqs : List Nat} (two : 2 ≤ (usedSymbols freqs).length) :
    build freqs = packageMerge (usedSymbols freqs) (max freqs.length (eob + 1)) maxCodeLen >>= fromLengths := by
  have filled : (freqs.zipIdx.filter (fun p => p.1 > 0)) ≠ [] := by
    intro nothing
    rw [usedSymbols, nothing] at two
    split at two <;> simp at two
  rw [build, if_neg filled]
  generalize usedSymbols freqs = symbols at two
  rcases symbols with _ | ⟨first, _ | ⟨second, rest⟩⟩
  · simp at two
  · simp at two
  · rfl

/-! Frequency tables whose end-of-block symbol occurs. -/
structure Frequencies (freqs : List Nat) : Prop where
  length : freqs.length = eob + 1
  ends : ∃ f, 0 < f ∧ freqs[eob]? = some f

theorem frequenciesSmall {freqs : List Nat} (frequencies : Frequencies freqs) : freqs.length ≤ 65536 := by
  rw [frequencies.length]
  decide

theorem usedMember {freqs : List Nat} (frequencies : Frequencies freqs) {s : Nat} :
    s ∈ (usedSymbols freqs).map Prod.snd ↔ ∃ f, 0 < f ∧ freqs[s]? = some f := by
  rw [(usedAlphabet (frequenciesSmall frequencies)).mem_iff, alphabetMember]
  obtain ⟨g, ends⟩ := frequencies.ends
  constructor
  · rintro (rfl | occurs)
    · exact ⟨g, ends⟩
    · exact ⟨_, occursFound.mpr ⟨occurs, rfl⟩⟩
  · rintro ⟨f, found⟩
    exact .inr (occursFound.mp found).1

theorem usedRoom {freqs : List Nat} (frequencies : Frequencies freqs) :
    (usedSymbols freqs).length ≤ eob + 1 := by
  rw [usedCount (frequenciesSmall frequencies), alphabetOf, frequencies.length, Nat.max_self]
  exact Nat.le_trans (List.length_filter_le _ _) (by rw [List.length_range])

structure Built (freqs lengthsMap : List Nat) : Prop where
  valid : ValidMap lengthsMap
  length : lengthsMap.length = eob + 1
  used : ((present lengthsMap).map Prod.fst).Perm ((usedSymbols freqs).map Prod.snd)
  full : 2 ≤ (usedSymbols freqs).length → kraft maxCodeLen (present lengthsMap) = 2 ^ maxCodeLen

theorem builtSole {freqs : List Nat} (sole : (usedSymbols freqs).map Prod.snd = [eob]) :
    Built freqs (soleLengths eob) := by
  have small : eob < 65536 := by decide
  have single := congrArg List.length sole
  rw [List.length_map] at single
  refine ⟨soleValid small, soleLength eob, ?_, fun two => ?_⟩
  · rw [solePresent small, sole]
    exact .refl _
  · rw [single] at two
    exact absurd two (by decide)

theorem builtLengths {freqs lengthsMap : List Nat} (frequencies : Frequencies freqs)
    (two : 2 ≤ (usedSymbols freqs).length) (lengths : LengthsOf (usedSymbols freqs) (eob + 1) lengthsMap) :
    Built freqs lengthsMap := by
  have small := frequenciesSmall frequencies
  have distinct := usedDistinct small
  have room : (usedSymbols freqs).length ≤ 2 ^ maxCodeLen :=
    Nat.le_trans (usedRoom frequencies) (by decide)
  have inside := usedInside small
  rw [frequencies.length, Nat.max_self] at inside
  obtain ⟨valid, full⟩ := mergedValid distinct two room inside (by decide) lengths
  refine ⟨valid, lengths.length, ?_, fun _ => full⟩
  have perm := (lengthsPresent distinct two room inside (by decide) lengths).map Prod.fst
  rwa [List.map_map, Function.comp_def, List.map_id''] at perm
  exact fun _ => rfl

theorem buildSplit {freqs : List Nat} (frequencies : Frequencies freqs) :
    ((usedSymbols freqs).map Prod.snd = [eob] ∧ build freqs = fromLengths (soleLengths eob)) ∨
    (2 ≤ (usedSymbols freqs).length ∧
      build freqs = packageMerge (usedSymbols freqs) (eob + 1) maxCodeLen >>= fromLengths) := by
  have ends := (usedMember frequencies).mpr frequencies.ends
  have whole : max freqs.length (eob + 1) = eob + 1 := by rw [frequencies.length, Nat.max_self]
  by_cases two : 2 ≤ (usedSymbols freqs).length
  · have run := buildMerges two
    rw [whole] at run
    exact .inr ⟨two, run⟩
  · have filled : (freqs.zipIdx.filter (fun p => p.1 > 0)) ≠ [] := by
      intro nothing
      obtain ⟨f, positive, found⟩ := frequencies.ends
      have member : (f, eob) ∈ freqs.zipIdx.filter (fun p => p.1 > 0) :=
        List.mem_filter.mpr ⟨List.mem_zipIdx_iff_getElem?.mpr found, by simpa using positive⟩
      rw [nothing] at member
      contradiction
    rw [build, if_neg filled]
    generalize usedSymbols freqs = symbols at ends two
    rcases symbols with _ | ⟨⟨f, sym⟩, _ | ⟨other, rest⟩⟩
    · simp at ends
    · obtain rfl : eob = sym := by simpa using ends
      refine .inl ⟨rfl, ?_⟩
      change (Outcome.ok ((List.replicate (max freqs.length (eob + 1)) 0).set eob 1) >>= fromLengths) = _
      rw [Outcome.okBind, whole, soleLengths]
    · simp at two

theorem buildCases {freqs : List Nat} (frequencies : Frequencies freqs) :
    (∃ table lengthsMap, build freqs = .ok table ∧ Built freqs lengthsMap ∧
      TableFor table (sortedLengths lengthsMap)) ∨ build freqs = .panic := by
  rcases buildSplit frequencies with ⟨sole, run⟩ | ⟨two, run⟩
  · have built := builtSole sole
    obtain ⟨table, made, tableFor⟩ := fromLengthsTable built.valid
    exact .inl ⟨table, soleLengths eob, run.trans made, built, tableFor⟩
  · rcases packageMergeCases (eob + 1) (usedDistinct (frequenciesSmall frequencies)) two
      (Nat.le_trans (usedRoom frequencies) (by decide)) with ⟨lengthsMap, merged, lengths⟩ | overflow
    · have built := builtLengths frequencies two lengths
      obtain ⟨table, made, tableFor⟩ := fromLengthsTable built.valid
      exact .inl ⟨table, lengthsMap, by rw [run, merged, Outcome.okBind, made], built, tableFor⟩
    · exact .inr (by rw [run, overflow, Outcome.panicBind])

theorem buildFits {freqs : List Nat} (frequencies : Frequencies freqs) (small : 10 * (freqs.sum + 1) < 2 ^ 64) :
    ∃ table lengthsMap, build freqs = .ok table ∧ Built freqs lengthsMap ∧
      TableFor table (sortedLengths lengthsMap) := by
  rcases buildSplit frequencies with ⟨sole, run⟩ | ⟨two, run⟩
  · have built := builtSole sole
    obtain ⟨table, made, tableFor⟩ := fromLengthsTable built.valid
    exact ⟨table, soleLengths eob, run.trans made, built, tableFor⟩
  · have room := usedRoom frequencies
    have total := usedTotal freqs
    obtain ⟨lengthsMap, merged, lengths⟩ := packageMergeFits (eob + 1) (t := 10)
      (usedDistinct (frequenciesSmall frequencies)) two (Nat.le_trans room (by decide))
      (Nat.le_trans room (by decide)) (by omega)
    have built := builtLengths frequencies two lengths
    obtain ⟨table, made, tableFor⟩ := fromLengthsTable built.valid
    exact ⟨table, lengthsMap, by rw [run, merged, Outcome.okBind, made], built, tableFor⟩

end Openpresser.Huffman
