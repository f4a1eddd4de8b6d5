import Openpresser.CodeLengths
import Openpresser.Library.Exchange

/-! `build` on any frequency table with two symbols or more: a complete code within
the length limit, and no code within that limit costs less. -/
namespace Openpresser.Huffman

def lengthOf (table : HuffmanTable) (s : Nat) : Nat := ((table.encode[s]?).getD (0, 0)).2

structure Feasible (freqs : List Nat) (l : Nat → Nat) : Prop where
  bounded : ∀ s ∈ alphabetOf freqs, 1 ≤ l s ∧ l s ≤ maxCodeLen
  kraft : ((alphabetOf freqs).map (fun s => 2 ^ (maxCodeLen - l s))).sum ≤ 2 ^ maxCodeLen

def totalCost (freqs : List Nat) (l : Nat → Nat) : Nat :=
  ((alphabetOf freqs).map (fun s => frequency freqs s * l s)).sum

structure BuiltFrom (freqs : List Nat) (table : HuffmanTable) : Prop where
  run : build freqs = .ok table
  merged : ∃ lengthsMap,
    packageMerge (usedSymbols freqs) (max freqs.length (eob + 1)) maxCodeLen = .ok lengthsMap
  size : table.encode.size = max freqs.length (eob + 1)
  encoded : ∀ s < max freqs.length (eob + 1),
    ∃ code, table.encode[s]? = some (code, codeLength (usedSymbols freqs) s) ∧
      (codeLength (usedSymbols freqs) s = 0 → code = 0)

theorem builtFrom {freqs : List Nat} (few : freqs.length ≤ 65535) (two : 2 ≤ (alphabetOf freqs).length)
    (room : (alphabetOf freqs).length ≤ 2 ^ maxCodeLen) {table : HuffmanTable} (run : build freqs = .ok table) :
    BuiltFrom freqs table := by
  have small : freqs.length ≤ 65536 := Nat.le_succ_of_le few
  have alphabet : max freqs.length (eob + 1) ≤ 65536 := Nat.max_le.mpr ⟨small, by decide⟩
  rw [← usedCount small] at two room
  have distinct := usedDistinct small
  have parts := run
  rw [buildMerges two, Outcome.bindOk] at parts
  obtain ⟨lengthsMap, merged, made⟩ := parts
  rcases packageMergeCases (max freqs.length (eob + 1)) distinct two room with ⟨same, run', lengths⟩ | overflow
  · cases Outcome.ok.inj (merged.symm.trans run')
    have valid := (mergedValid distinct two room (usedInside small) alphabet lengths).1
    refine ⟨run, ⟨lengthsMap, merged⟩, ?_, ?_⟩
    · rw [fromLengthsSize made, lengths.length]
    · exact fun s bound => fromLengthsEncode valid made (lengths.value s bound)
  · rw [overflow] at merged
    contradiction

theorem buildsFrom {freqs : List Nat} (few : freqs.length ≤ 65535) (two : 2 ≤ (alphabetOf freqs).length)
    (room : (alphabetOf freqs).length ≤ 2 ^ maxCodeLen) (total : freqs.sum < 2 ^ 60) :
    ∃ table, BuiltFrom freqs table := by
  have small : freqs.length ≤ 65536 := Nat.le_succ_of_le few
  have alphabet : max freqs.length (eob + 1) ≤ 65536 := Nat.max_le.mpr ⟨small, by decide⟩
  have two' := two
  have room' := room
  rw [← usedCount small] at two' room'
  have distinct := usedDistinct small
  have weights := usedTotal freqs
  obtain ⟨lengthsMap, merged, lengths⟩ := packageMergeFits (max freqs.length (eob + 1)) (t := maxCodeLen)
    distinct two' room' room' (by rw [maxCodeLen]; omega)
  have valid := (mergedValid distinct two' room' (usedInside small) alphabet lengths).1
  obtain ⟨table, made, _⟩ := fromLengthsTable valid
  exact ⟨table, builtFrom few two room (by rw [buildMerges two', merged, Outcome.okBind, made])⟩

theorem builtLength {freqs : List Nat} {table : HuffmanTable} (built : BuiltFrom freqs table) {s : Nat}
    (member : s ∈ alphabetOf freqs) : lengthOf table s = codeLength (usedSymbols freqs) s := by
  obtain ⟨code, found, _⟩ := built.encoded s (List.mem_range.mp (List.mem_filter.mp member).1)
  rw [lengthOf, found]
  rfl

structure AlphabetLengths (freqs : List Nat) : Prop where
  bounded : ∀ s ∈ alphabetOf freqs,
    1 ≤ codeLength (usedSymbols freqs) s ∧ codeLength (usedSymbols freqs) s ≤ maxCodeLen
  silent : ∀ s ∉ alphabetOf freqs, codeLength (usedSymbols freqs) s = 0
  full : ((alphabetOf freqs).map (fun s => 2 ^ (maxCodeLen - codeLength (usedSymbols freqs) s))).sum = 2 ^ maxCodeLen

theorem alphabetLengths {freqs : List Nat} (few : freqs.length ≤ 65535) (two : 2 ≤ (alphabetOf freqs).length)
    (room : (alphabetOf freqs).length ≤ 2 ^ maxCodeLen) : AlphabetLengths freqs := by
  have small : freqs.length ≤ 65536 := Nat.le_succ_of_le few
  rw [← usedCount small] at two room
  have complete := sortedComplete (usedDistinct small) two room
  have size := (sortedSymbolsPerm (usedSymbols freqs)).length_eq
  have order := ((sortedSymbolsPerm (usedSymbols freqs)).map Prod.snd).trans (usedAlphabet small)
  have used (s : Nat) : 0 < codeLength (usedSymbols freqs) s ↔ s ∈ alphabetOf freqs := by
    have h := complete.used s
    rw [size] at h
    exact h.trans order.mem_iff
  have shallow (s : Nat) : codeLength (usedSymbols freqs) s ≤ maxCodeLen := by
    have h := complete.shallow s
    rwa [size] at h
  refine ⟨fun s member => ⟨(used s).mpr member, shallow s⟩, ?_, ?_⟩
  · exact fun s absent => Nat.eq_zero_of_not_pos fun positive => absent ((used s).mp positive)
  · have h := complete.kraft
    rwa [(order.map _).sum_eq, size] at h

theorem builtFeasible {freqs : List Nat} {table : HuffmanTable} (built : BuiltFrom freqs table)
    (lengths : AlphabetLengths freqs) :
    (∀ s ∈ alphabetOf freqs, 1 ≤ lengthOf table s ∧ lengthOf table s ≤ maxCodeLen) ∧
    ((alphabetOf freqs).map (fun s => 2 ^ (maxCodeLen - lengthOf table s))).sum = 2 ^ maxCodeLen := by
  constructor
  · intro s member
    rw [builtLength built member]
    exact lengths.bounded s member
  · have same : (alphabetOf freqs).map (fun s => 2 ^ (maxCodeLen - lengthOf table s)) =
        (alphabetOf freqs).map (fun s => 2 ^ (maxCodeLen - codeLength (usedSymbols freqs) s)) :=
      List.map_congr_left fun s member => by rw [builtLength built member]
    rw [same, lengths.full]

theorem buildComplete (freqs : List Nat) (few : freqs.length ≤ 65535) (two : 2 ≤ (alphabetOf freqs).length)
    (room : (alphabetOf freqs).length ≤ 2 ^ 15) (total : freqs.sum < 2 ^ 60) :
    ∃ table lengthsMap,
      packageMerge (usedSymbols freqs) (max freqs.length (eob + 1)) maxCodeLen = .ok lengthsMap ∧
      build freqs = .ok table ∧ table.encode.size = max freqs.length (eob + 1) ∧
      (∀ s ∈ alphabetOf freqs, ∃ code len, table.encodeSymbol s = .ok (code, len) ∧ 1 ≤ len ∧ len ≤ 15) ∧
      (∀ s < max freqs.length (eob + 1), s ∉ alphabetOf freqs → table.encodeSymbol s = .ok (0, 0)) ∧
      ((alphabetOf freqs).map (fun s => 2 ^ (15 - lengthOf table s))).sum = 2 ^ 15 := by
  obtain ⟨table, built⟩ := buildsFrom few two room total
  have lengths := alphabetLengths few two room
  obtain ⟨lengthsMap, merged⟩ := built.merged
  refine ⟨table, lengthsMap, merged, built.run, built.size, ?_, ?_, (builtFeasible built lengths).2⟩
  · intro s member
    obtain ⟨code, found, _⟩ := built.encoded s (List.mem_range.mp (List.mem_filter.mp member).1)
    exact ⟨code, _, Outcome.indexOk.mpr found, lengths.bounded s member⟩
  · intro s bound absent
    obtain ⟨code, found, zero⟩ := built.encoded s bound
    have silent := lengths.silent s absent
    rw [zero silent, silent] at found
    exact Outcome.indexOk.mpr found

theorem buildCompleteTwo : ∃ table lengthsMap,
    packageMerge (usedSymbols [5, 0, 2]) (max [5, 0, 2].length (eob + 1)) maxCodeLen = .ok lengthsMap ∧
    build [5, 0, 2] = .ok table ∧ table.encode.size = max [5, 0, 2].length (eob + 1) ∧
    (∀ s ∈ alphabetOf [5, 0, 2], ∃ code len, table.encodeSymbol s = .ok (code, len) ∧ 1 ≤ len ∧ len ≤ 15) ∧
    (∀ s < max [5, 0, 2].length (eob + 1), s ∉ alphabetOf [5, 0, 2] → table.encodeSymbol s = .ok (0, 0)) ∧
    ((alphabetOf [5, 0, 2]).map (fun s => 2 ^ (15 - lengthOf table s))).sum = 2 ^ 15 :=
  buildComplete [5, 0, 2] (by decide) (by decide +kernel) (by decide +kernel) (by decide)

/-! The cost of a code. -/
theorem sumOfUsed {freqs : List Nat} (small : freqs.length ≤ 65536) (f : Nat × Nat → Nat) :
    ((sortedSymbols (usedSymbols freqs)).map f).sum =
      ((alphabetOf freqs).map (fun s => f (frequency freqs s, s))).sum := by
  rw [(((sortedSymbolsPerm _).trans (usedPerm small)).map f).sum_eq, List.map_map]
  rfl

theorem costOfUsed {freqs : List Nat} (small : freqs.length ≤ 65536) (l : Nat → Nat) :
    PackageMerge.cost (sortedSymbols (usedSymbols freqs)) l = totalCost freqs l :=
  sumOfUsed small fun e => e.1 * l e.2

theorem roomOfUsed {freqs : List Nat} (small : freqs.length ≤ 65536) (l : Nat → Nat) :
    PackageMerge.room (sortedSymbols (usedSymbols freqs)) maxCodeLen l =
      ((alphabetOf freqs).map (fun s => 2 ^ (maxCodeLen - l s))).sum :=
  sumOfUsed small fun e => 2 ^ (maxCodeLen - l e.2)

theorem codeLengthCheapest {freqs : List Nat} (few : freqs.length ≤ 65535) {l : Nat → Nat}
    (feasible : Feasible freqs l) : totalCost freqs (codeLength (usedSymbols freqs)) ≤ totalCost freqs l := by
  have small : freqs.length ≤ 65536 := Nat.le_succ_of_le few
  have order := (sortedSymbolsPerm (usedSymbols freqs)).trans (usedPerm small)
  have ends : eob ∈ alphabetOf freqs := alphabetMember.mpr (.inl rfl)
  have filled : sortedSymbols (usedSymbols freqs) ≠ [] := by
    have inside := order.mem_iff.mpr (List.mem_map_of_mem (f := fun s => (frequency freqs s, s)) ends)
    exact List.ne_nil_of_mem inside
  have short : ∀ e ∈ sortedSymbols (usedSymbols freqs), l e.2 ≤ maxCodeLen := by
    intro e member
    obtain ⟨s, inside, rfl⟩ := List.mem_map.mp (order.mem_iff.mp member)
    exact (feasible.bounded s inside).2
  have space : PackageMerge.room (sortedSymbols (usedSymbols freqs)) maxCodeLen l ≤ 2 ^ maxCodeLen := by
    rw [roomOfUsed small]
    exact feasible.kraft
  have least := PackageMerge.packageMergeOptimal (sortedAlphabet (usedDistinct small)) maxCodeLen l filled short space
  rw [(sortedSymbolsPerm (usedSymbols freqs)).length_eq, costOfUsed small, costOfUsed small] at least
  exact least

/-- The end-of-block symbol is counted with its own frequency, or once. -/
theorem buildOptimal (freqs : List Nat) (few : freqs.length ≤ 65535) (two : 2 ≤ (alphabetOf freqs).length)
    (room : (alphabetOf freqs).length ≤ 2 ^ 15) (total : freqs.sum < 2 ^ 60) :
    ∃ table, build freqs = .ok table ∧ Feasible freqs (lengthOf table) ∧
      ∀ l, Feasible freqs l → totalCost freqs (lengthOf table) ≤ totalCost freqs l := by
  obtain ⟨table, built⟩ := buildsFrom few two room total
  obtain ⟨bounded, full⟩ := builtFeasible built (alphabetLengths few two room)
  refine ⟨table, built.run, ⟨bounded, Nat.le_of_eq full⟩, fun l feasible => ?_⟩
  have same : totalCost freqs (lengthOf table) = totalCost freqs (codeLength (usedSymbols freqs)) :=
    congrArg List.sum (List.map_congr_left fun s member => by rw [builtLength built member])
  rw [same]
  exact codeLengthCheapest few feasible

theorem buildOptimalTwo : ∃ table, build [5, 0, 2] = .ok table ∧ Feasible [5, 0, 2] (lengthOf table) ∧
    ∀ l, Feasible [5, 0, 2] l → totalCost [5, 0, 2] (lengthOf table) ≤ totalCost [5, 0, 2] l :=
  buildOptimal [5, 0, 2] (by decide) (by decide +kernel) (by decide +kernel) (by decide)

/-! Exchanging two lengths. -/
theorem exchangedFeasible {freqs : List Nat} {l : Nat → Nat} (feasible : Feasible freqs l) {s t : Nat}
    (first : s ∈ alphabetOf freqs) (second : t ∈ alphabetOf freqs) : Feasible freqs (Exchange.exchanged s t l) := by
  have distinct := alphabetDistinct freqs
  have inside := Exchange.swapInside (List.mem_toFinset.mpr first) (List.mem_toFinset.mpr second)
  constructor
  · intro u member
    exact feasible.bounded _ (List.mem_toFinset.mp ((inside u).mp (List.mem_toFinset.mpr member)))
  · have kraft := feasible.kraft
    rw [← List.sum_toFinset _ distinct] at kraft ⊢
    rwa [Exchange.sumExchanged (List.mem_toFinset.mpr first) (List.mem_toFinset.mpr second) l
      fun len => 2 ^ (maxCodeLen - len)]

theorem buildMonotone (freqs : List Nat) (few : freqs.length ≤ 65535) (two : 2 ≤ (alphabetOf freqs).length)
    (room : (alphabetOf freqs).length ≤ 2 ^ 15) (table : HuffmanTable) (run : build freqs = .ok table) :
    ∀ s ∈ alphabetOf freqs, ∀ t ∈ alphabetOf freqs, frequency freqs s < frequency freqs t →
      lengthOf table t ≤ lengthOf table s := by
  intro s first t second lighter
  have built := builtFrom few two room run
  obtain ⟨bounded, full⟩ := builtFeasible built (alphabetLengths few two room)
  have feasible := exchangedFeasible ⟨bounded, Nat.le_of_eq full⟩ first second
  have same : totalCost freqs (lengthOf table) = totalCost freqs (codeLength (usedSymbols freqs)) :=
    congrArg List.sum (List.map_congr_left fun u member => by rw [builtLength built member])
  have least := codeLengthCheapest few feasible
  rw [← same, totalCost, totalCost, ← List.sum_toFinset _ (alphabetDistinct freqs),
    ← List.sum_toFinset _ (alphabetDistinct freqs)] at least
  exact Exchange.orderedOfLeast (List.mem_toFinset.mpr first) (List.mem_toFinset.mpr second) lighter least

theorem buildMonotoneTwo : ∃ table, build [5, 0, 2] = .ok table ∧
    ∀ s ∈ alphabetOf [5, 0, 2], ∀ t ∈ alphabetOf [5, 0, 2], frequency [5, 0, 2] s < frequency [5, 0, 2] t →
      lengthOf table t ≤ lengthOf table s := by
  obtain ⟨table, built⟩ : ∃ table, BuiltFrom [5, 0, 2] table :=
    buildsFrom (by decide) (by decide +kernel) (by decide +kernel) (by decide)
  exact ⟨table, built.run,
    buildMonotone [5, 0, 2] (by decide) (by decide +kernel) (by decide +kernel) table built.run⟩

end Openpresser.Huffman
