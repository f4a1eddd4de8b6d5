import Openpresser.CodeTable

/-! The two tables of `from_lengths` against each other: a word decodes to a symbol
exactly when that symbol's code is on top of it, so no code is a prefix of another. -/
namespace Openpresser.Huffman
open CanonicalCode (code kraft locate span)

/-- Lengths up to 15 that satisfy the Kraft inequality; a zero is no length. -/
structure KraftLengths (lengthsMap : List Nat) : Prop where
  bounded : ∀ l ∈ lengthsMap, l ≤ maxCodeLen
  space : ((lengthsMap.filter (0 < ·)).map (fun l => 2 ^ (maxCodeLen - l))).sum ≤ 2 ^ maxCodeLen

theorem presentLengths (lengthsMap : List Nat) :
    (present lengthsMap).map Prod.snd = lengthsMap.filter (0 < ·) := by
  have values := List.filter_map (f := Prod.fst) (p := fun l : Nat => decide (0 < l)) (l := lengthsMap.zipIdx)
  rw [List.zipIdx_map_fst] at values
  rw [present, List.map_map, values]
  rfl

theorem kraftOfMap (lengthsMap : List Nat) : kraft maxCodeLen (present lengthsMap) =
    ((lengthsMap.filter (0 < ·)).map (fun l => 2 ^ (maxCodeLen - l))).sum := by
  rw [← presentLengths, List.map_map]
  rfl

theorem validIff {lengthsMap : List Nat} (small : lengthsMap.length ≤ 65536) :
    ValidMap lengthsMap ↔ KraftLengths lengthsMap := by
  constructor
  · exact fun valid => ⟨valid.bounded, by rw [← kraftOfMap]; exact valid.space⟩
  · exact fun lengths => ⟨small, lengths.bounded, by rw [kraftOfMap]; exact lengths.space⟩

def Codes (table : HuffmanTable) (s code len : Nat) : Prop := table.encodeSymbol s = .ok (code, len) ∧ 0 < len

def OnTop (code len word : Nat) : Prop := word / 2 ^ (32 - len) = code

section
variable {lengthsMap : List Nat} {table : HuffmanTable} (valid : ValidMap lengthsMap)
  (run : fromLengths lengthsMap = .ok table)
include valid run

theorem madeTable : TableFor table (sortedLengths lengthsMap) := by
  obtain ⟨table', made, tableFor⟩ := fromLengthsTable valid
  cases Outcome.ok.inj (made.symm.trans run)
  exact tableFor

theorem codesMember {s c len : Nat} (codes : Codes table s c len) : (s, len) ∈ sortedLengths lengthsMap := by
  have found := Outcome.indexOk.mp codes.1
  have inside := (Array.getElem?_eq_some_iff.mp found).1
  rw [fromLengthsSize run] at inside
  obtain ⟨c', found', _⟩ := fromLengthsEncode valid run (List.getElem?_eq_getElem inside)
  cases Option.some.inj (found.symm.trans found')
  exact (sortedPerm lengthsMap).mem_iff.mpr
    ((presentMember valid.small).mpr ⟨codes.2, List.getElem?_eq_getElem inside⟩)

theorem codesPlace {s c len : Nat} : Codes table s c len ↔ ∃ i : Nat, (sortedLengths lengthsMap)[i]? = some (s, len) ∧
    c = code maxCodeLen ((sortedLengths lengthsMap).take i) (s, len) := by
  have tableFor := madeTable valid run
  constructor
  · intro codes
    obtain ⟨i, place⟩ := List.getElem?_of_mem (codesMember valid run codes)
    have found := tableFor.encode i _ place
    cases Option.some.inj ((Outcome.indexOk.mp codes.1).symm.trans found)
    exact ⟨i, place, rfl⟩
  · rintro ⟨i, place, rfl⟩
    exact ⟨Outcome.indexOk.mpr (tableFor.encode i _ place),
      ((validEntries valid).bounded _ (List.mem_of_getElem? place)).1⟩

theorem codesBound {s c len : Nat} (codes : Codes table s c len) : c < 2 ^ len ∧ len ≤ maxCodeLen := by
  obtain ⟨i, place, rfl⟩ := (codesPlace valid run).mp codes
  exact ⟨(codeBound (validEntries valid) place).2, ((validEntries valid).bounded _ (List.mem_of_getElem? place)).2⟩

theorem locatedIff (word s len : Nat) :
    locate maxCodeLen 0 (sortedLengths lengthsMap) (word / 2 ^ 17) = some (s, len) ↔
      ∃ c, Codes table s c len ∧ OnTop c len word := by
  have entries := validEntries valid
  have fifteen : maxCodeLen = 15 := rfl
  have top (i : Nat) (place : (sortedLengths lengthsMap)[i]? = some (s, len)) :
      kraft maxCodeLen ((sortedLengths lengthsMap).take i) ≤ word / 2 ^ 17 ∧
        word / 2 ^ 17 < kraft maxCodeLen ((sortedLengths lengthsMap).take i) + span maxCodeLen (s, len) ↔
      OnTop (code maxCodeLen ((sortedLengths lengthsMap).take i) (s, len)) len word := by
    have short : len ≤ maxCodeLen := (entries.bounded _ (List.mem_of_getElem? place)).2
    have widths : 2 ^ 17 * span maxCodeLen (s, len) = 2 ^ (32 - len) := by
      rw [span, ← Nat.pow_add]
      congr 1
      omega
    rw [CanonicalCode.cellIff maxCodeLen (shorterBefore entries place), Nat.div_div_eq_div_mul, widths]
    exact Iff.rfl
  constructor
  · intro found
    obtain ⟨i, place, cell⟩ := CanonicalCode.locateFound maxCodeLen found
    rw [Nat.zero_add] at cell
    exact ⟨_, (codesPlace valid run).mpr ⟨i, place, rfl⟩, (top i place).mp cell⟩
  · rintro ⟨c, codes, onTop⟩
    obtain ⟨i, place, rfl⟩ := (codesPlace valid run).mp codes
    obtain ⟨low, high⟩ := (top i place).mpr onTop
    exact CanonicalCode.locateCell maxCodeLen place (by rwa [Nat.zero_add]) (by rwa [Nat.zero_add])

theorem decodedOnTop {word s len : Nat} (bound : word < 2 ^ 32) (found : table.decodeSymbol word = .ok (s, len)) :
    ∃ c, Codes table s c len ∧ OnTop c len word := by
  rw [decodeSymbolLocated (madeTable valid run) bound] at found
  cases place : locate maxCodeLen 0 (sortedLengths lengthsMap) (word / 2 ^ 17) with
  | none =>
    rw [place] at found
    contradiction
  | some e =>
    rw [place] at found
    simp only at found
    split at found
    · contradiction
    · cases Outcome.ok.inj found
      exact (locatedIff valid run word s len).mp place

theorem onTopDecodes {word s c len : Nat} (bound : word < 2 ^ 32) (codes : Codes table s c len)
    (onTop : OnTop c len word) : table.decodeSymbol word =
      if s = u16Max then .err (.decompressError "invalid Huffman code") else .ok (s, len) := by
  rw [decodeSymbolLocated (madeTable valid run) bound, (locatedIff valid run word s len).mpr ⟨c, codes, onTop⟩]

theorem decodesIff (small : lengthsMap.length ≤ 65535) {word : Nat} (bound : word < 2 ^ 32) :
    (∀ s len, table.decodeSymbol word = .ok (s, len) ↔ ∃ c, Codes table s c len ∧ OnTop c len word) ∧
    ((∃ e, table.decodeSymbol word = .err e) ↔ ∀ s c len, Codes table s c len → ¬ OnTop c len word) := by
  have decoded (s c len : Nat) (codes : Codes table s c len) (onTop : OnTop c len word) :
      table.decodeSymbol word = .ok (s, len) := by
    have inside := (validEntries valid).inside _ (codesMember valid run codes)
    have usable : s ≠ u16Max := by
      have limit : u16Max = 65535 := rfl
      simp only at inside
      omega
    rw [onTopDecodes valid run bound codes onTop, if_neg usable]
  refine ⟨fun s len => ⟨decodedOnTop valid run bound, ?_⟩, ?_, ?_⟩
  · rintro ⟨c, codes, onTop⟩
    exact decoded s c len codes onTop
  · rintro ⟨e, failed⟩ s c len codes onTop
    rw [decoded s c len codes onTop] at failed
    contradiction
  · intro apart
    have located := decodeSymbolLocated (madeTable valid run) bound
    cases place : locate maxCodeLen 0 (sortedLengths lengthsMap) (word / 2 ^ 17) with
    | none =>
      rw [place] at located
      exact ⟨_, located⟩
    | some e =>
      obtain ⟨c, codes, onTop⟩ := (locatedIff valid run word e.1 e.2).mp place
      exact absurd onTop (apart e.1 c e.2 codes)

end

theorem prefixOnTop {c d l m : Nat} (short : m ≤ 32) (boundC : c < 2 ^ l) (boundD : d < 2 ^ m)
    (isPrefix : Bits.ofNat l c <+: Bits.ofNat m d) : OnTop d m (d * 2 ^ (32 - m)) ∧ OnTop c l (d * 2 ^ (32 - m)) := by
  obtain ⟨rest, split⟩ := isPrefix
  have size := congrArg List.length split
  rw [List.length_append, Bits.lengthOfNat, Bits.lengthOfNat] at size
  have value := congrArg Bits.toNat split
  rw [Bits.toNatAppend, Bits.toNatOfNat, Bits.toNatOfNat, Nat.mod_eq_of_lt boundC, Nat.mod_eq_of_lt boundD] at value
  have low := Bits.toNatBound rest
  have positive := Nat.two_pow_pos (32 - m)
  have widths : 2 ^ (32 - l) = 2 ^ (32 - m) * 2 ^ rest.length := by
    rw [← Nat.pow_add]
    congr 1
    omega
  refine ⟨Nat.mul_div_cancel _ positive, ?_⟩
  rw [OnTop, widths, ← Nat.div_div_eq_div_mul, Nat.mul_div_cancel _ positive, ← value, Nat.mul_comm c,
    Nat.mul_add_div (Nat.two_pow_pos _), Nat.div_eq_of_lt low, Nat.add_zero]

theorem canonicalPrefixCode (lengthsMap : List Nat) (small : lengthsMap.length ≤ 65535)
    (lengths : KraftLengths lengthsMap) :
    ∃ table, fromLengths lengthsMap = .ok table ∧
      (∀ s len, (∃ code, Codes table s code len) ↔ lengthsMap[s]? = some len ∧ 0 < len) ∧
      (∀ s code len, Codes table s code len → code < 2 ^ len) ∧
      (∀ s t c d l m, Codes table s c l → Codes table t d m → s ≠ t → ¬ Bits.ofNat l c <+: Bits.ofNat m d) ∧
      ∀ word < 2 ^ 32,
        (∀ s len, table.decodeSymbol word = .ok (s, len) ↔ ∃ code, Codes table s code len ∧ OnTop code len word) ∧
        ((∃ e, table.decodeSymbol word = .err e) ↔ ∀ s code len, Codes table s code len → ¬ OnTop code len word) := by
  have valid := (validIff (Nat.le_succ_of_le small)).mpr lengths
  obtain ⟨table, run, _⟩ := fromLengthsTable valid
  refine ⟨table, run, fun s len => ⟨?_, ?_⟩, fun s c len codes => (codesBound valid run codes).1, ?_,
    fun word bound => decodesIff valid run small bound⟩
  · rintro ⟨c, codes⟩
    exact ((presentMember valid.small).mp ((sortedPerm lengthsMap).mem_iff.mp (codesMember valid run codes))).symm
  · rintro ⟨found, positive⟩
    obtain ⟨c, place, _⟩ := fromLengthsEncode valid run found
    exact ⟨c, Outcome.indexOk.mpr place, positive⟩
  · intro s t c d l m codesS codesT apart isPrefix
    obtain ⟨boundC, _⟩ := codesBound valid run codesS
    obtain ⟨boundD, short⟩ := codesBound valid run codesT
    have fifteen : maxCodeLen = 15 := rfl
    obtain ⟨topD, topC⟩ := prefixOnTop (by omega) boundC boundD isPrefix
    have word : d * 2 ^ (32 - m) < 2 ^ 32 := by
      have widths : 2 ^ 32 = 2 ^ m * 2 ^ (32 - m) := by
        rw [Nat.mul_comm, Nat.pow_sub_mul_pow 2 (by omega)]
      rw [widths]
      exact Nat.mul_lt_mul_of_pos_right boundD (Nat.two_pow_pos _)
    have decodes := (decodesIff valid run small word).1
    have first := (decodes s l).mpr ⟨c, codesS, topC⟩
    have second := (decodes t m).mpr ⟨d, codesT, topD⟩
    cases Outcome.ok.inj (first.symm.trans second)
    exact apart rfl

theorem canonicalPrefixCodeIncomplete : ∃ table, fromLengths [2, 0, 1] = .ok table ∧
    (∀ s len, (∃ code, Codes table s code len) ↔ [2, 0, 1][s]? = some len ∧ 0 < len) ∧
    (∀ s code len, Codes table s code len → code < 2 ^ len) ∧
    (∀ s t c d l m, Codes table s c l → Codes table t d m → s ≠ t → ¬ Bits.ofNat l c <+: Bits.ofNat m d) ∧
    ∀ word < 2 ^ 32,
      (∀ s len, table.decodeSymbol word = .ok (s, len) ↔ ∃ code, Codes table s code len ∧ OnTop code len word) ∧
      ((∃ e, table.decodeSymbol word = .err e) ↔ ∀ s code len, Codes table s code len → ¬ OnTop code len word) :=
  canonicalPrefixCode [2, 0, 1] (by decide) ⟨by decide, by decide⟩

end Openpresser.Huffman
