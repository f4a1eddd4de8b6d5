import Openpresser.Huffman
import Openpresser.Library.Bits
import Openpresser.Library.CanonicalCode

/-! `from_lengths`: both tables follow the canonical layout of the sorted lengths.
The decode table is right on every one of its entries, filled or not. -/
namespace Openpresser.Huffman
open CanonicalCode

structure ValidEntries (entries : List (Nat × Nat)) (n : Nat) : Prop where
  sorted : entries.Pairwise (fun a b => a.2 ≤ b.2)
  distinct : (entries.map Prod.fst).Nodup
  inside : ∀ e ∈ entries, e.1 < n
  bounded : ∀ e ∈ entries, 0 < e.2 ∧ e.2 ≤ maxCodeLen
  space : kraft maxCodeLen entries ≤ 2 ^ maxCodeLen

structure TableFor (table : HuffmanTable) (entries : List (Nat × Nat)) : Prop where
  lengths : table.lengths = entries
  encode : ∀ (i : Nat) (e : Nat × Nat), entries[i]? = some e →
    table.encode[e.1]? = some (code maxCodeLen (entries.take i) e, e.2)
  size : table.decodeTable.size = 2 ^ maxCodeLen
  decode : ∀ word < 2 ^ maxCodeLen,
    table.decodeTable[word]? = some ((locate maxCodeLen 0 entries word).getD (u16Max, 0))

def Reached (done : List (Nat × Nat)) (code prevLen : Nat) : Prop :=
  (done = [] ∧ code = 0 ∧ prevLen = 0) ∨
  (0 < prevLen ∧ (∃ d ∈ done, d.2 = prevLen) ∧
    (code + 1) * 2 ^ (maxCodeLen - prevLen) = kraft maxCodeLen done)

theorem nextCode {done : List (Nat × Nat)} {prevCode prevLen : Nat} {e : Nat × Nat}
    (reached : Reached done prevCode prevLen) (shorter : ∀ d ∈ done, d.2 ≤ e.2) (short : e.2 ≤ maxCodeLen)
    (space : kraft maxCodeLen done ≤ 2 ^ maxCodeLen) :
    (if prevLen > 0 then do
        let following ← Outcome.add 32 prevCode 1
        let grow ← Outcome.sub e.2 prevLen
        Outcome.shiftLeft 32 following grow
      else .ok prevCode : Result Nat) = .ok (code maxCodeLen done e) := by
  rcases reached with ⟨rfl, rfl, rfl⟩ | ⟨positive, ⟨d, hd, same⟩, position⟩
  · simp [code]
  have fifteen : maxCodeLen = 15 := rfl
  have grows : prevLen ≤ e.2 := same ▸ shorter d hd
  have widths : 2 ^ (maxCodeLen - prevLen) = 2 ^ (e.2 - prevLen) * span maxCodeLen e := by
    rw [span, ← Nat.pow_add]; congr 1; omega
  have value : (prevCode + 1) * 2 ^ (e.2 - prevLen) = code maxCodeLen done e := by
    apply Nat.eq_of_mul_eq_mul_right (spanPositive maxCodeLen e)
    rw [Nat.mul_assoc, ← widths, position, codeAligned maxCodeLen shorter]
  have small : code maxCodeLen done e ≤ 2 ^ maxCodeLen := Nat.le_trans (Nat.div_le_self _ _) space
  have smallPrev : prevCode + 1 ≤ code maxCodeLen done e := by
    rw [← value]; exact Nat.le_mul_of_pos_right _ (Nat.two_pow_pos _)
  have width : (2 : Nat) ^ maxCodeLen < 2 ^ 32 := by decide
  rw [if_pos positive, Outcome.addFits (by omega), Outcome.okBind, Outcome.subFits grows, Outcome.okBind,
    Outcome.shiftLeftFits (by omega) (by omega), value]

theorem reachedNext {done : List (Nat × Nat)} {e : Nat × Nat} (shorter : ∀ d ∈ done, d.2 ≤ e.2)
    (positive : 0 < e.2) : Reached (done ++ [e]) (code maxCodeLen done e) e.2 := by
  refine .inr ⟨positive, ⟨e, by simp, rfl⟩, ?_⟩
  change (code maxCodeLen done e + 1) * span maxCodeLen e = _
  rw [Nat.add_mul, codeAligned maxCodeLen shorter, kraftAppend, Nat.one_mul]
  rfl

def Assigned (encode : Array (Nat × Nat)) (done : List (Nat × Nat)) : Prop :=
  ∀ (i : Nat) (e : Nat × Nat), done[i]? = some e →
    encode[e.1]? = some (code maxCodeLen (done.take i) e, e.2)

theorem assignedNext {encode : Array (Nat × Nat)} {done : List (Nat × Nat)} {e : Nat × Nat}
    (assigned : Assigned encode done) (inside : e.1 < encode.size) (fresh : e.1 ∉ done.map Prod.fst) :
    Assigned (encode.setIfInBounds e.1 (code maxCodeLen done e, e.2)) (done ++ [e]) := by
  intro i x found
  by_cases old : i < done.length
  · rw [List.getElem?_append_left old] at found
    have other : e.1 ≠ x.1 := fun same =>
      fresh (same ▸ List.mem_map.mpr ⟨x, List.mem_of_getElem? found, rfl⟩)
    rw [Array.getElem?_setIfInBounds_ne other, List.take_append_of_le_length (by omega)]
    exact assigned i x found
  · obtain ⟨bound, value⟩ := List.getElem?_eq_some_iff.mp found
    have last : i = done.length := by simp at bound; omega
    subst last
    obtain rfl : e = x := by simpa using found
    rw [Array.getElem?_setIfInBounds_self_of_lt inside, List.take_left]

structure Turn (done : List (Nat × Nat)) (e : Nat × Nat) (n : Nat) : Prop where
  inside : e.1 < n
  positive : 0 < e.2
  short : e.2 ≤ maxCodeLen
  shorter : ∀ d ∈ done, d.2 ≤ e.2
  fresh : e.1 ∉ done.map Prod.fst
  room : kraft maxCodeLen done + span maxCodeLen e ≤ 2 ^ maxCodeLen

theorem turn {entries done rest : List (Nat × Nat)} {e : Nat × Nat} {n : Nat}
    (valid : ValidEntries entries n) (split : entries = done ++ e :: rest) : Turn done e n := by
  have member : e ∈ entries := by simp [split]
  have sorted := valid.sorted
  rw [split, List.pairwise_append] at sorted
  have distinct := valid.distinct
  rw [split, List.map_append, List.nodup_append] at distinct
  have space := valid.space
  rw [split, kraftAppend, kraftCons] at space
  exact ⟨valid.inside e member, (valid.bounded e member).1, (valid.bounded e member).2,
    fun d hd => sorted.2.2 d hd e List.mem_cons_self,
    fun h => distinct.2.2 e.1 h e.1 (by simp) rfl, by omega⟩

theorem assignCodesCanonical {entries : List (Nat × Nat)} {n : Nat} (valid : ValidEntries entries n)
    (rest done : List (Nat × Nat)) (split : entries = done ++ rest) {encode : Array (Nat × Nat)}
    (size : encode.size = n) {prevCode prevLen : Nat} (reached : Reached done prevCode prevLen)
    (assigned : Assigned encode done) :
    ∃ encode', assignCodes rest encode prevCode prevLen = .ok encode' ∧ encode'.size = n ∧
      Assigned encode' entries := by
  induction rest generalizing done encode prevCode prevLen with
  | nil => exact ⟨encode, rfl, size, by simpa [split] using assigned⟩
  | cons e rest ih =>
    have here := turn valid split
    have positive := spanPositive maxCodeLen e
    have room := here.room
    obtain ⟨encode', run, size', all⟩ := ih (done ++ [e]) (by simp [split])
      (by simp [size] : (encode.setIfInBounds e.1 (code maxCodeLen done e, e.2)).size = n)
      (reachedNext here.shorter here.positive)
      (assignedNext assigned (size ▸ here.inside) here.fresh)
    refine ⟨encode', ?_, size', all⟩
    rw [assignCodes, nextCode reached here.shorter here.short (by omega), Outcome.okBind,
      Outcome.storeInside _ (size ▸ here.inside), Outcome.okBind, run]

theorem fillCell {table : Array (Nat × Nat)} (entry : Nat × Nat) (c pad n : Nat) (narrow : n ≤ 2 ^ pad)
    (inside : c * 2 ^ pad + n ≤ table.size) :
    ∃ table', (List.range n).foldlM (fun table i =>
        (Outcome.store table (c * 2 ^ pad ||| i) entry : Result (Array (Nat × Nat)))) table = .ok table' ∧
      table'.size = table.size ∧
      ∀ word : Nat, table'[word]? =
        if c * 2 ^ pad ≤ word ∧ word < c * 2 ^ pad + n then some entry else table[word]? := by
  induction n with
  | zero => exact ⟨table, rfl, rfl, fun word => by rw [if_neg (by omega)]⟩
  | succ n ih =>
    obtain ⟨filled, run, size, cells⟩ := ih (by omega) (by omega)
    have place : c * 2 ^ pad ||| n = c * 2 ^ pad + n := by
      rw [Nat.mul_comm]
      exact (Nat.two_pow_add_eq_or_of_lt (by omega) c).symm
    have slot : c * 2 ^ pad + n < filled.size := by omega
    refine ⟨filled.setIfInBounds (c * 2 ^ pad + n) entry, ?_, by simp [size], ?_⟩
    · rw [List.range_succ, Outcome.foldlMAppend, run, Outcome.okBind, Outcome.foldlMCons, place,
        Outcome.storeInside _ slot]
      rfl
    · intro word
      by_cases last : c * 2 ^ pad + n = word
      · rw [← last, Array.getElem?_setIfInBounds_self_of_lt slot, if_pos (by omega)]
      · rw [Array.getElem?_setIfInBounds_ne last, cells]
        by_cases old : c * 2 ^ pad ≤ word ∧ word < c * 2 ^ pad + n
        · rw [if_pos old, if_pos (by omega)]
        · rw [if_neg old, if_neg (by omega)]

def Filled (table : Array (Nat × Nat)) (done : List (Nat × Nat)) : Prop :=
  table.size = 2 ^ maxCodeLen ∧
  ∀ word < 2 ^ maxCodeLen, table[word]? = some ((locate maxCodeLen 0 done word).getD (u16Max, 0))

theorem fillEntryNext {encode table : Array (Nat × Nat)} {done : List (Nat × Nat)} {e : Nat × Nat} {n : Nat}
    (here : Turn done e n) (found : encode[e.1]? = some (code maxCodeLen done e, e.2))
    (filled : Filled table done) :
    ∃ table', fillEntry encode table e = .ok table' ∧ Filled table' (done ++ [e]) := by
  obtain ⟨size, cells⟩ := filled
  have room := here.room
  have fifteen : maxCodeLen = 15 := rfl
  have base : code maxCodeLen done e * 2 ^ (maxCodeLen - e.2) = kraft maxCodeLen done :=
    codeAligned maxCodeLen here.shorter
  have positive := spanPositive maxCodeLen e
  have width : (2 : Nat) ^ maxCodeLen < 2 ^ 64 := by decide
  obtain ⟨table', run, size', cells'⟩ := fillCell e (code maxCodeLen done e) (maxCodeLen - e.2)
    (2 ^ (maxCodeLen - e.2)) (Nat.le_refl _) (by rw [base, size]; exact room)
  refine ⟨table', ?_, by rw [size', size], ?_⟩
  · simp only [fillEntry, Outcome.indexOk.mpr found, Outcome.okBind, Outcome.subFits here.short]
    rw [Outcome.shiftLeftFits (by omega) (by omega), Outcome.okBind]
    exact run
  · intro word inside
    have after : table'[word]? = if kraft maxCodeLen done ≤ word ∧
        word < kraft maxCodeLen done + span maxCodeLen e then some e else table[word]? := by
      have h := cells' word
      rwa [base] at h
    rw [after, locateSnoc, Nat.zero_add]
    by_cases cell : kraft maxCodeLen done ≤ word ∧ word < kraft maxCodeLen done + span maxCodeLen e
    · rw [if_pos cell, if_pos cell]
      rfl
    · rw [if_neg cell, if_neg cell]
      exact cells word inside

theorem fillTableCanonical {entries : List (Nat × Nat)} {n : Nat} (valid : ValidEntries entries n)
    {encode : Array (Nat × Nat)} (assigned : Assigned encode entries) :
    ∃ table, entries.foldlM (fillEntry encode) (Array.replicate (2 ^ maxCodeLen) (u16Max, 0)) = .ok table ∧
      Filled table entries := by
  refine Outcome.foldlMInvariant (I := fun done table => Filled table done) entries
    ⟨Array.size_replicate, ?_⟩ ?_
  · intro word inside
    rw [Array.getElem?_replicate, if_pos inside]
    rfl
  · intro done e rest table split filled
    have found := assigned done.length e (by simp [split])
    rw [split, List.take_left] at found
    exact fillEntryNext (turn valid split) found filled

theorem fromLengthsCanonical {lengthsMap : List Nat}
    (valid : ValidEntries ((present lengthsMap).insertionSort shorterFirst) lengthsMap.length) :
    ∃ table, fromLengths lengthsMap = .ok table ∧
      TableFor table ((present lengthsMap).insertionSort shorterFirst) := by
  obtain ⟨encode, coded, _, assigned⟩ := assignCodesCanonical valid
    ((present lengthsMap).insertionSort shorterFirst) [] rfl Array.size_replicate (.inl ⟨rfl, rfl, rfl⟩)
    (by simp [Assigned] : Assigned (Array.replicate lengthsMap.length (0, 0)) [])
  obtain ⟨decodeTable, filled, size, cells⟩ := fillTableCanonical valid assigned
  refine ⟨⟨encode, (present lengthsMap).insertionSort shorterFirst, lengthsMap.length, decodeTable⟩, ?_,
    rfl, assigned, size, cells⟩
  simp only [fromLengths, coded, filled, Outcome.okBind]

/-! The entries a length map presents. -/
theorem presentMember {lengthsMap : List Nat} (small : lengthsMap.length ≤ 65536) {s l : Nat} :
    (s, l) ∈ present lengthsMap ↔ 0 < l ∧ lengthsMap[s]? = some l := by
  simp only [present, List.mem_map, List.mem_filter, List.mem_zipIdx_iff_getElem?, decide_eq_true_eq,
    Prod.mk.injEq, Prod.exists]
  constructor
  · rintro ⟨l', s', ⟨found, positive⟩, rfl, rfl⟩
    have inside := (List.getElem?_eq_some_iff.mp found).1
    rw [Nat.mod_eq_of_lt (by omega)]
    exact ⟨positive, found⟩
  · rintro ⟨positive, found⟩
    have inside := (List.getElem?_eq_some_iff.mp found).1
    exact ⟨l, s, ⟨found, positive⟩, Nat.mod_eq_of_lt (by omega), rfl⟩

theorem presentDistinct {lengthsMap : List Nat} (small : lengthsMap.length ≤ 65536) :
    ((present lengthsMap).map Prod.fst).Nodup := by
  have indices : (present lengthsMap).map Prod.fst =
      (lengthsMap.zipIdx.filter (fun p => 0 < p.1)).map Prod.snd := by
    rw [present, List.map_map]
    apply List.map_congr_left
    intro p member
    have inside := List.snd_lt_of_mem_zipIdx (List.mem_filter.mp member).1
    exact Nat.mod_eq_of_lt (by omega)
  rw [indices]
  have all : (lengthsMap.zipIdx.map Prod.snd).Nodup := by
    rw [List.zipIdx_map_snd]
    exact List.nodup_range' 
  exact all.sublist (List.filter_sublist.map _)

def sortedLengths (lengthsMap : List Nat) : List (Nat × Nat) :=
  (present lengthsMap).insertionSort shorterFirst

theorem sortedPerm (lengthsMap : List Nat) : (sortedLengths lengthsMap).Perm (present lengthsMap) :=
  List.perm_insertionSort _ _

instance shorterTotal : Std.Total shorterFirst := ⟨fun a b => by unfold shorterFirst; omega⟩
instance shorterTrans : IsTrans (Nat × Nat) shorterFirst := ⟨fun a b c => by unfold shorterFirst; omega⟩

theorem sortedOrder (lengthsMap : List Nat) : (sortedLengths lengthsMap).Pairwise shorterFirst :=
  List.pairwise_insertionSort shorterFirst (present lengthsMap)

structure ValidMap (lengthsMap : List Nat) : Prop where
  small : lengthsMap.length ≤ 65536
  bounded : ∀ l ∈ lengthsMap, l ≤ maxCodeLen
  space : kraft maxCodeLen (present lengthsMap) ≤ 2 ^ maxCodeLen

theorem validEntries {lengthsMap : List Nat} (valid : ValidMap lengthsMap) :
    ValidEntries (sortedLengths lengthsMap) lengthsMap.length where
  sorted := (sortedOrder lengthsMap).imp (by unfold shorterFirst; omega)
  distinct := ((sortedPerm lengthsMap).map Prod.fst).nodup_iff.mpr (presentDistinct valid.small)
  inside := by
    rintro ⟨s, l⟩ member
    have found := (presentMember valid.small).mp ((sortedPerm lengthsMap).mem_iff.mp member)
    exact (List.getElem?_eq_some_iff.mp found.2).1
  bounded := by
    rintro ⟨s, l⟩ member
    have found := (presentMember valid.small).mp ((sortedPerm lengthsMap).mem_iff.mp member)
    exact ⟨found.1, valid.bounded l (List.mem_of_getElem? found.2)⟩
  space := by rw [kraftPerm maxCodeLen (sortedPerm lengthsMap)]; exact valid.space

theorem fromLengthsTable {lengthsMap : List Nat} (valid : ValidMap lengthsMap) :
    ∃ table, fromLengths lengthsMap = .ok table ∧ TableFor table (sortedLengths lengthsMap) :=
  fromLengthsCanonical (validEntries valid)

theorem assignCodesFrame {entries : List (Nat × Nat)} {encode encode' : Array (Nat × Nat)} {code prevLen : Nat}
    (run : assignCodes entries encode code prevLen = .ok encode') :
    encode'.size = encode.size ∧ ∀ s ∉ entries.map Prod.fst, encode'[s]? = encode[s]? := by
  induction entries generalizing encode code prevLen with
  | nil =>
    cases Outcome.ok.inj run
    exact ⟨rfl, fun _ _ => rfl⟩
  | cons e rest ih =>
    obtain ⟨sym, len⟩ := e
    rw [assignCodes, Outcome.bindOk] at run
    obtain ⟨next, _, run⟩ := run
    rw [Outcome.bindOk] at run
    obtain ⟨stored, kept, run⟩ := run
    obtain ⟨_, rfl⟩ := Outcome.storeOk.mp kept
    obtain ⟨size, frame⟩ := ih run
    refine ⟨by rw [size, Array.size_setIfInBounds], fun s absent => ?_⟩
    rw [List.map_cons, List.mem_cons, not_or] at absent
    obtain ⟨other, absent⟩ := absent
    rw [frame s absent, Array.getElem?_setIfInBounds_ne (Ne.symm other)]

theorem fromLengthsSize {lengthsMap : List Nat} {table : HuffmanTable} (run : fromLengths lengthsMap = .ok table) :
    table.encode.size = lengthsMap.length := by
  rw [fromLengths, Outcome.bindOk] at run
  obtain ⟨encode, assigned, run⟩ := run
  rw [Outcome.bindOk] at run
  obtain ⟨cells, _, same⟩ := run
  cases Outcome.ok.inj same
  rw [(assignCodesFrame assigned).1, Array.size_replicate]

theorem fromLengthsEncode {lengthsMap : List Nat} {table : HuffmanTable} (valid : ValidMap lengthsMap)
    (run : fromLengths lengthsMap = .ok table) {s l : Nat} (found : lengthsMap[s]? = some l) :
    ∃ code, table.encode[s]? = some (code, l) ∧ (l = 0 → code = 0) := by
  have inside := (List.getElem?_eq_some_iff.mp found).1
  by_cases coded : 0 < l
  · have member := (sortedPerm lengthsMap).mem_iff.mpr ((presentMember valid.small).mpr ⟨coded, found⟩)
    obtain ⟨i, place⟩ := List.getElem?_of_mem member
    obtain ⟨table', made, tableFor⟩ := fromLengthsTable valid
    cases Outcome.ok.inj (made.symm.trans run)
    exact ⟨_, tableFor.encode i _ place, by omega⟩
  · have absent : s ∉ (sortedLengths lengthsMap).map Prod.fst := by
      rw [List.mem_map]
      rintro ⟨⟨t, l'⟩, member, rfl⟩
      obtain ⟨positive, found'⟩ := (presentMember valid.small).mp ((sortedPerm lengthsMap).mem_iff.mp member)
      cases Option.some.inj (found.symm.trans found')
      exact coded positive
    rw [fromLengths, Outcome.bindOk] at run
    obtain ⟨encode, assigned, run⟩ := run
    rw [Outcome.bindOk] at run
    obtain ⟨cells, _, same⟩ := run
    cases Outcome.ok.inj same
    obtain rfl : l = 0 := Nat.eq_zero_of_not_pos coded
    refine ⟨0, ?_, fun _ => rfl⟩
    rw [(assignCodesFrame assigned).2 s absent, Array.getElem?_replicate, if_pos inside]

/-! A map with one code, of one bit. -/
def soleLengths (sym : Nat) : List Nat := (List.replicate (sym + 1) 0).set sym 1

theorem soleLength (sym : Nat) : (soleLengths sym).length = sym + 1 := by
  rw [soleLengths, List.length_set, List.length_replicate]

theorem solePresent {sym : Nat} (small : sym < 65536) : present (soleLengths sym) = [(sym, 1)] := by
  have few : (soleLengths sym).length ≤ 65536 := by
    rw [soleLength]
    exact small
  refine List.perm_singleton.mp ((List.perm_ext_iff_of_nodup (presentDistinct few).of_map
    (List.nodup_singleton _)).mpr ?_)
  rintro ⟨s, l⟩
  rw [presentMember few, List.mem_singleton, Prod.mk.injEq, soleLengths, List.getElem?_set]
  by_cases here : sym = s
  · rw [if_pos here, if_pos (by rw [List.length_replicate]; exact Nat.lt_succ_self sym), Option.some.injEq]
    omega
  · rw [if_neg here, List.getElem?_replicate]
    constructor
    · rintro ⟨positive, found⟩
      split at found
      · have zero := Option.some.inj found
        omega
      · contradiction
    · rintro ⟨rfl, _⟩
      exact absurd rfl here

theorem soleSorted {sym : Nat} (small : sym < 65536) : sortedLengths (soleLengths sym) = [(sym, 1)] := by
  rw [sortedLengths, solePresent small]
  rfl

theorem soleValid {sym : Nat} (small : sym < 65536) : ValidMap (soleLengths sym) where
  small := by rw [soleLength]; exact small
  bounded := by
    intro l member
    rcases List.mem_or_eq_of_mem_set member with zero | rfl
    · rw [List.eq_of_mem_replicate zero]
      exact Nat.zero_le _
    · exact (by decide : 1 ≤ maxCodeLen)
  space := by
    rw [solePresent small, kraftCons, kraftNil, span, Nat.add_zero]
    exact Nat.pow_le_pow_right (by decide) (Nat.sub_le _ _)

/-! Decoding by the table. -/
def codeword (entries : List (Nat × Nat)) (i : Nat) (e : Nat × Nat) : List Bool :=
  Bits.ofNat e.2 (code maxCodeLen (entries.take i) e)

theorem decodeSymbolLocated {table : HuffmanTable} {entries : List (Nat × Nat)}
    (tableFor : TableFor table entries) {word : Nat} (bound : word < 2 ^ 32) :
    table.decodeSymbol word =
      (match locate maxCodeLen 0 entries (word / 2 ^ 17) with
      | some e => if e.1 = u16Max then .err (.decompressError "invalid Huffman code") else .ok e
      | none => .err (.decompressError "invalid Huffman code")) := by
  have shift : word >>> (32 - maxCodeLen) = word / 2 ^ 17 := Nat.shiftRight_eq_div_pow word 17
  have inside : word / 2 ^ 17 < 2 ^ maxCodeLen := by
    have fifteen : 2 ^ maxCodeLen = 32768 := rfl
    omega
  rw [HuffmanTable.decodeSymbol, shift, Outcome.indexOk.mpr (tableFor.decode _ inside), Outcome.okBind]
  cases locate maxCodeLen 0 entries (word / 2 ^ 17) with
  | none => rfl
  | some e =>
    change (Outcome.ensure (e.1 ≠ u16Max) _ >>= fun _ => Outcome.ok e) = _
    by_cases reserved : e.1 = u16Max
    · rw [Outcome.ensureFail _ (by simpa using reserved)]
      simp [reserved]
    · rw [Outcome.ensurePass _ reserved]
      simp [reserved]

theorem shorterBefore {entries : List (Nat × Nat)} {n i : Nat} {e : Nat × Nat} (valid : ValidEntries entries n)
    (found : entries[i]? = some e) : ∀ d ∈ entries.take i, d.2 ≤ e.2 := by
  have sorted := valid.sorted
  have split : entries = entries.take i ++ e :: entries.drop (i + 1) := by
    obtain ⟨inside, rfl⟩ := List.getElem?_eq_some_iff.mp found
    rw [List.getElem_cons_drop, List.take_append_drop]
  rw [split, List.pairwise_append] at sorted
  exact fun d hd => sorted.2.2 d hd e List.mem_cons_self

theorem codeBound {entries : List (Nat × Nat)} {n i : Nat} {e : Nat × Nat}
    (valid : ValidEntries entries n) (found : entries[i]? = some e) :
    code maxCodeLen (entries.take i) e * span maxCodeLen e = kraft maxCodeLen (entries.take i) ∧
    code maxCodeLen (entries.take i) e < 2 ^ e.2 := by
  have bounded := valid.bounded e (List.mem_of_getElem? found)
  have aligned := codeAligned maxCodeLen (shorterBefore valid found)
  refine ⟨aligned, ?_⟩
  have room := Nat.le_trans (kraftPrefix maxCodeLen entries i found) valid.space
  have positive := spanPositive maxCodeLen e
  have widths : 2 ^ maxCodeLen = 2 ^ e.2 * span maxCodeLen e := by
    rw [span, Nat.mul_comm, Nat.pow_sub_mul_pow 2 bounded.2]
  apply Nat.lt_of_mul_lt_mul_right (a := span maxCodeLen e)
  omega

theorem decodeCodeword {table : HuffmanTable} {entries : List (Nat × Nat)} {n i : Nat} {e : Nat × Nat}
    (valid : ValidEntries entries n) (tableFor : TableFor table entries) (found : entries[i]? = some e)
    (usable : e.1 ≠ u16Max) (rest : List Bool) :
    table.decodeSymbol (Bits.window 32 (codeword entries i e ++ rest)) = .ok e := by
  obtain ⟨aligned, bound⟩ := codeBound valid found
  have fifteen : maxCodeLen = 15 := rfl
  have short := (valid.bounded e (List.mem_of_getElem? found)).2
  have value : Bits.window 32 (codeword entries i e ++ rest) =
      code maxCodeLen (entries.take i) e * 2 ^ (32 - e.2) + Bits.window (32 - e.2) rest := by
    rw [Bits.windowAppend _ _ (by simp [codeword]; omega), codeword, Bits.toNatOfNat, Bits.lengthOfNat,
      Nat.mod_eq_of_lt bound]
  have widths : 2 ^ (32 - e.2) = span maxCodeLen e * 2 ^ 17 := by
    rw [span, ← Nat.pow_add]; congr 1; omega
  have low := Bits.windowBound (32 - e.2) rest
  rw [widths] at low
  have cell : Bits.window 32 (codeword entries i e ++ rest) / 2 ^ 17 =
      kraft maxCodeLen (entries.take i) + Bits.window (32 - e.2) rest / 2 ^ 17 := by
    rw [value, widths, ← Nat.mul_assoc, aligned, Nat.mul_comm _ (2 ^ 17), Nat.mul_add_div (by decide)]
  have short' : Bits.window (32 - e.2) rest / 2 ^ 17 < span maxCodeLen e :=
    Nat.div_lt_of_lt_mul (by rwa [Nat.mul_comm] at low)
  rw [decodeSymbolLocated tableFor (Bits.windowBound 32 _), cell,
    locateCell maxCodeLen found (by omega) (by omega)]
  exact if_neg usable

end Openpresser.Huffman
