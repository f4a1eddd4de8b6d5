import Openpresser.CodeTable
import Mathlib.Data.List.Induction

/-! The table on the wire. Reading back a written table rebuilds the same code;
any table that is read at all has a full decode table of proper lengths. -/
namespace Openpresser.Huffman

def recordBytes (e : Nat × Nat) : Bytes := LittleEndian.encode 2 e.1 ++ [UInt8.ofNat e.2]

theorem serialiseTableEq (table : HuffmanTable) :
    serialiseTable table =
      LittleEndian.encode 2 (table.lengths.length % 65536) ++ table.lengths.flatMap recordBytes := rfl

theorem lengthRecords (entries : List (Nat × Nat)) :
    (entries.flatMap recordBytes).length = 3 * entries.length := by
  induction entries with
  | nil => rfl
  | cons e entries ih => simp [recordBytes] at ih ⊢; omega

theorem lengthSerialiseTable (table : HuffmanTable) :
    (serialiseTable table).length = 2 + 3 * table.lengths.length := by
  rw [serialiseTableEq, List.length_append, lengthRecords, LittleEndian.lengthEncode]

theorem readU16At (pre : Bytes) (v : Nat) (post : Bytes) (start : Nat) (place : pre.length = start)
    (small : v < 65536) : readU16 (pre ++ LittleEndian.encode 2 v ++ post) start = .ok v := by
  have found := Outcome.sliceMiddle (ε := EngineError) pre (LittleEndian.encode 2 v) post
  rw [LittleEndian.lengthEncode, place] at found
  rw [readU16, found, Outcome.okBind, LittleEndian.decodeEncodeBounded (by exact small)]

theorem recordSplit {entries : List (Nat × Nat)} {i : Nat} {e : Nat × Nat} (found : entries[i]? = some e)
    (count : Nat) (rest : Bytes) :
    ∃ pre post, LittleEndian.encode 2 count ++ entries.flatMap recordBytes ++ rest =
      pre ++ recordBytes e ++ post ∧ pre.length = 2 + i * 3 := by
  obtain ⟨inside, rfl⟩ := List.getElem?_eq_some_iff.mp found
  have split : entries = entries.take i ++ entries[i] :: entries.drop (i + 1) := by
    rw [List.getElem_cons_drop, List.take_append_drop]
  refine ⟨LittleEndian.encode 2 count ++ (entries.take i).flatMap recordBytes,
    (entries.drop (i + 1)).flatMap recordBytes ++ rest, ?_, ?_⟩
  · have bytes : entries.flatMap recordBytes = (entries.take i).flatMap recordBytes ++
        (recordBytes entries[i] ++ (entries.drop (i + 1)).flatMap recordBytes) := by
      rw [← List.flatMap_cons, ← List.flatMap_append, ← split]
    rw [bytes]
    simp only [List.append_assoc]
  · rw [List.length_append, lengthRecords, List.length_take, LittleEndian.lengthEncode,
      Nat.min_eq_left (by omega), Nat.mul_comm]

structure RecordAt (data : Bytes) (i : Nat) (e : Nat × Nat) : Prop where
  symbol : readU16 data (2 + i * 3) = .ok e.1
  length : (Outcome.get data (2 + i * 3 + 2) : Result UInt8) = .ok (UInt8.ofNat e.2)

theorem recordAt {entries : List (Nat × Nat)} {i : Nat} {e : Nat × Nat} (found : entries[i]? = some e)
    (small : e.1 < 65536) (count : Nat) (rest : Bytes) :
    RecordAt (LittleEndian.encode 2 count ++ entries.flatMap recordBytes ++ rest) i e := by
  obtain ⟨pre, post, bytes, place⟩ := recordSplit found count rest
  rw [bytes]
  constructor
  · have h := readU16At pre e.1 ([UInt8.ofNat e.2] ++ post) _ place small
    simpa [recordBytes] using h
  · apply Outcome.getFound
    rw [List.append_assoc, List.getElem?_append_right (by omega), place, Nat.add_sub_cancel_left, recordBytes,
      List.append_assoc, List.getElem?_append_right (by simp)]
    simp

theorem largestFound {data : Bytes} {entries : List (Nat × Nat)} {bound : Nat}
    (records : ∀ (i : Nat) (e : Nat × Nat), entries[i]? = some e → RecordAt data i e)
    (below : ∀ e ∈ entries, e.1 < bound) :
    ∃ m, (List.range entries.length).foldlM (largestSymbol data) 0 = .ok m ∧ (m < bound ∨ m = 0) ∧
      ∀ e ∈ entries, e.1 ≤ m := by
  obtain ⟨m, run, small, above⟩ := Outcome.foldlMRange (f := largestSymbol data)
    (I := fun i m => (m < bound ∨ m = 0) ∧ ∀ e ∈ entries.take i, e.1 ≤ m) entries.length (b := 0)
    ⟨.inr rfl, by simp⟩ (by
      rintro i inside m ⟨small, above⟩
      have record := records i entries[i] (List.getElem?_eq_getElem inside)
      have here := below entries[i] (List.getElem_mem inside)
      refine ⟨if entries[i].1 > m then entries[i].1 else m, by
        rw [largestSymbol, record.symbol, Outcome.okBind], ?_, ?_⟩
      · split
        · exact .inl here
        · exact small
      · intro e member
        rw [← List.take_concat_get' entries i inside] at member
        rcases List.mem_append.mp member with early | last
        · have h := above e early
          split <;> omega
        · rw [List.mem_singleton.mp last]
          split <;> omega)
  rw [List.take_length] at above
  exact ⟨m, run, small, above⟩

/-! The last record of a symbol gives its length. -/
def lastLength (records : List (Nat × Nat)) (s : Nat) : Nat :=
  records.foldl (fun l e => if e.1 = s then e.2 else l) 0

theorem lastLengthSnoc (done : List (Nat × Nat)) (e : Nat × Nat) (s : Nat) :
    lastLength (done ++ [e]) s = if e.1 = s then e.2 else lastLength done s := by
  rw [lastLength, List.foldl_append]
  rfl

theorem lengthsLast {data : Bytes} {entries : List (Nat × Nat)} {n : Nat}
    (records : ∀ (i : Nat) (e : Nat × Nat), entries[i]? = some e → RecordAt data i e)
    (inside : ∀ e ∈ entries, e.1 < n) (narrow : ∀ e ∈ entries, e.2 < 256) :
    ∃ lengths, (List.range entries.length).foldlM (recordLength data) (Array.replicate n 0) = .ok lengths ∧
      lengths.size = n ∧ ∀ s < n, lengths[s]? = some (lastLength entries s) := by
  obtain ⟨lengths, run, size, last⟩ := Outcome.foldlMRange (f := recordLength data)
    (I := fun i lengths => Array.size lengths = n ∧ ∀ s < n, lengths[s]? = some (lastLength (entries.take i) s))
    entries.length (b := Array.replicate n 0)
    ⟨Array.size_replicate, fun s bound => by rw [Array.getElem?_replicate, if_pos bound]; rfl⟩ (by
    rintro i bound lengths ⟨size, last⟩
    have record := records i entries[i] (List.getElem?_eq_getElem bound)
    have member : entries[i] ∈ entries := List.getElem_mem bound
    have within : entries[i].1 < lengths.size := size ▸ inside entries[i] member
    have value : (UInt8.ofNat entries[i].2).toNat = entries[i].2 :=
      UInt8.toNat_ofNat_of_lt' (narrow entries[i] member)
    refine ⟨lengths.setIfInBounds entries[i].1 entries[i].2, ?_, by simpa using size, fun s bound' => ?_⟩
    · simp only [recordLength, record.symbol, record.length, Outcome.okBind, if_pos within, value,
        Outcome.storeInside _ within]
    · rw [← List.take_concat_get' entries i bound, lastLengthSnoc]
      by_cases same : entries[i].1 = s
      · rw [if_pos same, ← same, Array.getElem?_setIfInBounds_self_of_lt within]
      · rw [if_neg same, Array.getElem?_setIfInBounds_ne same, last s bound'])
  rw [List.take_length] at last
  exact ⟨lengths, run, size, last⟩

theorem lastDistinct {entries : List (Nat × Nat)} (distinct : (entries.map Prod.fst).Nodup) (s l : Nat) :
    lastLength entries s = l ↔ (s, l) ∈ entries ∨ (s ∉ entries.map Prod.fst ∧ l = 0) := by
  induction entries using List.reverseRecOn with
  | nil => simp [lastLength, eq_comm]
  | append_singleton done e ih =>
    rw [List.map_append, List.nodup_append] at distinct
    have fresh : e.1 ∉ done.map Prod.fst := fun early => distinct.2.2 e.1 early e.1 (by simp) rfl
    rw [lastLengthSnoc]
    by_cases same : e.1 = s
    · have absent : (s, l) ∉ done := fun member => fresh (List.mem_map.mpr ⟨(s, l), member, same.symm⟩)
      simp [same, absent, Prod.ext_iff, eq_comm]
    · have other : ¬ (s, l) = e := fun h => same (congrArg Prod.fst h).symm
      rw [if_neg same, ih distinct.1]
      simp [other, Ne.symm same]

/-! What the reader makes of the records, whatever they say. -/
theorem deserialiseReads {data : Bytes} {entries : List (Nat × Nat)}
    (count : readU16 data 0 = .ok entries.length) (room : 2 + entries.length * 3 ≤ data.length)
    (records : ∀ (i : Nat) (e : Nat × Nat), entries[i]? = some e → RecordAt data i e)
    (symbols : ∀ e ∈ entries, e.1 < 65536) (narrow : ∀ e ∈ entries, e.2 < 256) :
    ∃ lengths : Array Nat, lengths.size ≤ 65536 ∧ (∀ e ∈ entries, e.1 < lengths.size) ∧
      (∀ s < lengths.size, lengths[s]? = some (lastLength entries s)) ∧
      deserialiseTable data = fromLengths lengths.toList >>= fun table => .ok (table, 2 + entries.length * 3) := by
  -- how many symbols the map has room for
  obtain ⟨n, extent, small, below⟩ : ∃ n, (if entries.length = 0 then .ok 0 else do
        let m ← (List.range entries.length).foldlM (largestSymbol data) 0
        .ok (m + 1) : Result Nat) = .ok n ∧ n ≤ 65536 ∧ ∀ e ∈ entries, e.1 < n := by
    by_cases empty : entries.length = 0
    · refine ⟨0, if_pos empty, by decide, fun e member => ?_⟩
      rw [List.length_eq_zero_iff.mp empty] at member
      contradiction
    · obtain ⟨m, largest, bound, above⟩ := largestFound records symbols
      exact ⟨m + 1, by rw [if_neg empty, largest, Outcome.okBind], by omega,
        fun e member => Nat.lt_succ_of_le (above e member)⟩
  obtain ⟨lengths, run, rfl, last⟩ := lengthsLast records below narrow
  refine ⟨lengths, small, below, last, ?_⟩
  rw [deserialiseTable, Outcome.ensurePass _ (by omega), Outcome.okBind, count, Outcome.okBind]
  simp only [Outcome.ensurePass _ room, extent, run, Outcome.okBind]

def Stored (lengths : Array Nat) (done : List (Nat × Nat)) : Prop :=
  ∀ s < lengths.size, ∀ l, lengths[s]? = some l ↔ (s, l) ∈ done ∨ (s ∉ done.map Prod.fst ∧ l = 0)

theorem lastStored {entries : List (Nat × Nat)} {lengths : Array Nat} (distinct : (entries.map Prod.fst).Nodup)
    (last : ∀ s < lengths.size, lengths[s]? = some (lastLength entries s)) : Stored lengths entries := by
  intro s bound l
  rw [last s bound, Option.some.injEq, lastDistinct distinct]

instance : Std.Antisymm shorterFirst :=
  ⟨fun a b h h' => by unfold shorterFirst at h h'; exact Prod.ext (by omega) (by omega)⟩

theorem sortedLengthsEq {a b : List Nat} (perm : (present a).Perm (present b)) :
    sortedLengths a = sortedLengths b :=
  List.Perm.eq_of_pairwise' (sortedOrder a) (sortedOrder b)
    ((sortedPerm a).trans (perm.trans (sortedPerm b).symm))

theorem storedPresent {lengths : Array Nat} {lengthsMap : List Nat} (valid : ValidMap lengthsMap)
    (small : lengths.size ≤ 65536) (inside : ∀ e ∈ sortedLengths lengthsMap, e.1 < lengths.size)
    (stored : Stored lengths (sortedLengths lengthsMap)) :
    (present lengths.toList).Perm (present lengthsMap) := by
  refine (List.perm_ext_iff_of_nodup (presentDistinct (by simpa using small)).of_map
    (presentDistinct valid.small).of_map).mpr ?_
  rintro ⟨s, l⟩
  have order := (sortedPerm lengthsMap).mem_iff (a := (s, l))
  rw [presentMember (by simpa using small), ← order, Array.getElem?_toList]
  constructor
  · rintro ⟨positive, found⟩
    have bound := (Array.getElem?_eq_some_iff.mp found).1
    rcases (stored s bound l).mp found with member | ⟨_, zero⟩
    · exact member
    · omega
  · intro member
    exact ⟨((validEntries valid).bounded _ member).1, (stored s (inside _ member) l).mpr (.inl member)⟩

theorem storedValid {lengths : Array Nat} {lengthsMap : List Nat} (valid : ValidMap lengthsMap)
    (small : lengths.size ≤ 65536) (inside : ∀ e ∈ sortedLengths lengthsMap, e.1 < lengths.size)
    (stored : Stored lengths (sortedLengths lengthsMap)) : ValidMap lengths.toList where
  small := by simpa using small
  bounded := by
    intro l member
    obtain ⟨s, bound, rfl⟩ := List.getElem_of_mem member
    rw [Array.length_toList] at bound
    rcases (stored s bound lengths[s]).mp (Array.getElem?_eq_getElem bound) with found | ⟨_, zero⟩
    · exact ((validEntries valid).bounded _ found).2
    · rw [Array.getElem_toList, zero]
      exact Nat.zero_le _
  space := by
    rw [CanonicalCode.kraftPerm maxCodeLen (storedPresent valid small inside stored)]
    exact valid.space

theorem deserialiseSerialised {table : HuffmanTable} {lengthsMap : List Nat} (valid : ValidMap lengthsMap)
    (lengths : table.lengths = sortedLengths lengthsMap)
    (few : (sortedLengths lengthsMap).length < 65536) (rest : Bytes) :
    ∃ table', deserialiseTable (serialiseTable table ++ rest) = .ok (table', (serialiseTable table).length) ∧
      TableFor table' (sortedLengths lengthsMap) := by
  have entries := validEntries valid
  have narrow : ∀ e ∈ sortedLengths lengthsMap, e.2 < 256 := fun e member =>
    Nat.lt_of_le_of_lt (entries.bounded e member).2 (by decide)
  have size := lengthSerialiseTable table
  have bytes : serialiseTable table ++ rest = LittleEndian.encode 2 (sortedLengths lengthsMap).length ++
      (sortedLengths lengthsMap).flatMap recordBytes ++ rest := by
    rw [serialiseTableEq, lengths, Nat.mod_eq_of_lt few]
  have room : 2 + (sortedLengths lengthsMap).length * 3 ≤ (serialiseTable table ++ rest).length := by
    rw [List.length_append, size, lengths]
    omega
  have count : readU16 (serialiseTable table ++ rest) 0 = .ok (sortedLengths lengthsMap).length := by
    rw [bytes, List.append_assoc]
    exact readU16At [] _ _ 0 rfl few
  have symbols : ∀ e ∈ sortedLengths lengthsMap, e.1 < 65536 := fun e member =>
    Nat.lt_of_lt_of_le (entries.inside e member) valid.small
  have records : ∀ (i : Nat) (e : Nat × Nat), (sortedLengths lengthsMap)[i]? = some e →
      RecordAt (serialiseTable table ++ rest) i e := by
    intro i e found
    rw [bytes]
    exact recordAt found (symbols e (List.mem_of_getElem? found)) _ rest
  obtain ⟨stored, small, below, last, run⟩ := deserialiseReads count room records symbols narrow
  have same := lastStored entries.distinct last
  obtain ⟨table', made, tableFor⟩ := fromLengthsTable (storedValid valid small below same)
  rw [sortedLengthsEq (storedPresent valid small below same)] at tableFor
  refine ⟨table', ?_, tableFor⟩
  rw [run, made, Outcome.okBind, size, lengths, Nat.mul_comm]

theorem soleRead (sym : Nat) (small : sym < 65536) (rest : Bytes) :
    ∃ table, deserialiseTable ([1, 0] ++ recordBytes (sym, 1) ++ rest) = .ok (table, 5) ∧
      TableFor table [(sym, 1)] := by
  obtain ⟨table, _, tableFor⟩ := fromLengthsTable (soleValid small)
  obtain ⟨table', read, tableFor'⟩ := deserialiseSerialised (soleValid small) tableFor.lengths
    (by rw [soleSorted small, List.length_singleton]; decide) rest
  have count : LittleEndian.encode 2 (1 % 65536) = [1, 0] := by decide
  rw [soleSorted small] at tableFor tableFor'
  rw [lengthSerialiseTable, serialiseTableEq, tableFor.lengths, List.flatMap_singleton, List.length_singleton,
    count] at read
  exact ⟨table', read, tableFor'⟩

/-! Any table the reader returns. -/
def ProperCells (cells : Array (Nat × Nat)) : Prop :=
  cells.size = 2 ^ maxCodeLen ∧
  ∀ (word : Nat) (e : Nat × Nat), cells[word]? = some e → e = (u16Max, 0) ∨ (0 < e.2 ∧ e.2 ≤ maxCodeLen)

theorem presentPositive {lengthsMap : List Nat} {e : Nat × Nat} (member : e ∈ present lengthsMap) : 0 < e.2 := by
  obtain ⟨p, hp, rfl⟩ := List.mem_map.mp member
  simpa using (List.mem_filter.mp hp).2

theorem storeProper {cells cells' : Array (Nat × Nat)} {place : Nat} {e : Nat × Nat} (proper : ProperCells cells)
    (length : 0 < e.2 ∧ e.2 ≤ maxCodeLen) (run : (Outcome.store cells place e : Result _) = .ok cells') :
    ProperCells cells' := by
  obtain ⟨inside, rfl⟩ := Outcome.storeOk.mp run
  refine ⟨by simpa using proper.1, fun word e' found => ?_⟩
  by_cases here : place = word
  · rw [← here, Array.getElem?_setIfInBounds_self_of_lt inside] at found
    exact .inr (Option.some.inj found ▸ length)
  · rw [Array.getElem?_setIfInBounds_ne here] at found
    exact proper.2 word e' found

theorem fillEntryProper {encode cells cells' : Array (Nat × Nat)} {e : Nat × Nat} (proper : ProperCells cells)
    (positive : 0 < e.2) (run : fillEntry encode cells e = .ok cells') : ProperCells cells' := by
  simp only [fillEntry, Outcome.bindOk] at run
  obtain ⟨coded, _, pad, fits, base, _, filled⟩ := run
  have short := (Outcome.subOk.mp fits).1
  exact Outcome.foldlMPreserves proper (fun _ _ _ _ keeps step => storeProper keeps ⟨positive, short⟩ step) filled

theorem emptyProper : ProperCells (Array.replicate (2 ^ maxCodeLen) (u16Max, 0)) := by
  refine ⟨Array.size_replicate, fun word e found => ?_⟩
  rw [Array.getElem?_replicate] at found
  split at found
  · exact .inl (Option.some.inj found).symm
  · contradiction

theorem fromLengthsProper {lengthsMap : List Nat} {table : HuffmanTable}
    (run : fromLengths lengthsMap = .ok table) : ProperCells table.decodeTable := by
  simp only [fromLengths, Outcome.bindOk] at run
  obtain ⟨encode, _, cells, filled, same⟩ := run
  cases Outcome.ok.inj same
  exact Outcome.foldlMPreserves emptyProper (fun _ _ member _ keeps step =>
    fillEntryProper keeps (presentPositive ((sortedPerm lengthsMap).mem_iff.mp member)) step) filled

theorem deserialiseProper {data : Bytes} {table : HuffmanTable} {consumed : Nat}
    (run : deserialiseTable data = .ok (table, consumed)) : ProperCells table.decodeTable := by
  simp only [deserialiseTable, Outcome.bindOk] at run
  obtain ⟨_, _, _, _, _, _, _, _, lengths, _, table', made, same⟩ := run
  cases Outcome.ok.inj same
  exact fromLengthsProper made

theorem tableForProper {table : HuffmanTable} {entries : List (Nat × Nat)} {n : Nat} (valid : ValidEntries entries n)
    (tableFor : TableFor table entries) : ProperCells table.decodeTable := by
  refine ⟨tableFor.size, fun word e found => ?_⟩
  have inside := (Array.getElem?_eq_some_iff.mp found).1
  rw [tableFor.size] at inside
  rw [tableFor.decode word inside, Option.some.injEq] at found
  cases place : CanonicalCode.locate maxCodeLen 0 entries word with
  | none =>
    rw [place] at found
    exact .inl found.symm
  | some e' =>
    rw [place] at found
    obtain rfl : e' = e := found
    exact .inr (valid.bounded e' (CanonicalCode.locateMember maxCodeLen place))

theorem decodeSymbolProper {table : HuffmanTable} (proper : ProperCells table.decodeTable) {word : Nat}
    (bound : word < 2 ^ 32) :
    (∃ e, table.decodeSymbol word = .ok e ∧ 0 < e.2 ∧ e.2 ≤ maxCodeLen) ∨
      table.decodeSymbol word = .err (.decompressError "invalid Huffman code") := by
  have shift : word >>> (32 - maxCodeLen) = word / 2 ^ 17 := Nat.shiftRight_eq_div_pow word 17
  have inside : word / 2 ^ 17 < table.decodeTable.size := by
    have fifteen : 2 ^ maxCodeLen = 32768 := rfl
    rw [proper.1]
    omega
  have found := Array.getElem?_eq_getElem inside
  rw [HuffmanTable.decodeSymbol, shift, Outcome.indexInside inside, Outcome.okBind]
  rcases proper.2 _ _ found with reserved | length
  · rw [reserved]
    exact .inr rfl
  · by_cases reserved : table.decodeTable[word / 2 ^ 17].1 = u16Max
    · exact .inr (by rw [Outcome.ensureFail _ (by simpa using reserved), Outcome.errBind])
    · exact .inl ⟨_, by rw [Outcome.ensurePass _ reserved, Outcome.okBind], length⟩

end Openpresser.Huffman
