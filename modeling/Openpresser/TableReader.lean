import Openpresser.PrefixCode
import Openpresser.TableBytes

/-! The table reader on any bytes. It checks how many bytes there are and nothing
else, so `from_lengths` meets whatever the records say. -/
namespace Openpresser.Huffman
open CanonicalCode (code kraft)

/-! `from_lengths` goes through exactly on the lengths it is meant for. -/
structure Orderly (entries : List (Nat × Nat)) : Prop where
  sorted : entries.Pairwise (fun a b => a.2 ≤ b.2)
  distinct : (entries.map Prod.fst).Nodup
  bounded : ∀ e ∈ entries, 0 < e.2 ∧ e.2 ≤ maxCodeLen

theorem orderlyTurn {entries done rest : List (Nat × Nat)} {e : Nat × Nat} (orderly : Orderly entries)
    (split : entries = done ++ e :: rest) : (∀ d ∈ done, d.2 ≤ e.2) ∧ e.1 ∉ rest.map Prod.fst := by
  have sorted := orderly.sorted
  rw [split, List.pairwise_append] at sorted
  have distinct := orderly.distinct
  rw [split, List.map_append, List.nodup_append, List.map_cons, List.nodup_cons] at distinct
  exact ⟨fun d member => sorted.2.2 d member e List.mem_cons_self, distinct.2.1.1⟩

/-- As long as the code space lasts, a code is the canonical one. -/
theorem assignedInTurn {entries before done tail : List (Nat × Nat)} {e : Nat × Nat} (orderly : Orderly entries)
    (split : entries = done ++ (before ++ e :: tail)) (space : kraft maxCodeLen (done ++ before) ≤ 2 ^ maxCodeLen)
    {prevCode prevLen : Nat} (reached : Reached done prevCode prevLen) {encode encode' : Array (Nat × Nat)}
    (run : assignCodes (before ++ e :: tail) encode prevCode prevLen = .ok encode') :
    encode'[e.1]? = some (code maxCodeLen (done ++ before) e, e.2) := by
  induction before generalizing done encode prevCode prevLen with
  | nil =>
    have short := (orderly.bounded e (by simp [split])).2
    obtain ⟨shorter, fresh⟩ := orderlyTurn orderly split
    rw [List.append_nil] at space ⊢
    obtain ⟨sym, len⟩ := e
    rw [List.nil_append, assignCodes, nextCode reached shorter short space, Outcome.okBind, Outcome.bindOk] at run
    obtain ⟨stored, kept, run⟩ := run
    obtain ⟨inside, rfl⟩ := Outcome.storeOk.mp kept
    rw [(assignCodesFrame run).2 _ fresh, Array.getElem?_setIfInBounds_self_of_lt inside]
  | cons d before ih =>
    obtain ⟨positive, short⟩ := orderly.bounded d (by simp [split])
    obtain ⟨shorter, _⟩ := orderlyTurn orderly split
    have room : kraft maxCodeLen done ≤ 2 ^ maxCodeLen := by
      rw [CanonicalCode.kraftAppend] at space
      omega
    obtain ⟨sym, len⟩ := d
    rw [List.cons_append, assignCodes, nextCode reached shorter short room, Outcome.okBind, Outcome.bindOk] at run
    obtain ⟨stored, _, run⟩ := run
    have split' : entries = done ++ [(sym, len)] ++ (before ++ e :: tail) := by simp [split]
    have space' : kraft maxCodeLen (done ++ [(sym, len)] ++ before) ≤ 2 ^ maxCodeLen := by simpa using space
    have found := ih split' space' (reachedNext shorter positive) run
    rwa [List.append_assoc, List.singleton_append] at found

theorem fillEntryInside {encode cells cells' : Array (Nat × Nat)} {e : Nat × Nat} (proper : ProperCells cells)
    (positive : 0 < e.2) (run : fillEntry encode cells e = .ok cells') :
    e.2 ≤ maxCodeLen ∧ ∃ coded, encode[e.1]? = some coded ∧
      (coded.1 <<< (maxCodeLen - e.2)) % 2 ^ 64 < 2 ^ maxCodeLen := by
  simp only [fillEntry, Outcome.bindOk] at run
  obtain ⟨coded, found, pad, fits, base, shifted, filled⟩ := run
  obtain ⟨short, rfl⟩ := Outcome.subOk.mp fits
  refine ⟨short, coded, Outcome.indexOk.mp found, ?_⟩
  -- the first of the cells is at `base` itself
  obtain ⟨c, d, keeps, step⟩ := Outcome.foldlMEach proper
    (fun _ _ _ _ keeps step => storeProper keeps ⟨positive, short⟩ step) filled 0
    (List.mem_range.mpr (Nat.two_pow_pos _))
  have inside := (Outcome.storeOk.mp step).1
  rw [Nat.or_zero, keeps.1] at inside
  rw [Outcome.shiftLeft] at shifted
  split at shifted
  · cases Outcome.ok.inj shifted
    exact inside
  · contradiction

theorem fromLengthsRuns {lengthsMap : List Nat} {table : HuffmanTable} (run : fromLengths lengthsMap = .ok table) :
    ∃ encode, assignCodes (sortedLengths lengthsMap) (Array.replicate lengthsMap.length (0, 0)) 0 0 = .ok encode ∧
      ∀ e ∈ sortedLengths lengthsMap, e.2 ≤ maxCodeLen ∧ ∃ coded, encode[e.1]? = some coded ∧
        (coded.1 <<< (maxCodeLen - e.2)) % 2 ^ 64 < 2 ^ maxCodeLen := by
  have positive : ∀ e ∈ sortedLengths lengthsMap, 0 < e.2 := fun e member =>
    presentPositive ((sortedPerm lengthsMap).mem_iff.mp member)
  rw [fromLengths, Outcome.bindOk] at run
  obtain ⟨encode, assigned, run⟩ := run
  rw [Outcome.bindOk] at run
  obtain ⟨cells, filled, _⟩ := run
  refine ⟨encode, assigned, fun e member => ?_⟩
  obtain ⟨c, d, proper, step⟩ := Outcome.foldlMEach emptyProper
    (fun c a inside d keeps step => fillEntryProper keeps (positive a inside) step) filled e member
  exact fillEntryInside proper (positive e member) step

/-- A code whose cells start inside the table ends there too: its cells are aligned. -/
theorem roomNext {entries done rest : List (Nat × Nat)} {e coded : Nat × Nat} (orderly : Orderly entries)
    (split : entries = done ++ e :: rest) (space : kraft maxCodeLen done ≤ 2 ^ maxCodeLen)
    {encode encode' : Array (Nat × Nat)} (assigned : assignCodes entries encode 0 0 = .ok encode')
    (found : encode'[e.1]? = some coded) (inside : (coded.1 <<< (maxCodeLen - e.2)) % 2 ^ 64 < 2 ^ maxCodeLen) :
    kraft maxCodeLen (done ++ [e]) ≤ 2 ^ maxCodeLen := by
  obtain ⟨shorter, _⟩ := orderlyTurn orderly split
  have short := (orderly.bounded e (by simp [split])).2
  have aligned := CanonicalCode.codeAligned maxCodeLen shorter
  rw [split] at assigned
  have start : Reached [] 0 0 := .inl ⟨rfl, rfl, rfl⟩
  have whole : entries = [] ++ (done ++ e :: rest) := split
  have turn := assignedInTurn orderly whole space start assigned
  cases Option.some.inj (found.symm.trans turn)
  have width : (2 : Nat) ^ maxCodeLen < 2 ^ 64 := by decide
  have place : code maxCodeLen done e * 2 ^ (maxCodeLen - e.2) < 2 ^ maxCodeLen := by
    have start : code maxCodeLen done e <<< (maxCodeLen - e.2) = kraft maxCodeLen done := by
      rw [Nat.shiftLeft_eq]
      exact aligned
    rw [List.nil_append, start, Nat.mod_eq_of_lt (Nat.lt_of_le_of_lt space width)] at inside
    exact aligned.symm ▸ inside
  have widths : 2 ^ maxCodeLen = 2 ^ e.2 * 2 ^ (maxCodeLen - e.2) := by
    rw [Nat.mul_comm, Nat.pow_sub_mul_pow 2 short]
  rw [widths] at place
  have bound := Nat.lt_of_mul_lt_mul_right place
  have ends := Nat.mul_le_mul_right (2 ^ (maxCodeLen - e.2)) (Nat.succ_le_of_lt bound)
  rw [CanonicalCode.kraftAppend, ← aligned, CanonicalCode.kraftCons, CanonicalCode.kraftNil, Nat.add_zero, widths]
  rwa [Nat.succ_mul] at ends

theorem fromLengthsValid {lengthsMap : List Nat} {table : HuffmanTable} (small : lengthsMap.length ≤ 65536)
    (run : fromLengths lengthsMap = .ok table) : ValidMap lengthsMap := by
  obtain ⟨encode, assigned, cells⟩ := fromLengthsRuns run
  have orderly : Orderly (sortedLengths lengthsMap) :=
    ⟨(sortedOrder lengthsMap).imp (by unfold shorterFirst; omega),
      ((sortedPerm lengthsMap).map Prod.fst).nodup_iff.mpr (presentDistinct small),
      fun e member => ⟨presentPositive ((sortedPerm lengthsMap).mem_iff.mp member), (cells e member).1⟩⟩
  have room (rest done : List (Nat × Nat)) (split : sortedLengths lengthsMap = done ++ rest)
      (space : kraft maxCodeLen done ≤ 2 ^ maxCodeLen) :
      kraft maxCodeLen (sortedLengths lengthsMap) ≤ 2 ^ maxCodeLen := by
    induction rest generalizing done with
    | nil => rwa [split, List.append_nil]
    | cons e rest ih =>
      obtain ⟨_, coded, found, inside⟩ := cells e (by simp [split])
      exact ih (done ++ [e]) (by simp [split]) (roomNext orderly split space assigned found inside)
  refine ⟨small, ?_, ?_⟩
  · intro l member
    obtain ⟨s, bound, rfl⟩ := List.getElem_of_mem member
    by_cases zero : lengthsMap[s] = 0
    · rw [zero]
      exact Nat.zero_le _
    · have entry := (presentMember small).mpr ⟨Nat.pos_of_ne_zero zero, List.getElem?_eq_getElem bound⟩
      exact (cells _ ((sortedPerm lengthsMap).mem_iff.mpr entry)).1
  · rw [← CanonicalCode.kraftPerm maxCodeLen (sortedPerm lengthsMap)]
    exact room _ [] rfl (Nat.zero_le _)

theorem assignCodesQuiet (entries : List (Nat × Nat)) (encode : Array (Nat × Nat)) (code prevLen : Nat) :
    (assignCodes entries encode code prevLen).Quiet := by
  induction entries generalizing encode code prevLen with
  | nil => trivial
  | cons e rest ih =>
    obtain ⟨sym, len⟩ := e
    rw [assignCodes]
    refine Outcome.quietBind ?_ fun next =>
      Outcome.quietBind (Outcome.storeQuiet _ _ _) fun stored => ih stored next len
    split
    · exact Outcome.quietBind (Outcome.addQuiet _ _ _) fun _ =>
        Outcome.quietBind (Outcome.subQuiet _ _) fun _ => Outcome.shiftLeftQuiet _ _ _
    · trivial

theorem fillEntryQuiet (encode cells : Array (Nat × Nat)) (e : Nat × Nat) : (fillEntry encode cells e).Quiet :=
  Outcome.quietBind (Outcome.indexQuiet _ _) fun _ => Outcome.quietBind (Outcome.subQuiet _ _) fun _ =>
    Outcome.quietBind (Outcome.shiftLeftQuiet _ _ _) fun _ =>
      Outcome.foldlMQuiet (fun _ _ => Outcome.storeQuiet _ _ _) _ _

theorem fromLengthsQuiet (lengthsMap : List Nat) : (fromLengths lengthsMap).Quiet :=
  Outcome.quietBind (assignCodesQuiet _ _ _ _) fun _ =>
    Outcome.quietBind (Outcome.foldlMQuiet (fillEntryQuiet _) _ _) fun _ => trivial

theorem fromLengthsCases {lengthsMap : List Nat} (small : lengthsMap.length ≤ 65536) :
    (KraftLengths lengthsMap ∧ ∃ table, fromLengths lengthsMap = .ok table) ∨
      (¬ KraftLengths lengthsMap ∧ fromLengths lengthsMap = .panic) := by
  by_cases lengths : KraftLengths lengthsMap
  · obtain ⟨table, made, _⟩ := fromLengthsTable ((validIff small).mpr lengths)
    exact .inl ⟨lengths, table, made⟩
  · rcases Outcome.quietCases (fromLengthsQuiet lengthsMap) with ⟨table, made⟩ | stopped
    · exact absurd ((validIff small).mp (fromLengthsValid small made)) lengths
    · exact .inr ⟨lengths, stopped⟩

/-! What the bytes say. -/
def announced (data : Bytes) : Nat := LittleEndian.decode (data.take 2)

def Short (data : Bytes) : Prop := data.length < 2 ∨ data.length < 2 + announced data * 3

def record (data : Bytes) (i : Nat) : Nat × Nat :=
  (LittleEndian.decode ((data.drop (2 + i * 3)).take 2), (data.getD (2 + i * 3 + 2) 0).toNat)

def records (data : Bytes) : List (Nat × Nat) := (List.range (announced data)).map (record data)

/-- The length of every symbol there is, zero where no record names it. -/
def resulting (data : Bytes) : List Nat := (List.range 65536).map (lastLength (records data))

theorem readU16Inside {data : Bytes} {start : Nat} (inside : start + 2 ≤ data.length) :
    readU16 data start = .ok (LittleEndian.decode ((data.drop start).take 2)) ∧
      LittleEndian.decode ((data.drop start).take 2) < 65536 := by
  constructor
  · rw [readU16, Outcome.sliceInside (by omega) inside, Outcome.okBind, Nat.add_sub_cancel_left]
  · have bound := LittleEndian.decodeBound ((data.drop start).take 2)
    have two : ((data.drop start).take 2).length = 2 := by
      rw [List.length_take, List.length_drop]
      omega
    rwa [two] at bound

theorem recordsAt {data : Bytes} (long : ¬ Short data) :
    ∀ (i : Nat) (e : Nat × Nat), (records data)[i]? = some e → RecordAt data i e ∧ e.1 < 65536 := by
  intro i e found
  obtain ⟨inside, rfl⟩ := List.getElem?_eq_some_iff.mp found
  have enough := not_or.mp long
  have bound : i < announced data := by simpa [records] using inside
  have last : 2 + i * 3 + 2 < data.length := by omega
  simp only [records, List.getElem_map, List.getElem_range]
  obtain ⟨symbol, small⟩ := readU16Inside (Nat.le_of_lt last)
  refine ⟨⟨symbol, ?_⟩, small⟩
  rw [Outcome.getInside last, record, List.getD_eq_getElem?_getD, List.getElem?_eq_getElem last, Option.getD_some,
    UInt8.ofNat_toNat]

theorem lastLengthSilent {entries : List (Nat × Nat)} {s : Nat} (absent : s ∉ entries.map Prod.fst) :
    lastLength entries s = 0 := by
  induction entries using List.reverseRecOn with
  | nil => rfl
  | append_singleton done e ih =>
    rw [List.map_append, List.mem_append, not_or] at absent
    rw [lastLengthSnoc, ih absent.1, if_neg fun same => absent.2 (by simp [same])]

structure Gathered (data : Bytes) (lengths : Array Nat) : Prop where
  small : lengths.size ≤ 65536
  inside : ∀ s < lengths.size, lengths[s]? = some (lastLength (records data) s)
  beyond : ∀ s, lengths.size ≤ s → lastLength (records data) s = 0

theorem deserialiseGathers {data : Bytes} (long : ¬ Short data) :
    ∃ lengths, Gathered data lengths ∧ deserialiseTable data =
      fromLengths lengths.toList >>= fun table => .ok (table, 2 + announced data * 3) := by
  have enough := not_or.mp long
  have count : readU16 data 0 = .ok (announced data) := (readU16Inside (by omega)).1
  have size : (records data).length = announced data := by simp [records]
  have narrow : ∀ e ∈ records data, e.2 < 256 := by
    intro e member
    obtain ⟨i, _, rfl⟩ := List.mem_map.mp member
    exact UInt8.toNat_lt _
  have symbols : ∀ e ∈ records data, e.1 < 65536 := by
    intro e member
    obtain ⟨i, found⟩ := List.getElem?_of_mem member
    exact (recordsAt long i e found).2
  have room : 2 + (records data).length * 3 ≤ data.length := by omega
  rw [← size] at count
  obtain ⟨lengths, small, below, last, run⟩ := deserialiseReads count room
    (fun i e found => (recordsAt long i e found).1) symbols narrow
  rw [size] at run
  refine ⟨lengths, ⟨small, last, fun s beyond => lastLengthSilent ?_⟩, run⟩
  intro member
  obtain ⟨e, inside, rfl⟩ := List.mem_map.mp member
  have bound := below e inside
  omega

theorem kraftFilter {a b : List Nat} (same : a.filter (0 < ·) = b.filter (0 < ·)) (lengths : KraftLengths a) :
    KraftLengths b where
  bounded := by
    intro l member
    by_cases positive : 0 < l
    · have kept : l ∈ b.filter (0 < ·) := List.mem_filter.mpr ⟨member, decide_eq_true positive⟩
      rw [← same] at kept
      exact lengths.bounded l (List.mem_filter.mp kept).1
    · rw [Nat.eq_zero_of_not_pos positive]
      exact Nat.zero_le _
  space := by
    rw [← same]
    exact lengths.space

theorem gatheredKraft {data : Bytes} {lengths : Array Nat} (gathered : Gathered data lengths) :
    KraftLengths lengths.toList ↔ KraftLengths (resulting data) := by
  have front : lengths.toList = (List.range lengths.size).map (lastLength (records data)) := by
    apply List.ext_getElem?
    intro s
    by_cases bound : s < lengths.size
    · rw [Array.getElem?_toList, gathered.inside s bound, List.getElem?_map, List.getElem?_range bound]
      rfl
    · rw [List.getElem?_eq_none (by rw [Array.length_toList]; omega),
        List.getElem?_eq_none (by rw [List.length_map, List.length_range]; omega)]
  have split : resulting data = lengths.toList ++
      (List.range (65536 - lengths.size)).map (fun s => lastLength (records data) (lengths.size + s)) := by
    have whole : 65536 = lengths.size + (65536 - lengths.size) := by
      have small := gathered.small
      omega
    conv => lhs; rw [resulting, whole, List.range_add, List.map_append, List.map_map]
    rw [front]
    rfl
  have same : (resulting data).filter (0 < ·) = lengths.toList.filter (0 < ·) := by
    rw [split, List.filter_append, List.append_right_eq_self, List.filter_eq_nil_iff]
    intro l member
    obtain ⟨s, _, rfl⟩ := List.mem_map.mp member
    rw [gathered.beyond _ (Nat.le_add_right _ _)]
    decide
  exact ⟨kraftFilter same.symm, kraftFilter same⟩

theorem deserialiseShort {data : Bytes} (short : Short data) : (deserialiseTable data).Fails := by
  by_cases two : 2 ≤ data.length
  · have count : readU16 data 0 = .ok (announced data) := (readU16Inside two).1
    have truncated : ¬ 2 + announced data * 3 ≤ data.length := by
      rcases short with few | few <;> omega
    rw [deserialiseTable, Outcome.ensurePass _ two, Outcome.okBind, count, Outcome.okBind]
    simp only [Outcome.ensureFail _ truncated]
    trivial
  · rw [deserialiseTable, Outcome.ensureFail _ two]
    trivial

/-! What the reader should make of any bytes, and when it does. -/
def Decodable (data : Bytes) : Prop :=
  ¬ Short data ∧ (∀ e ∈ records data, e.2 ≤ maxCodeLen) ∧ KraftLengths (resulting data)

structure SafeRead (data : Bytes) : Prop where
  returns : (deserialiseTable data).Returns
  accepted : ∀ table consumed, deserialiseTable data = .ok (table, consumed) → Decodable data
  rejected : ¬ Decodable data → (deserialiseTable data).Fails

/-- A table of the announced size is read if its lengths make a code, and stops the program if they do not. -/
theorem deserialiseSafe (data : Bytes) :
    (SafeRead data ↔
      Short data ∨ ((∀ e ∈ records data, e.2 ≤ maxCodeLen) ∧ KraftLengths (resulting data))) ∧
    (deserialiseTable data = .panic ↔ ¬ Short data ∧ ¬ KraftLengths (resulting data)) := by
  by_cases short : Short data
  · obtain ⟨e, failed⟩ := Outcome.failsIff.mp (deserialiseShort short)
    refine ⟨⟨fun _ => .inl short, fun _ => ⟨by rw [failed]; trivial, ?_, fun _ => by rw [failed]; trivial⟩⟩, ?_⟩
    · intro table consumed read
      rw [failed] at read
      contradiction
    · rw [failed]
      exact ⟨fun stopped => by contradiction, fun apart => absurd short apart.1⟩
  obtain ⟨lengths, gathered, run⟩ := deserialiseGathers short
  have kraft := gatheredKraft gathered
  rcases fromLengthsCases (Array.length_toList ▸ gathered.small) with ⟨fits, table, made⟩ | ⟨excess, stopped⟩
  · rw [made, Outcome.okBind] at run
    have result := kraft.mp fits
    refine ⟨⟨fun safe => .inr (safe.accepted _ _ run).2, ?_⟩, ?_⟩
    · rintro (few | bounded)
      · exact absurd few short
      · have decodable : Decodable data := ⟨short, bounded⟩
        exact ⟨by rw [run]; trivial, fun _ _ _ => decodable, fun not => absurd decodable not⟩
    · rw [run]
      exact ⟨fun stopped => by contradiction, fun apart => absurd result apart.2⟩
  · rw [stopped, Outcome.panicBind] at run
    refine ⟨⟨fun safe => ?_, ?_⟩, ?_⟩
    · have returns := safe.returns
      rw [run] at returns
      exact absurd returns id
    · rintro (few | bounded)
      · exact absurd few short
      · exact absurd (kraft.mpr bounded.2) excess
    · exact ⟨fun _ => ⟨short, fun fits => excess (kraft.mpr fits)⟩, fun _ => run⟩

theorem overlongLengthPanics : deserialiseTable [1, 0, 65, 0, 16] = .panic ∧ ¬ SafeRead [1, 0, 65, 0, 16] := by
  have run : deserialiseTable [1, 0, 65, 0, 16] = .panic := rfl
  refine ⟨run, fun safe => ?_⟩
  have returns := safe.returns
  rw [run] at returns
  exact returns

end Openpresser.Huffman
