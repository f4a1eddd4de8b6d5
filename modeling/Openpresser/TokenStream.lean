import Openpresser.BitStream
import Openpresser.CodeLengths
import Openpresser.TableBytes
import Mathlib.Algebra.BigOperators.Group.Finset.Basic

/-! Token streams. The decoder is first stripped of its reader and run on a plain
bit string; an encoded stream is then a bit string that it takes apart again. -/
namespace Openpresser.Huffman
open Lz (Token)
open CanonicalCode (code)

def decodeBits (table : HuffmanTable) : Nat → List Bool → Result (List Token)
  | 0, _ => .diverge
  | iterations+1, bits => do
    let (sym, len) ← table.decodeSymbol (Bits.window 32 bits)
    let bits := bits.drop len
    if sym = eob then .ok []
    else if sym < 256 then do
      let tokens ← decodeBits table iterations bits
      .ok (.literal (UInt8.ofNat sym) :: tokens)
    else do
      Outcome.ensure (16 ≤ bits.length) (.decompressError "unexpected end of bitstream")
      let tokens ← decodeBits table iterations (bits.drop 16)
      .ok (.matched (UInt16.ofNat (Bits.toNat (bits.take 16))) (UInt16.ofNat ((sym - 256) % 65536)) :: tokens)

theorem decodeLoopBits {table : HuffmanTable} (proper : ProperCells table.decodeTable) (iterations : Nat)
    {br : BitReader} (sound : br.Sound) :
    decodeLoop table iterations br = decodeBits table iterations br.unread := by
  induction iterations generalizing br with
  | zero => rfl
  | succ iterations ih =>
    obtain ⟨peeked, peek, refilled⟩ := BitReader.peek32Window br sound
    rw [decodeLoop, decodeBits, peek, Outcome.okBind]
    rcases decodeSymbolProper proper (Bits.windowBound 32 br.unread) with ⟨⟨sym, len⟩, found, _, short⟩ | failed
    · have narrow : len ≤ 32 := Nat.le_trans short (by decide)
      obtain ⟨rest, consumed, sound', unread⟩ := BitReader.consumeDrops refilled len narrow
      simp only [found, Outcome.okBind, consumed]
      by_cases stop : sym = eob
      · rw [if_pos stop, if_pos stop]
      rw [if_neg stop, if_neg stop]
      by_cases literal : sym < 256
      · rw [if_pos literal, if_pos literal, ih sound', unread]
      rw [if_neg literal, if_neg literal, ← unread]
      by_cases enough : 16 ≤ rest.unread.length
      · obtain ⟨next, taken, sound'', unread'⟩ :=
          BitReader.readBitsTakes rest sound' 16 (by decide) (by decide) enough
        simp only [taken, Outcome.okBind, BitReader.orReturn, Outcome.ensurePass _ enough, ih sound'', unread']
      · obtain ⟨_, refused, _⟩ := BitReader.readBitsShort rest sound' 16 (by omega)
        simp only [refused, Outcome.okBind, BitReader.orReturn, Outcome.ensureFail _ enough, Outcome.errBind]
    · simp only [failed, Outcome.errBind]

theorem decodeTokensBits {table : HuffmanTable} (proper : ProperCells table.decodeTable) (bitstream : Bytes)
    (capacity : Nat) :
    decodeTokens table bitstream capacity = decodeBits table (8 * bitstream.length + 1) (Bits.ofBytes bitstream) :=
  decodeLoopBits proper _ (BitReader.newSound bitstream)

/-! What the encoder writes. -/
def symbolBits (table : HuffmanTable) (sym : Nat) : List Bool :=
  match table.encode[sym]? with
  | some (code, len) => Bits.ofNat len code
  | none => []

def distanceBits : Token → List Bool
  | .literal _ => []
  | .matched distance _ => Bits.ofNat 16 distance.toNat

def tokenBits (table : HuffmanTable) (tok : Token) : List Bool :=
  symbolBits table (symbolOf tok) ++ distanceBits tok

def streamBits (table : HuffmanTable) (tokens : List Token) : List Bool :=
  tokens.flatMap (tokenBits table) ++ symbolBits table eob

def HasCode (table : HuffmanTable) (sym : Nat) : Prop :=
  ∃ code len, table.encode[sym]? = some (code, len) ∧ 0 < len ∧ len ≤ maxCodeLen

theorem writeSymbol {table : HuffmanTable} {sym : Nat} (coded : HasCode table sym) {bw : BitWriter}
    (pending : bw.bits < 8) :
    ∃ bw', (table.encodeSymbol sym >>= fun e => bw.writeBits e.1 e.2) = .ok bw' ∧ bw'.bits < 8 ∧
      bw'.written = bw.written ++ symbolBits table sym := by
  obtain ⟨code, len, found, _, short⟩ := coded
  obtain ⟨bw', run, small, written⟩ := bw.writeBitsWritten code len pending (Nat.le_trans short (by decide))
  exact ⟨bw', by rw [HuffmanTable.encodeSymbol, Outcome.indexOk.mpr found, Outcome.okBind, run], small,
    by rw [written, symbolBits, found]⟩

theorem writeTokenWritten {table : HuffmanTable} {tok : Token} (coded : HasCode table (symbolOf tok))
    (small : symbolOf tok < 65536) {bw : BitWriter} (pending : bw.bits < 8) :
    ∃ bw', writeToken table bw tok = .ok bw' ∧ bw'.bits < 8 ∧
      bw'.written = bw.written ++ tokenBits table tok := by
  obtain ⟨mid, run, pending', written⟩ := writeSymbol coded pending
  have first (f : BitWriter → Result BitWriter) :
      (table.encodeSymbol (symbolOf tok) >>= fun e => bw.writeBits e.1 e.2 >>= f) = f mid := by
    rw [← bind_assoc, run, Outcome.okBind]
  cases tok with
  | literal b =>
    refine ⟨mid, ?_, pending', by rw [written, tokenBits, distanceBits, List.append_nil]⟩
    rw [writeToken, Nat.mod_eq_of_lt small]
    exact first _
  | matched distance length =>
    obtain ⟨last, run', pending'', written'⟩ := mid.writeBitsWritten distance.toNat 16 pending' (by decide)
    refine ⟨last, ?_, pending'', by rw [written', written, tokenBits, distanceBits, List.append_assoc]⟩
    rw [writeToken, Nat.mod_eq_of_lt small]
    exact (first _).trans run'

theorem writeTokensWritten (table : HuffmanTable) {tokens : List Token}
    (coded : ∀ tok ∈ tokens, HasCode table (symbolOf tok)) (small : ∀ tok ∈ tokens, symbolOf tok < 65536) :
    ∃ bw, tokens.foldlM (writeToken table) BitWriter.new = .ok bw ∧ bw.bits < 8 ∧
      bw.written = tokens.flatMap (tokenBits table) := by
  obtain ⟨bw, run, pending, written⟩ := Outcome.foldlMInvariant (f := writeToken table)
    (I := fun done bw => BitWriter.bits bw < 8 ∧ bw.written = done.flatMap (tokenBits table)) tokens
    (b := BitWriter.new) ⟨by decide, rfl⟩ (by
      rintro done tok rest bw split ⟨pending, written⟩
      have member : tok ∈ tokens := by rw [split]; simp
      obtain ⟨bw', step, pending', written'⟩ := writeTokenWritten (coded tok member) (small tok member) pending
      exact ⟨bw', step, pending', by rw [written', written, List.flatMap_append, List.flatMap_singleton]⟩)
  exact ⟨bw, run, pending, written⟩

/-! Counting symbols. -/
def Counted (freqs : Array Nat) (syms : List Nat) : Prop :=
  freqs.size = eob + 1 ∧ ∀ s < eob + 1, freqs[s]? = some (syms.count s)

theorem countedNext {freqs : Array Nat} {syms : List Nat} {s : Nat} (counted : Counted freqs syms)
    (inside : s < eob + 1) :
    (Outcome.index freqs s : Result Nat) = .ok (syms.count s) ∧
    (Outcome.store freqs s (syms.count s + 1) : Result (Array Nat)) =
      .ok (freqs.setIfInBounds s (syms.count s + 1)) ∧
    Counted (freqs.setIfInBounds s (syms.count s + 1)) (syms ++ [s]) := by
  have within : s < freqs.size := counted.1 ▸ inside
  refine ⟨Outcome.indexOk.mpr (counted.2 s inside), Outcome.storeInside _ within, by simpa using counted.1, ?_⟩
  intro t bound
  by_cases same : s = t
  · rw [← same, Array.getElem?_setIfInBounds_self_of_lt within, List.count_append]
    simp
  · rw [Array.getElem?_setIfInBounds_ne same, counted.2 t bound, List.count_append]
    simp [same]

theorem countTokensCounted {tokens : List Token} (small : ∀ tok ∈ tokens, symbolOf tok < eob) :
    ∃ freqs, tokens.foldlM countToken (Array.replicate (eob + 1) 0) = .ok freqs ∧
      Counted freqs (tokens.map symbolOf) := by
  refine Outcome.foldlMInvariant (I := fun done freqs => Counted freqs (done.map symbolOf)) tokens
    ⟨Array.size_replicate, fun s bound => by rw [Array.getElem?_replicate, if_pos bound]; rfl⟩ ?_
  intro done tok rest freqs split counted
  have bound : symbolOf tok < eob + 1 := Nat.lt_succ_of_lt (small tok (by rw [split]; simp))
  obtain ⟨found, stored, next⟩ := countedNext counted bound
  refine ⟨_, by rw [countToken, found, Outcome.okBind, stored], ?_⟩
  rw [List.map_append]
  exact next

theorem countedFrequencies {freqs : Array Nat} {syms : List Nat} (counted : Counted freqs (syms ++ [eob])) :
    Frequencies freqs.toList where
  length := by simpa using counted.1
  ends := ⟨(syms ++ [eob]).count eob, by simp, by
    rw [Array.getElem?_toList]; exact counted.2 eob (Nat.lt_succ_self eob)⟩

theorem symbolsInside {syms : List Nat} (small : ∀ s ∈ syms, s < eob) : ∀ s ∈ syms ++ [eob], s < eob + 1 := by
  intro s member
  rcases List.mem_append.mp member with early | last
  · exact Nat.lt_succ_of_lt (small s early)
  · rw [List.mem_singleton.mp last]
    exact Nat.lt_succ_self eob

theorem countsWeighted {alphabet syms : List Nat} (distinct : alphabet.Nodup) (inside : ∀ s ∈ syms, s ∈ alphabet)
    (l : Nat → Nat) : (alphabet.map (fun s => syms.count s * l s)).sum = (syms.map l).sum := by
  rw [← List.sum_toFinset _ distinct, Finset.sum_list_map_count]
  refine (Finset.sum_subset ?_ ?_).symm
  · intro s member
    exact List.mem_toFinset.mpr (inside s (List.mem_toFinset.mp member))
  · intro s _ absent
    rw [List.mem_toFinset] at absent
    rw [List.count_eq_zero_of_not_mem absent, Nat.zero_mul]

theorem countsTotal {syms : List Nat} (n : Nat) (inside : ∀ s ∈ syms, s < n) :
    ((List.range n).map (fun s => syms.count s)).sum = syms.length := by
  have weighted := countsWeighted List.nodup_range (fun s member => List.mem_range.mpr (inside s member)) fun _ => 1
  simpa using weighted

theorem countedTotal {freqs : Array Nat} {syms : List Nat} (counted : Counted freqs syms)
    (inside : ∀ s ∈ syms, s < eob + 1) : freqs.toList.sum = syms.length := by
  have entries : freqs.toList = (List.range (eob + 1)).map (fun s => syms.count s) := by
    apply List.ext_getElem?
    intro s
    by_cases bound : s < eob + 1
    · rw [Array.getElem?_toList, counted.2 s bound, List.getElem?_map, List.getElem?_range bound]
      rfl
    · have size := counted.1
      rw [List.getElem?_eq_none (by rw [Array.length_toList]; omega),
        List.getElem?_eq_none (by rw [List.length_map, List.length_range]; omega)]
  rw [entries, countsTotal _ inside]

structure Encoded (tokens : List Token) (table : HuffmanTable) (lengthsMap : List Nat) (bitstream : Bytes) :
    Prop where
  valid : ValidMap lengthsMap
  length : lengthsMap.length = eob + 1
  tableFor : TableFor table (sortedLengths lengthsMap)
  coded : ∀ sym ∈ tokens.map symbolOf ++ [eob], ∃ len, (sym, len) ∈ sortedLengths lengthsMap
  padded : ∃ pad < 8, Bits.ofBytes bitstream = streamBits table tokens ++ Bits.zeros pad

theorem hasCode {table : HuffmanTable} {lengthsMap : List Nat} (valid : ValidMap lengthsMap)
    (tableFor : TableFor table (sortedLengths lengthsMap)) {sym len : Nat}
    (member : (sym, len) ∈ sortedLengths lengthsMap) : HasCode table sym := by
  obtain ⟨i, found⟩ := List.getElem?_of_mem member
  have bounded := (validEntries valid).bounded _ member
  exact ⟨_, len, tableFor.encode i _ found, bounded.1, bounded.2⟩

theorem builtCodes {freqs : Array Nat} {syms : List Nat} {lengthsMap : List Nat}
    (counted : Counted freqs (syms ++ [eob])) (small : ∀ s ∈ syms, s < eob)
    (built : Built freqs.toList lengthsMap) :
    ∀ sym ∈ syms ++ [eob], ∃ len, (sym, len) ∈ sortedLengths lengthsMap := by
  intro sym member
  have bound := symbolsInside small sym member
  have used : sym ∈ (usedSymbols freqs.toList).map Prod.snd :=
    (usedMember (countedFrequencies counted)).mpr ⟨_, List.count_pos_iff.mpr member, by
      rw [Array.getElem?_toList]; exact counted.2 sym bound⟩
  obtain ⟨e, present, rfl⟩ := List.mem_map.mp (built.used.mem_iff.mpr used)
  exact ⟨e.2, (sortedPerm lengthsMap).mem_iff.mpr present⟩

theorem finishEncoded {tokens : List Token} {table : HuffmanTable} {lengthsMap : List Nat}
    (valid : ValidMap lengthsMap) (length : lengthsMap.length = eob + 1)
    (tableFor : TableFor table (sortedLengths lengthsMap)) (small : ∀ tok ∈ tokens, symbolOf tok < eob)
    (coded : ∀ sym ∈ tokens.map symbolOf ++ [eob], ∃ len, (sym, len) ∈ sortedLengths lengthsMap) :
    ∃ bitstream, (do
        let bw ← tokens.foldlM (writeToken table) BitWriter.new
        let (code, len) ← table.encodeSymbol eob
        let bw ← bw.writeBits code len
        let bitstream ← bw.finish
        .ok (table, bitstream) : Result (HuffmanTable × Bytes)) = .ok (table, bitstream) ∧
      Encoded tokens table lengthsMap bitstream := by
  have codes : ∀ sym ∈ tokens.map symbolOf ++ [eob], HasCode table sym := by
    intro sym member
    obtain ⟨len, entry⟩ := coded sym member
    exact hasCode valid tableFor entry
  obtain ⟨bw, written, pending, bits⟩ := writeTokensWritten table
    (fun tok member => codes _ (List.mem_append_left _ (List.mem_map_of_mem member)))
    (fun tok member => Nat.lt_trans (small tok member) (by decide))
  obtain ⟨last, ends, pending', bits'⟩ := writeSymbol (codes eob (by simp)) pending
  obtain ⟨bitstream, finished, pad, few, padded⟩ := last.finishWritten pending'
  refine ⟨bitstream, ?_, valid, length, tableFor, coded, pad, few, by rw [padded, bits', bits, streamBits]⟩
  rw [written, Outcome.okBind]
  have step (f : BitWriter → Result (HuffmanTable × Bytes)) :
      (table.encodeSymbol eob >>= fun e => bw.writeBits e.1 e.2 >>= f) = f last := by
    rw [← bind_assoc, ends, Outcome.okBind]
  refine (step _).trans ?_
  rw [finished, Outcome.okBind]

theorem encodeTokensBuild {tokens : List Token} (small : ∀ tok ∈ tokens, symbolOf tok < eob) :
    ∃ freqs : Array Nat, Counted freqs (tokens.map symbolOf ++ [eob]) ∧
      encodeTokens tokens = (do
        let table ← build freqs.toList
        let bw ← tokens.foldlM (writeToken table) BitWriter.new
        let (code, len) ← table.encodeSymbol eob
        let bw ← bw.writeBits code len
        let bitstream ← bw.finish
        .ok (table, bitstream)) := by
  obtain ⟨freqs, run, counted⟩ := countTokensCounted small
  obtain ⟨found, stored, next⟩ := countedNext counted (Nat.lt_succ_self eob)
  exact ⟨_, next, by rw [encodeTokens, run, Outcome.okBind, found, Outcome.okBind, stored, Outcome.okBind]⟩

theorem encodeTokensCases {tokens : List Token} (small : ∀ tok ∈ tokens, symbolOf tok < eob) :
    (∃ table lengthsMap bitstream, encodeTokens tokens = .ok (table, bitstream) ∧
      Encoded tokens table lengthsMap bitstream) ∨ encodeTokens tokens = .panic := by
  obtain ⟨freqs, counted, run⟩ := encodeTokensBuild small
  have syms : ∀ s ∈ tokens.map symbolOf, s < eob := by simpa using small
  rcases buildCases (countedFrequencies counted) with ⟨table, lengthsMap, made, built, tableFor⟩ | overflow
  · obtain ⟨bitstream, written, encoded⟩ := finishEncoded built.valid built.length tableFor small
      (builtCodes counted syms built)
    exact .inl ⟨table, lengthsMap, bitstream, by rw [run, made, Outcome.okBind, written], encoded⟩
  · exact .inr (by rw [run, overflow, Outcome.panicBind])

theorem encodeTokensFits {tokens : List Token} (small : ∀ tok ∈ tokens, symbolOf tok < eob)
    (few : 10 * (tokens.length + 2) < 2 ^ 64) :
    ∃ table lengthsMap bitstream, encodeTokens tokens = .ok (table, bitstream) ∧
      Encoded tokens table lengthsMap bitstream := by
  obtain ⟨freqs, counted, run⟩ := encodeTokensBuild small
  have syms : ∀ s ∈ tokens.map symbolOf, s < eob := by simpa using small
  have total := countedTotal counted (symbolsInside syms)
  rw [List.length_append, List.length_map, List.length_singleton] at total
  obtain ⟨table, lengthsMap, made, built, tableFor⟩ := buildFits (countedFrequencies counted) (by rwa [total])
  obtain ⟨bitstream, written, encoded⟩ := finishEncoded built.valid built.length tableFor small
    (builtCodes counted syms built)
  exact ⟨table, lengthsMap, bitstream, by rw [run, made, Outcome.okBind, written], encoded⟩

/-! Decoding what was encoded. -/
theorem symbolDecodes {table table' : HuffmanTable} {lengthsMap : List Nat} (valid : ValidMap lengthsMap)
    (length : lengthsMap.length = eob + 1) (tableFor : TableFor table (sortedLengths lengthsMap))
    (tableFor' : TableFor table' (sortedLengths lengthsMap)) {sym len : Nat}
    (member : (sym, len) ∈ sortedLengths lengthsMap) (rest : List Bool) :
    table'.decodeSymbol (Bits.window 32 (symbolBits table sym ++ rest)) = .ok (sym, len) ∧
      (symbolBits table sym).length = len := by
  have entries := validEntries valid
  obtain ⟨i, found⟩ := List.getElem?_of_mem member
  have bits : symbolBits table sym = codeword (sortedLengths lengthsMap) i (sym, len) := by
    rw [symbolBits, tableFor.encode i _ found, codeword]
  have usable : sym ≠ u16Max := by
    have inside := entries.inside _ member
    have limit : u16Max = 65535 := rfl
    have last : eob = 515 := rfl
    omega
  rw [bits]
  exact ⟨decodeCodeword entries tableFor' found usable rest, by simp [codeword]⟩

theorem decodeToken {tok : Token} {table table' : HuffmanTable} {lengthsMap : List Nat} {len : Nat}
    (valid : ValidMap lengthsMap) (length : lengthsMap.length = eob + 1)
    (tableFor : TableFor table (sortedLengths lengthsMap))
    (tableFor' : TableFor table' (sortedLengths lengthsMap)) (small : symbolOf tok < eob)
    (member : (symbolOf tok, len) ∈ sortedLengths lengthsMap) (iterations : Nat) (rest : List Bool) :
    decodeBits table' (iterations + 1) (tokenBits table tok ++ rest) = (do
      let tokens ← decodeBits table' iterations rest
      .ok (tok :: tokens)) := by
  obtain ⟨found, size⟩ := symbolDecodes valid length tableFor tableFor' member (distanceBits tok ++ rest)
  rw [decodeBits, tokenBits, List.append_assoc, found, Outcome.okBind]
  simp only [List.drop_left' size]
  rw [if_neg (Nat.ne_of_lt small)]
  cases tok with
  | literal b =>
    have byte : b.toNat < 256 := b.toNat_lt
    rw [symbolOf, if_pos byte, distanceBits, List.nil_append, UInt8.ofNat_toNat]
  | matched distance len' =>
    have high : ¬ 256 + len'.toNat < 256 := by omega
    have value : (256 + len'.toNat - 256) % 65536 = len'.toNat := by
      rw [Nat.add_sub_cancel_left]
      exact Nat.mod_eq_of_lt len'.toNat_lt
    have head : (Bits.ofNat 16 distance.toNat ++ rest).take 16 = Bits.ofNat 16 distance.toNat :=
      List.take_left' (Bits.lengthOfNat 16 _)
    have back : Bits.toNat (Bits.ofNat 16 distance.toNat) = distance.toNat := by
      rw [Bits.toNatOfNat]
      exact Nat.mod_eq_of_lt distance.toNat_lt
    rw [symbolOf, if_neg high, distanceBits, Outcome.ensurePass _ (by simp), Outcome.okBind,
      List.drop_left' (Bits.lengthOfNat 16 _), head, back, value, UInt16.ofNat_toNat, UInt16.ofNat_toNat]

theorem streamBitsCons (table : HuffmanTable) (tok : Token) (tokens : List Token) :
    streamBits table (tok :: tokens) = tokenBits table tok ++ streamBits table tokens := by
  rw [streamBits, List.flatMap_cons, List.append_assoc, ← streamBits]

theorem laterSymbol {tok : Token} {tokens : List Token} {sym : Nat} (member : sym ∈ tokens.map symbolOf ++ [eob]) :
    sym ∈ (tok :: tokens).map symbolOf ++ [eob] := by
  rw [List.map_cons, List.cons_append]
  exact List.mem_cons_of_mem _ member

theorem decodeStream {tokens : List Token} {table table' : HuffmanTable} {lengthsMap : List Nat}
    (valid : ValidMap lengthsMap) (length : lengthsMap.length = eob + 1)
    (tableFor : TableFor table (sortedLengths lengthsMap))
    (tableFor' : TableFor table' (sortedLengths lengthsMap)) (small : ∀ tok ∈ tokens, symbolOf tok < eob)
    (coded : ∀ sym ∈ tokens.map symbolOf ++ [eob], ∃ len, (sym, len) ∈ sortedLengths lengthsMap)
    (rest : List Bool) {iterations : Nat} (enough : tokens.length < iterations) :
    decodeBits table' iterations (streamBits table tokens ++ rest) = .ok tokens := by
  induction tokens generalizing iterations with
  | nil =>
    obtain ⟨iterations, rfl⟩ : ∃ n, iterations = n + 1 := ⟨iterations - 1, by simp at enough; omega⟩
    obtain ⟨len, member⟩ := coded eob (by simp)
    obtain ⟨found, _⟩ := symbolDecodes valid length tableFor tableFor' member rest
    have bits : streamBits table [] ++ rest = symbolBits table eob ++ rest := rfl
    rw [decodeBits, bits, found, Outcome.okBind]
    exact if_pos rfl
  | cons tok tokens ih =>
    obtain ⟨iterations, rfl⟩ : ∃ n, iterations = n + 1 := ⟨iterations - 1, by simp at enough; omega⟩
    have shorter : tokens.length < iterations := by simpa using enough
    have tail := ih (fun t member => small t (List.mem_cons_of_mem _ member))
      (fun sym member => coded sym (laterSymbol member)) shorter
    obtain ⟨len, member⟩ := coded (symbolOf tok) (by simp)
    rw [streamBitsCons, List.append_assoc,
      decodeToken valid length tableFor tableFor' (small tok List.mem_cons_self) member, tail, Outcome.okBind]

theorem symbolBitsPositive {table : HuffmanTable} {sym : Nat} (coded : HasCode table sym) :
    0 < (symbolBits table sym).length ∧ (symbolBits table sym).length ≤ maxCodeLen := by
  obtain ⟨code, len, found, positive, short⟩ := coded
  simp [symbolBits, found, positive, short]

theorem streamBitsLong {table : HuffmanTable} {tokens : List Token}
    (codes : ∀ sym ∈ tokens.map symbolOf ++ [eob], HasCode table sym) :
    tokens.length < (streamBits table tokens).length := by
  induction tokens with
  | nil => exact (symbolBitsPositive (codes eob (by simp))).1
  | cons tok tokens ih =>
    have tail := ih fun sym member => codes sym (laterSymbol member)
    have head := (symbolBitsPositive (codes (symbolOf tok) (by simp))).1
    rw [streamBitsCons, tokenBits, List.length_append, List.length_append, List.length_cons]
    omega

theorem encodedCodes {tokens : List Token} {table : HuffmanTable} {lengthsMap : List Nat} {bitstream : Bytes}
    (encoded : Encoded tokens table lengthsMap bitstream) :
    ∀ sym ∈ tokens.map symbolOf ++ [eob], HasCode table sym := by
  intro sym member
  obtain ⟨len, entry⟩ := encoded.coded sym member
  exact hasCode encoded.valid encoded.tableFor entry

theorem tableEntriesFew {tokens : List Token} {table : HuffmanTable} {lengthsMap : List Nat} {bitstream : Bytes}
    (encoded : Encoded tokens table lengthsMap bitstream) : (sortedLengths lengthsMap).length ≤ eob + 1 := by
  rw [(sortedPerm lengthsMap).length_eq, present, List.length_map, ← encoded.length]
  exact Nat.le_trans (List.length_filter_le _ _) (by rw [List.length_zipIdx])

theorem encodedTableReads {tokens : List Token} {table : HuffmanTable} {lengthsMap : List Nat} {bitstream : Bytes}
    (encoded : Encoded tokens table lengthsMap bitstream) (rest : Bytes) :
    ∃ table', deserialiseTable (serialiseTable table ++ rest) = .ok (table', (serialiseTable table).length) ∧
      TableFor table' (sortedLengths lengthsMap) := by
  exact deserialiseSerialised encoded.valid encoded.tableFor.lengths
    (Nat.lt_of_le_of_lt (tableEntriesFew encoded) (by decide)) rest

theorem decodeEncoded {tokens : List Token} {table table' : HuffmanTable} {lengthsMap : List Nat}
    {bitstream : Bytes} (encoded : Encoded tokens table lengthsMap bitstream)
    (small : ∀ tok ∈ tokens, symbolOf tok < eob) (tableFor' : TableFor table' (sortedLengths lengthsMap))
    (after : Bytes) (capacity : Nat) : decodeTokens table' (bitstream ++ after) capacity = .ok tokens := by
  obtain ⟨pad, _, padded⟩ := encoded.padded
  have proper := tableForProper (validEntries encoded.valid) tableFor'
  have long := streamBitsLong (encodedCodes encoded)
  have size := congrArg List.length padded
  rw [Bits.lengthOfBytes, List.length_append] at size
  rw [decodeTokensBits proper, Bits.ofBytesAppend, padded, List.append_assoc]
  exact decodeStream encoded.valid encoded.length encoded.tableFor tableFor' small encoded.coded _
    (by rw [List.length_append]; omega)

end Openpresser.Huffman
