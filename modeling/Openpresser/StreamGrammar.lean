import Openpresser.StreamEnd

/-! What a bit stream says, with neither table nor reader. The grammar is the format's:
codewords in canonical order, sixteen bits of distance behind every match. A run of the
decoder that ends well is a derivation, and a derivation pays in data for every token. -/
namespace Openpresser.Huffman
open CanonicalCode (code)
open Lz (Token)

/-- Shorter codewords come first, and smaller symbols among those of one length. -/
def canonical (lengthsMap : List Nat) (s : Nat) : List Bool :=
  let e := (s, lengthsMap.getD s 0)
  Bits.ofNat e.2 (code maxCodeLen ((present lengthsMap).filter (fun d => ¬ shorterFirst e d)) e)

example : canonical [2, 1, 0, 3] 3 = [true, true, false] := by decide

@[simp] theorem lengthCanonical (lengthsMap : List Nat) (s : Nat) :
    (canonical lengthsMap s).length = lengthsMap.getD s 0 := Bits.lengthOfNat _ _

/-- The symbol of the codeword in front; 65535 marks the words without one and is never read. -/
structure Next (lengthsMap : List Nat) (bits : List Bool) (s : Nat) : Prop where
  coded : 0 < lengthsMap.getD s 0
  usable : s ≠ u16Max
  front : Bits.Front (canonical lengthsMap s) bits

/-- Behind the data a codeword may be completed by zeros, a distance may not. -/
inductive Spells (lengthsMap : List Nat) : List Bool → List Token → Prop where
  | stop {bits : List Bool} (next : Next lengthsMap bits eob) : Spells lengthsMap bits []
  | literal {bits : List Bool} {b : UInt8} {tokens : List Token} (next : Next lengthsMap bits b.toNat)
      (tail : Spells lengthsMap (bits.drop (lengthsMap.getD b.toNat 0)) tokens) :
      Spells lengthsMap bits (.literal b :: tokens)
  | matched {bits rest : List Bool} {distance length : UInt16} {tokens : List Token}
      (next : Next lengthsMap bits (256 + length.toNat)) (goesOn : 256 + length.toNat ≠ eob)
      (split : bits = canonical lengthsMap (256 + length.toNat) ++ Bits.ofNat 16 distance.toNat ++ rest)
      (tail : Spells lengthsMap rest tokens) : Spells lengthsMap bits (.matched distance length :: tokens)

/-- The data is used up, and the zeros behind it are literals without end. -/
inductive Starves (lengthsMap : List Nat) : List Bool → Prop where
  | dry {b : UInt8} (next : Next lengthsMap [] b.toNat) : Starves lengthsMap []
  | literal {bits : List Bool} {b : UInt8} (next : Next lengthsMap bits b.toNat)
      (tail : Starves lengthsMap (bits.drop (lengthsMap.getD b.toNat 0))) : Starves lengthsMap bits
  | matched {bits rest : List Bool} {distance length : UInt16} (next : Next lengthsMap bits (256 + length.toNat))
      (goesOn : 256 + length.toNat ≠ eob)
      (split : bits = canonical lengthsMap (256 + length.toNat) ++ Bits.ofNat 16 distance.toNat ++ rest)
      (tail : Starves lengthsMap rest) : Starves lengthsMap bits

def leastBits : Token → Nat
  | .literal _ => 1
  | .matched _ _ => 17

/-! The next codeword. -/
theorem filterTake {α : Type} {r : α → α → Prop} [DecidableRel r] {xs : List α} {i : Nat} {e : α}
    (found : xs[i]? = some e) (self : r e e) (strict : xs.Pairwise (fun a b => r a b ∧ ¬ r b a)) :
    xs.filter (fun d => ¬ r e d) = xs.take i := by
  have split : xs = xs.take i ++ e :: xs.drop (i + 1) := by
    obtain ⟨inside, rfl⟩ := List.getElem?_eq_some_iff.mp found
    rw [List.getElem_cons_drop, List.take_append_drop]
  have order := strict
  rw [split, List.pairwise_append, List.pairwise_cons] at order
  have front : (xs.take i).filter (fun d => ¬ r e d) = xs.take i :=
    List.filter_eq_self.mpr fun d member => decide_eq_true (order.2.2 d member _ List.mem_cons_self).2
  have back : (e :: xs.drop (i + 1)).filter (fun d => ¬ r e d) = [] := by
    refine List.filter_eq_nil_iff.mpr fun d member => ?_
    rw [decide_eq_true_eq, not_not]
    rcases List.mem_cons.mp member with rfl | later
    · exact self
    · exact (order.2.1.1 d later).1
  conv => lhs; rw [split]
  rw [List.filter_append, front, back, List.append_nil]

theorem sortedStrict {lengthsMap : List Nat} (small : lengthsMap.length ≤ 65536) :
    (sortedLengths lengthsMap).Pairwise (fun a b => shorterFirst a b ∧ ¬ shorterFirst b a) := by
  have distinct := ((sortedPerm lengthsMap).map Prod.fst).nodup_iff.mpr (presentDistinct small)
  refine (sortedOrder lengthsMap).imp₂ ?_ (List.pairwise_map.mp distinct)
  intro a b order apart
  refine ⟨order, fun back => apart ?_⟩
  unfold shorterFirst at order back
  omega

theorem canonicalPlace {lengthsMap : List Nat} (small : lengthsMap.length ≤ 65536) {i s len : Nat}
    (place : (sortedLengths lengthsMap)[i]? = some (s, len)) : lengthsMap.getD s 0 = len ∧
      canonical lengthsMap s = Bits.ofNat len (code maxCodeLen ((sortedLengths lengthsMap).take i) (s, len)) := by
  have member := (sortedPerm lengthsMap).mem_iff.mp (List.mem_of_getElem? place)
  have length : lengthsMap.getD s 0 = len := by
    rw [List.getD_eq_getElem?_getD, ((presentMember small).mp member).2, Option.getD_some]
  have self : shorterFirst (s, len) (s, len) := .inr ⟨rfl, Nat.le_refl _⟩
  have before := (sortedPerm lengthsMap).filter (fun d => ¬ shorterFirst (s, len) d)
  rw [filterTake place self (sortedStrict small)] at before
  refine ⟨length, ?_⟩
  rw [canonical, length]
  simp only [code, CanonicalCode.kraftPerm maxCodeLen before]

section
variable {lengthsMap : List Nat} {table : HuffmanTable} (valid : ValidMap lengthsMap)
  (run : fromLengths lengthsMap = .ok table)
include valid run

theorem nextDecodes {bits : List Bool} {s len : Nat} :
    table.decodeSymbol (Bits.window 32 bits) = .ok (s, len) ↔
      Next lengthsMap bits s ∧ len = lengthsMap.getD s 0 := by
  have word := Bits.windowBound 32 bits
  have fifteen : maxCodeLen = 15 := rfl
  constructor
  · intro found
    obtain ⟨c, codes, onTop⟩ := decodedOnTop valid run word found
    obtain ⟨i, place, rfl⟩ := (codesPlace valid run).mp codes
    obtain ⟨bound, short⟩ := codesBound valid run codes
    obtain ⟨length, shape⟩ := canonicalPlace valid.small place
    refine ⟨⟨length.symm ▸ codes.2, fun reserved => ?_, ?_⟩, length.symm⟩
    · rw [onTopDecodes valid run word codes onTop, if_pos reserved] at found
      contradiction
    · rw [shape, Bits.frontWindow bits (by omega : len ≤ 32) bound]
      exact onTop
  · rintro ⟨⟨coded, usable, front⟩, rfl⟩
    have found : lengthsMap[s]? = some (lengthsMap.getD s 0) := by
      rw [List.getD_eq_getElem?_getD] at coded ⊢
      cases entry : lengthsMap[s]? with
      | none => rw [entry] at coded; exact absurd coded (Nat.lt_irrefl 0)
      | some len => rfl
    obtain ⟨i, place⟩ := List.getElem?_of_mem
      ((sortedPerm lengthsMap).mem_iff.mpr ((presentMember valid.small).mpr ⟨coded, found⟩))
    have codes := (codesPlace valid run).mpr ⟨i, place, rfl⟩
    obtain ⟨bound, short⟩ := codesBound valid run codes
    rw [(canonicalPlace valid.small place).2, Bits.frontWindow bits (by omega : _ ≤ 32) bound] at front
    rw [onTopDecodes valid run word codes front, if_neg usable]

theorem nextUnique {bits : List Bool} {s t : Nat} (first : Next lengthsMap bits s) (second : Next lengthsMap bits t) :
    s = t := by
  have found := (nextDecodes valid run).mpr ⟨first, rfl⟩
  have found' := (nextDecodes valid run).mpr ⟨second, rfl⟩
  exact congrArg Prod.fst (Outcome.ok.inj (found.symm.trans found'))

/-! One token of a run. -/
theorem literalTurn {bits : List Bool} {b : UInt8} (next : Next lengthsMap bits b.toNat) (n : Nat) :
    decodeBits table (n + 1) bits = decodeBits table n (bits.drop (lengthsMap.getD b.toNat 0)) >>= fun tokens =>
      .ok (.literal b :: tokens) := by
  have byte : b.toNat < 256 := b.toNat_lt
  rw [decodeBits, (nextDecodes valid run).mpr ⟨next, rfl⟩, Outcome.okBind]
  simp only [if_neg (literalGoesOn byte), if_pos byte, UInt8.ofNat_toNat]

theorem matchedTurn {bits rest : List Bool} {distance length : UInt16}
    (next : Next lengthsMap bits (256 + length.toNat)) (goesOn : 256 + length.toNat ≠ eob)
    (split : bits = canonical lengthsMap (256 + length.toNat) ++ Bits.ofNat 16 distance.toNat ++ rest) (n : Nat) :
    decodeBits table (n + 1) bits = decodeBits table n rest >>= fun tokens =>
      .ok (.matched distance length :: tokens) := by
  have wide : ¬ 256 + length.toNat < 256 := by omega
  have behind : bits.drop (lengthsMap.getD (256 + length.toNat) 0) = Bits.ofNat 16 distance.toNat ++ rest := by
    rw [split, List.append_assoc, List.drop_left' (lengthCanonical _ _)]
  have field : (Bits.ofNat 16 distance.toNat ++ rest).take 16 = Bits.ofNat 16 distance.toNat :=
    List.take_left' (Bits.lengthOfNat 16 _)
  have after : (Bits.ofNat 16 distance.toNat ++ rest).drop 16 = rest := List.drop_left' (Bits.lengthOfNat 16 _)
  have room : 16 ≤ (Bits.ofNat 16 distance.toNat ++ rest).length := by simp
  have value : Bits.toNat (Bits.ofNat 16 distance.toNat) = distance.toNat := by
    rw [Bits.toNatOfNat, Nat.mod_eq_of_lt distance.toNat_lt]
  have size : (256 + length.toNat - 256) % 65536 = length.toNat := by
    have bound := length.toNat_lt
    omega
  rw [decodeBits, (nextDecodes valid run).mpr ⟨next, rfl⟩, Outcome.okBind]
  simp only [if_neg goesOn, if_neg wide, behind, Outcome.ensurePass _ room, Outcome.okBind, after, field, value,
    size, UInt16.ofNat_toNat]

theorem matchedSplit {bits : List Bool} {sym : Nat} (next : Next lengthsMap bits sym) (wide : ¬ sym < 256)
    (distance : 16 ≤ (bits.drop (lengthsMap.getD sym 0)).length) :
    256 + (UInt16.ofNat ((sym - 256) % 65536)).toNat = sym ∧
      bits = canonical lengthsMap sym ++
        Bits.ofNat 16 (UInt16.ofNat (Bits.toNat ((bits.drop (lengthsMap.getD sym 0)).take 16))).toNat ++
        (bits.drop (lengthsMap.getD sym 0)).drop 16 := by
  have small := recognisedSmall valid run ((nextDecodes valid run).mpr ⟨next, rfl⟩)
  have reach := distance
  rw [List.length_drop] at reach
  have field : ((bits.drop (lengthsMap.getD sym 0)).take 16).length = 16 := by
    rw [List.length_take, Nat.min_eq_left distance]
  have bound := Bits.toNatBound ((bits.drop (lengthsMap.getD sym 0)).take 16)
  have value := Bits.ofNatToNat ((bits.drop (lengthsMap.getD sym 0)).take 16)
  rw [field] at bound value
  have whole := Bits.frontWhole next.front (by rw [lengthCanonical]; omega)
  rw [lengthCanonical] at whole
  constructor
  · rw [UInt16.toNat_ofNat', Nat.mod_mod, Nat.mod_eq_of_lt (by omega)]
    omega
  · rw [UInt16.toNat_ofNat', Nat.mod_eq_of_lt bound, value, List.append_assoc, List.take_append_drop]
    exact whole

omit valid run in
theorem literalNext {bits : List Bool} {sym : Nat} (next : Next lengthsMap bits sym) (byte : sym < 256) :
    Next lengthsMap bits (UInt8.ofNat sym).toNat := by
  rwa [UInt8.toNat_ofNat_of_lt' byte]

/-! Runs are derivations. -/
theorem decodedSpells (iterations : Nat) {bits : List Bool} {tokens : List Token}
    (decoded : decodeBits table iterations bits = .ok tokens) : Spells lengthsMap bits tokens := by
  induction iterations generalizing bits tokens with
  | zero => contradiction
  | succ iterations ih =>
    rw [decodeBits, Outcome.bindOk] at decoded
    obtain ⟨⟨sym, len⟩, found, decoded⟩ := decoded
    obtain ⟨next, rfl⟩ := (nextDecodes valid run).mp found
    by_cases stop : sym = eob
    · simp only [if_pos stop] at decoded
      cases Outcome.ok.inj decoded
      exact .stop (stop ▸ next)
    simp only [if_neg stop] at decoded
    by_cases byte : sym < 256
    · rw [if_pos byte, Outcome.bindOk] at decoded
      obtain ⟨rest, later, same⟩ := decoded
      cases Outcome.ok.inj same
      have value : (UInt8.ofNat sym).toNat = sym := UInt8.toNat_ofNat_of_lt' byte
      exact .literal (value.symm ▸ next) (value.symm ▸ ih later)
    · rw [if_neg byte, Outcome.bindOk] at decoded
      obtain ⟨_, checked, decoded⟩ := decoded
      rw [Outcome.bindOk] at decoded
      obtain ⟨rest, later, same⟩ := decoded
      cases Outcome.ok.inj same
      obtain ⟨symbol, split⟩ := matchedSplit valid run next byte (Outcome.ensureOk.mp checked)
      exact .matched (symbol.symm ▸ next) (symbol.symm ▸ stop) (symbol.symm ▸ split) (ih later)

theorem spellsDecodes {bits : List Bool} {tokens : List Token} (spells : Spells lengthsMap bits tokens)
    {iterations : Nat} (enough : tokens.length < iterations) : decodeBits table iterations bits = .ok tokens := by
  induction spells generalizing iterations with
  | stop next =>
    obtain ⟨n, rfl⟩ : ∃ n, iterations = n + 1 := ⟨iterations - 1, by omega⟩
    rw [decodeBits, (nextDecodes valid run).mpr ⟨next, rfl⟩, Outcome.okBind]
    exact if_pos rfl
  | literal next tail ih =>
    rw [List.length_cons] at enough
    obtain ⟨n, rfl⟩ : ∃ n, iterations = n + 1 := ⟨iterations - 1, by omega⟩
    rw [literalTurn valid run next, ih (by omega), Outcome.okBind]
  | matched next goesOn split tail ih =>
    rw [List.length_cons] at enough
    obtain ⟨n, rfl⟩ : ∃ n, iterations = n + 1 := ⟨iterations - 1, by omega⟩
    rw [matchedTurn valid run next goesOn split, ih (by omega), Outcome.okBind]

theorem starvesSpins {bits : List Bool} (starves : Starves lengthsMap bits) (iterations : Nat) :
    decodeBits table iterations bits = .diverge := by
  induction starves generalizing iterations with
  | @dry b next =>
    have found := (nextDecodes valid run).mpr ⟨next, rfl⟩
    rw [Bits.windowNil] at found
    exact paddingSpins ⟨b.toNat, _, found, b.toNat_lt⟩ iterations
  | literal next tail ih =>
    cases iterations with
    | zero => rfl
    | succ iterations => rw [literalTurn valid run next, ih, Outcome.divergeBind]
  | matched next goesOn split tail ih =>
    cases iterations with
    | zero => rfl
    | succ iterations => rw [matchedTurn valid run next goesOn split, ih, Outcome.divergeBind]

theorem runoutStarves (padding : PaddingIsLiteral table) {bits : List Bool} (runout : Runout table bits) :
    Starves lengthsMap bits := by
  induction runout with
  | dry =>
    obtain ⟨sym, len, found, byte⟩ := padding
    rw [← Bits.windowNil 32] at found
    exact .dry (literalNext ((nextDecodes valid run).mp found).1 byte)
  | @literal bits sym len found byte rest ih =>
    obtain ⟨next, rfl⟩ := (nextDecodes valid run).mp found
    have value : (UInt8.ofNat sym).toNat = sym := UInt8.toNat_ofNat_of_lt' byte
    exact .literal (b := UInt8.ofNat sym) (value.symm ▸ next) (value.symm ▸ ih)
  | @matched bits sym len found goesOn wide distance rest ih =>
    obtain ⟨next, rfl⟩ := (nextDecodes valid run).mp found
    obtain ⟨symbol, split⟩ := matchedSplit valid run next wide distance
    generalize UInt16.ofNat ((sym - 256) % 65536) = length at symbol
    subst symbol
    exact .matched next goesOn split ih

/-! What a derivation costs in data. -/
omit valid run in
theorem spellsDry {bits : List Bool} {tokens : List Token} (spells : Spells lengthsMap bits tokens) (dry : bits = []) :
    Next lengthsMap [] eob := by
  induction spells with
  | stop next => exact dry ▸ next
  | literal next tail ih => exact ih (by rw [dry, List.drop_nil])
  | matched next goesOn split tail ih =>
    have size := congrArg List.length split
    rw [dry] at size
    simp at size
    omega

theorem spellsPays {bits : List Bool} {tokens : List Token} (spells : Spells lengthsMap bits tokens) :
    (tokens.map leastBits).sum ≤ bits.length := by
  induction spells with
  | stop next => exact Nat.zero_le _
  | @literal bits b tokens next tail ih =>
    -- on padding alone the end of the block could not come any more
    have wet : bits ≠ [] := by
      intro dry
      have ends := spellsDry tail (by rw [dry, List.drop_nil])
      have byte : b.toNat < 256 := b.toNat_lt
      exact literalGoesOn byte (nextUnique valid run (dry ▸ next) ends)
    have remains := List.length_pos_iff.mpr wet
    have coded := next.coded
    rw [List.length_drop] at ih
    rw [List.map_cons, List.sum_cons, leastBits]
    omega
  | @matched bits rest distance length tokens next goesOn split tail ih =>
    have coded := next.coded
    rw [split, List.length_append, List.length_append, lengthCanonical, Bits.lengthOfNat, List.map_cons,
      List.sum_cons, leastBits]
    omega

omit valid run in
theorem leastBitsLong (tokens : List Token) : tokens.length ≤ (tokens.map leastBits).sum := by
  induction tokens with
  | nil => exact Nat.le_refl _
  | cons tok tokens ih =>
    have paid : 1 ≤ leastBits tok := by cases tok <;> simp [leastBits]
    rw [List.length_cons, List.map_cons, List.sum_cons]
    omega

theorem decodeTokensMeans (bitstream : Bytes) (capacity : Nat) :
    (∀ tokens, decodeTokens table bitstream capacity = .ok tokens ↔
      Spells lengthsMap (Bits.ofBytes bitstream) tokens) ∧
    (decodeTokens table bitstream capacity = .diverge ↔ Starves lengthsMap (Bits.ofBytes bitstream)) ∧
    decodeTokens table bitstream capacity ≠ .panic := by
  have proper := tableForProper (validEntries valid) (madeTable valid run)
  have enough : (Bits.ofBytes bitstream).length < 8 * bitstream.length + 1 := by
    rw [Bits.lengthOfBytes]
    omega
  rw [decodeTokensBits proper]
  have ends := decodeBitsEnds proper _ _ enough
  refine ⟨fun tokens => ⟨decodedSpells valid run _, fun spells => ?_⟩, ⟨fun spins => ?_, fun starves => ?_⟩, ?_⟩
  · have few := Nat.le_trans (leastBitsLong tokens) (spellsPays valid run spells)
    exact spellsDecodes valid run spells (Nat.lt_of_le_of_lt few enough)
  · rcases ends with returns | ⟨padding, runout⟩
    · rw [spins] at returns
      exact absurd returns id
    · exact runoutStarves valid run padding runout
  · exact starvesSpins valid run starves _
  · intro stopped
    rcases ends with returns | ⟨padding, runout⟩
    · rw [stopped] at returns
      exact returns
    · rw [runoutSpins padding runout] at stopped
      contradiction

end

/-- The decoding loop reads exactly what the grammar says, and spins exactly where the grammar starves;
only the tokens it is told to reserve can be too many. -/
theorem decodeTokensSpells (lengthsMap : List Nat) (small : lengthsMap.length ≤ 65536)
    (lengths : KraftLengths lengthsMap) : ∃ table, fromLengths lengthsMap = .ok table ∧ ∀ bitstream capacity,
      (∀ tokens, decodeTokensReserving table bitstream capacity = .ok tokens ↔
        tokenBytes * capacity ≤ isizeMax ∧ Spells lengthsMap (Bits.ofBytes bitstream) tokens) ∧
      (decodeTokensReserving table bitstream capacity = .diverge ↔
        tokenBytes * capacity ≤ isizeMax ∧ Starves lengthsMap (Bits.ofBytes bitstream)) ∧
      (decodeTokensReserving table bitstream capacity = .panic ↔ isizeMax < tokenBytes * capacity) := by
  have valid := (validIff small).mpr lengths
  obtain ⟨table, run, _⟩ := fromLengthsTable valid
  refine ⟨table, run, fun bitstream capacity => ?_⟩
  obtain ⟨decoded, spins, quiet⟩ := decodeTokensMeans valid run bitstream capacity
  by_cases room : tokenBytes * capacity ≤ isizeMax
  · rw [decodeTokensReserving, Outcome.assertPass room, Outcome.okBind]
    refine ⟨fun tokens => ?_, ?_, iff_of_false quiet (Nat.not_lt.mpr room)⟩
    · rw [decoded, and_iff_right room]
    · rw [spins, and_iff_right room]
  · have stopped : decodeTokensReserving table bitstream capacity = .panic := by
      rw [decodeTokensReserving, Outcome.assert, if_neg room, Outcome.panicBind]
    rw [stopped]
    exact ⟨fun tokens => iff_of_false (by simp) fun held => room held.1, iff_of_false (by simp) fun held => room held.1,
      iff_of_true rfl (Nat.lt_of_not_le room)⟩

/-! A literal, a match and the end of the block: the words 0, 10 and 11. -/
def threeLengths : List Nat := (((List.replicate 516 0).set 65 1).set 260 2).set 515 2

theorem threeKraft : KraftLengths threeLengths := ⟨by decide +kernel, by decide +kernel⟩

theorem threeSpell : Spells threeLengths (Bits.ofBytes [0x40, 0x00, 0x2C])
    [.literal 65, .matched 1 4, .literal 65] := by
  refine .literal ⟨by decide +kernel, by decide, by decide +kernel⟩ ?_
  have split : (Bits.ofBytes [0x40, 0x00, 0x2C]).drop (threeLengths.getD (65 : UInt8).toNat 0) =
      canonical threeLengths (256 + (4 : UInt16).toNat) ++ Bits.ofNat 16 (1 : UInt16).toNat ++
        [false, true, true, false, false] := by decide +kernel
  refine .matched ⟨by decide +kernel, by decide, by decide +kernel⟩ (by decide) split ?_
  refine .literal ⟨by decide +kernel, by decide, by decide +kernel⟩ ?_
  exact .stop ⟨by decide +kernel, by decide, by decide +kernel⟩

theorem threeStarve (n : Nat) : Starves threeLengths (Bits.zeros n) := by
  have coded : threeLengths.getD (65 : UInt8).toNat 0 = 1 := by decide +kernel
  have word : canonical threeLengths (65 : UInt8).toNat = [false] := by decide +kernel
  have next (bits : List Bool) (front : Bits.Front [false] bits) : Next threeLengths bits (65 : UInt8).toNat :=
    ⟨coded ▸ Nat.one_pos, by decide, word ▸ front⟩
  induction n with
  | zero => exact .dry (next [] (by decide))
  | succ n ih =>
    refine .literal (next _ (Bits.frontAppend [false] (Bits.zeros n))) ?_
    rw [coded]
    exact ih

theorem decodeTokensSpellsThree : ∃ table, fromLengths threeLengths = .ok table ∧
    decodeTokensReserving table [0x40, 0x00, 0x2C] 9 = .ok [.literal 65, .matched 1 4, .literal 65] ∧
    decodeTokensReserving table [0x00] 9 = .diverge ∧
    decodeTokensReserving table [0x40, 0x00, 0x2C] (2 ^ 62) = .panic := by
  obtain ⟨table, run, outcomes⟩ := decodeTokensSpells threeLengths (by decide +kernel) threeKraft
  exact ⟨table, run, ((outcomes [0x40, 0x00, 0x2C] 9).1 _).mpr ⟨by decide, threeSpell⟩,
    (outcomes [0x00] 9).2.1.mpr ⟨by decide, threeStarve 8⟩, (outcomes [0x40, 0x00, 0x2C] (2 ^ 62)).2.2.mpr (by decide)⟩

end Openpresser.Huffman
