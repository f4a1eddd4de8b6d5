import Openpresser.BitStream

/-! Whole sequences of calls. A writer and a reader that are called as the token coder
calls them cannot be told from a list of bits. -/
namespace Openpresser.Huffman

theorem writesWritten {calls : List (Nat × Nat)} (narrow : ∀ call ∈ calls, call.2 ≤ 32) {w : BitWriter}
    (pending : w.bits < 8) :
    ∃ w', calls.foldlM (fun (w : BitWriter) call => w.writeBits call.1 call.2) w = (.ok w' : Result BitWriter) ∧
      w'.bits < 8 ∧ w'.written = w.written ++ calls.flatMap (fun call => Bits.ofNat call.2 call.1) := by
  induction calls generalizing w with
  | nil => exact ⟨w, rfl, pending, by simp⟩
  | cons call calls ih =>
    obtain ⟨next, run, small, first⟩ := BitWriter.writeBitsWritten w call.1 call.2 pending
      (narrow call List.mem_cons_self)
    obtain ⟨last, rest, small', later⟩ := ih (fun c member => narrow c (List.mem_cons_of_mem call member)) small
    refine ⟨last, ?_, small', ?_⟩
    · rw [Outcome.foldlMCons, run, Outcome.okBind, rest]
    · rw [later, first, List.flatMap_cons, List.append_assoc]

inductive ReadCall where
  | peek32
  | consume (n : Nat)
  | readBits (n : Nat)

inductive Answer where
  | peeked (bits32 : Nat)
  | consumed
  | taken (bits : Except EngineError Nat)

/-- The calls of the token decoder: only a peek may be followed by a consumption. -/
inductive DecoderCalls : List ReadCall → Prop where
  | done : DecoderCalls []
  | peek {rest : List ReadCall} (tail : DecoderCalls rest) : DecoderCalls (.peek32 :: rest)
  | peekConsume {n : Nat} {rest : List ReadCall} (narrow : n ≤ 32) (tail : DecoderCalls rest) :
      DecoderCalls (.peek32 :: .consume n :: rest)
  | read {n : Nat} {rest : List ReadCall} (positive : 1 ≤ n) (narrow : n ≤ 31) (tail : DecoderCalls rest) :
      DecoderCalls (.readBits n :: rest)

def BitReader.perform (r : BitReader) : ReadCall → Result (Answer × BitReader)
  | .peek32 => do
    let (bits32, r) ← r.peek32
    .ok (.peeked bits32, r)
  | .consume n => do
    let r ← r.consume n
    .ok (.consumed, r)
  | .readBits n => do
    let (bits, r) ← r.readBits n
    .ok (.taken bits, r)

def BitReader.performAll : List ReadCall → BitReader → Result (List Answer × BitReader)
  | [], r => .ok ([], r)
  | call :: calls, r => do
    let (answer, r) ← r.perform call
    let (answers, r) ← performAll calls r
    .ok (answer :: answers, r)

/-! The same calls put to a list of bits. -/
def answer (bits : List Bool) : ReadCall → Answer × List Bool
  | .peek32 => (.peeked (Bits.window 32 bits), bits)
  | .consume n => (.consumed, bits.drop (min n bits.length))
  | .readBits n =>
    if n ≤ bits.length then (.taken (.ok (Bits.toNat (bits.take n))), bits.drop n)
    else (.taken (.error (.decompressError "unexpected end of bitstream")), bits)

def answerAll : List ReadCall → List Bool → List Answer × List Bool
  | [], bits => ([], bits)
  | call :: calls, bits =>
    let first := answer bits call
    let rest := answerAll calls first.2
    (first.1 :: rest.1, rest.2)

namespace BitReader

def Answers (r : BitReader) (call : ReadCall) (r' : BitReader) : Prop :=
  r.perform call = .ok ((answer r.unread call).1, r') ∧ r'.Sound ∧ r'.unread = (answer r.unread call).2

theorem peekAnswers (r : BitReader) (sound : r.Sound) : ∃ r', r.Answers .peek32 r' ∧ Refilled r r' := by
  obtain ⟨r', run, refilled⟩ := peek32Window r sound
  exact ⟨r', ⟨by rw [perform, run]; rfl, refilled.sound, refilled.same⟩, refilled⟩

theorem consumeAnswers {r r' : BitReader} (refilled : Refilled r r') {n : Nat} (narrow : n ≤ 32) :
    ∃ r'', r'.Answers (.consume n) r'' := by
  obtain ⟨r'', run, sound, unread⟩ := consumeDrops refilled n narrow
  refine ⟨r'', by rw [perform, run]; rfl, sound, ?_⟩
  rw [unread, refilled.same, answer]
  by_cases enough : n ≤ r.unread.length
  · rw [Nat.min_eq_left enough]
  · rw [Nat.min_eq_right (by omega), List.drop_length, List.drop_eq_nil_of_le (by omega)]

theorem readAnswers (r : BitReader) (sound : r.Sound) {n : Nat} (positive : 1 ≤ n) (narrow : n ≤ 31) :
    ∃ r', r.Answers (.readBits n) r' := by
  by_cases enough : n ≤ r.unread.length
  · obtain ⟨r', run, sound', unread⟩ := readBitsTakes r sound n positive narrow enough
    refine ⟨r', ?_, sound', ?_⟩
    · rw [perform, run, answer, if_pos enough]
      rfl
    · rw [unread, answer, if_pos enough]
  · obtain ⟨r', run, sound', same⟩ := readBitsShort r sound n (Nat.not_le.mp enough)
    refine ⟨r', ?_, sound', ?_⟩
    · rw [perform, run, answer, if_neg enough]
      rfl
    · rw [same, answer, if_neg enough]

theorem performCons {call : ReadCall} {calls : List ReadCall} {r r' r'' : BitReader} (first : r.Answers call r')
    (rest : performAll calls r' = .ok ((answerAll calls r'.unread).1, r'')) :
    performAll (call :: calls) r = .ok ((answerAll (call :: calls) r.unread).1, r'') := by
  rw [performAll, first.1, Outcome.okBind, answerAll, ← first.2.2]
  simp only [rest, Outcome.okBind]

theorem performAnswers {calls : List ReadCall} (decoder : DecoderCalls calls) {r : BitReader} (sound : r.Sound) :
    ∃ r', performAll calls r = .ok ((answerAll calls r.unread).1, r') ∧ r'.unread = (answerAll calls r.unread).2 := by
  induction decoder generalizing r with
  | done => exact ⟨r, rfl, rfl⟩
  | peek tail ih =>
    obtain ⟨next, first, _⟩ := peekAnswers r sound
    obtain ⟨last, rest, unread⟩ := ih first.2.1
    exact ⟨last, performCons first rest, by rw [unread, answerAll, first.2.2]⟩
  | peekConsume narrow tail ih =>
    obtain ⟨peeked, first, refilled⟩ := peekAnswers r sound
    obtain ⟨next, second⟩ := consumeAnswers refilled narrow
    obtain ⟨last, rest, unread⟩ := ih second.2.1
    refine ⟨last, performCons first (performCons second rest), ?_⟩
    rw [unread, answerAll, answerAll, second.2.2, first.2.2]
  | read positive narrow tail ih =>
    obtain ⟨next, first⟩ := readAnswers r sound positive narrow
    obtain ⟨last, rest, unread⟩ := ih first.2.1
    exact ⟨last, performCons first rest, by rw [unread, answerAll, first.2.2]⟩

end BitReader

theorem bitStreamsRefine :
    (∀ calls : List (Nat × Nat), (∀ call ∈ calls, call.2 ≤ 32) →
      ∃ w raw, calls.foldlM (fun (w : BitWriter) call => w.writeBits call.1 call.2) BitWriter.new = .ok w ∧
        w.finish = .ok raw ∧
        ∃ pad < 8, Bits.ofBytes raw = calls.flatMap (fun call => Bits.ofNat call.2 call.1) ++ Bits.zeros pad) ∧
    (∀ data calls, DecoderCalls calls →
      ∃ r, BitReader.performAll calls (BitReader.new data) = .ok ((answerAll calls (Bits.ofBytes data)).1, r) ∧
        r.unread = (answerAll calls (Bits.ofBytes data)).2) := by
  constructor
  · intro calls narrow
    obtain ⟨w, run, pending, written⟩ := writesWritten narrow (by decide : BitWriter.new.bits < 8)
    obtain ⟨raw, finished, pad, short, bits⟩ := BitWriter.finishWritten w pending
    refine ⟨w, raw, run, finished, pad, short, ?_⟩
    rw [bits, written]
    rfl
  · intro data calls decoder
    exact BitReader.performAnswers decoder (BitReader.newSound data)

theorem bitStreamsRefineSmall :
    (∃ w raw, [(5, 3), (1023, 9)].foldlM (fun (w : BitWriter) call => w.writeBits call.1 call.2) BitWriter.new =
        .ok w ∧ w.finish = .ok raw ∧ ∃ pad < 8, Bits.ofBytes raw =
        [true, false, true, true, true, true, true, true, true, true, true, true] ++ Bits.zeros pad) ∧
    (∃ r, BitReader.performAll [.peek32, .consume 3, .readBits 9, .readBits 5] (BitReader.new [191, 240]) =
        .ok ([.peeked 3220176896, .consumed, .taken (.ok 511),
          .taken (.error (.decompressError "unexpected end of bitstream"))], r) ∧
      r.unread = [false, false, false, false]) := by
  constructor
  · exact bitStreamsRefine.1 [(5, 3), (1023, 9)] (by decide)
  · exact bitStreamsRefine.2 [191, 240] [.peek32, .consume 3, .readBits 9, .readBits 5]
      (.peekConsume (by decide) (.read (by decide) (by decide) (.read (by decide) (by decide) .done)))

end Openpresser.Huffman
