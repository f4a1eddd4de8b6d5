import Openpresser.Header

/-! The table-driven checksum as a shift register fed bit by bit, and what a changed
window of four bytes does to it. A header together with its stored CRC always leaves
the same register contents, so the boundary at byte 22 needs no case of its own. -/
namespace Openpresser.Format

def crcPolynomial : BitVec 32 := 0xEDB88320#32
def crcStart : BitVec 32 := 0xFFFFFFFF#32

theorem lowBit (c : UInt32) : (c &&& 1 ≠ 0) ↔ c.toBitVec.getLsbD 0 = true := by
  have value : (c &&& 1).toNat = c.toNat % 2 := by
    rw [UInt32.toNat_and]; exact Nat.and_one_is_mod c.toNat
  have bit : c.toBitVec.getLsbD 0 = decide (c.toNat % 2 = 1) := by
    rw [BitVec.getLsbD, Nat.testBit_zero]; rfl
  rw [bit, decide_eq_true_eq, ne_eq, ← UInt32.toNat_inj, value]
  change ¬ c.toNat % 2 = 0 ↔ _
  omega

theorem entryStepIsShift (c : UInt32) :
    (crcEntryStep c).toBitVec = ShiftRegister.step crcPolynomial c.toBitVec := by
  unfold crcEntryStep ShiftRegister.step
  by_cases low : c &&& 1 ≠ 0
  · rw [if_pos low, if_pos ((lowBit c).mp low), UInt32.toBitVec_xor, UInt32.toBitVec_shiftRight]
    rfl
  · rw [if_neg low, if_neg (fun h => low ((lowBit c).mpr h)), UInt32.toBitVec_shiftRight]
    rfl

theorem entryIsShifts (k : Nat) (c : UInt32) :
    (crcEntry k c).toBitVec = ShiftRegister.steps crcPolynomial k c.toBitVec := by
  induction k generalizing c with
  | zero => rfl
  | succ k ih => rw [crcEntry, ih, entryStepIsShift, ShiftRegister.steps]

theorem tableEntry (i : Fin 256) :
    (makeCrcTable.get i).toBitVec = ShiftRegister.steps crcPolynomial 8 (BitVec.ofNat 32 i.val) := by
  have found : makeCrcTable.get i = crcEntry 8 (UInt32.ofNat i.val) := by
    change makeCrcTable[i.val] = _
    simp only [makeCrcTable, Vector.getElem_ofFn]
  rw [found, entryIsShifts]
  rfl

theorem updateFeeds (crc : UInt32) (b : UInt8) :
    (crcUpdate crc b).toBitVec = ShiftRegister.feed crcPolynomial crc.toBitVec b := by
  have byte := b.toNat_lt
  have mixed : (crc ^^^ b.toUInt32).toBitVec = crc.toBitVec ^^^ BitVec.ofNat 32 b.toNat := by
    rw [UInt32.toBitVec_xor]
    congr 1
    apply BitVec.eq_of_toNat_eq
    rw [BitVec.toNat_ofNat, Nat.mod_eq_of_lt (by omega), UInt32.toNat_toBitVec, UInt8.toNat_toUInt32]
  have position : ((crc ^^^ b.toUInt32) &&& 0xFF).toNat =
      (crc.toBitVec ^^^ BitVec.ofNat 32 b.toNat).toNat % 2 ^ 8 := by
    rw [UInt32.toNat_and, ← UInt32.toNat_toBitVec (crc ^^^ b.toUInt32), mixed]
    exact Nat.and_two_pow_sub_one_eq_mod _ 8
  have gone : BitVec.ofNat 32 b.toNat >>> 8 = 0#32 := by
    apply BitVec.eq_of_toNat_eq
    rw [BitVec.toNat_ushiftRight, BitVec.toNat_ofNat, Nat.mod_eq_of_lt (by omega),
      Nat.shiftRight_eq_div_pow, Nat.div_eq_of_lt byte]
    rfl
  have rest : (crc >>> 8).toBitVec = (crc.toBitVec ^^^ BitVec.ofNat 32 b.toNat) >>> 8 := by
    rw [BitVec.ushiftRight_xor_distrib, gone, BitVec.xor_zero, UInt32.toBitVec_shiftRight]
    rfl
  calc (crcUpdate crc b).toBitVec
      = ShiftRegister.steps crcPolynomial 8 (BitVec.ofNat 32 ((crc ^^^ b.toUInt32) &&& 0xFF).toNat) ^^^
          (crc >>> 8).toBitVec := by rw [crcUpdate, UInt32.toBitVec_xor, tableEntry]
    _ = ShiftRegister.feed crcPolynomial crc.toBitVec b := by
        rw [position, rest, ShiftRegister.feed, ← ShiftRegister.stepsTable]

theorem updatesRun (crc : UInt32) (data : Bytes) :
    (data.foldl crcUpdate crc).toBitVec = ShiftRegister.run crcPolynomial crc.toBitVec data := by
  induction data generalizing crc with
  | nil => rfl
  | cons b data ih => rw [List.foldl_cons, ih, updateFeeds]; rfl

theorem crc32IsRun (data : Bytes) :
    (crc32 data).toBitVec = ShiftRegister.run crcPolynomial crcStart data ^^^ crcStart := by
  rw [crc32, UInt32.toBitVec_xor, updatesRun]
  rfl

/-- CRC-32 a bit at a time, the polynomial reflected and the low bit of each byte first. -/
def bitwiseCrc (data : Bytes) : BitVec 32 :=
  (data.flatMap (fun b => ShiftRegister.lowBits 8 b.toNat)).foldl (ShiftRegister.shiftIn 0xEDB88320#32)
    0xFFFFFFFF#32 ^^^ 0xFFFFFFFF#32

theorem crc32Bitwise (data : Bytes) : (crc32 data).toBitVec = bitwiseCrc data := by
  rw [crc32IsRun, ShiftRegister.runBits crcPolynomial (by decide)]
  rfl

example : bitwiseCrc [0x31, 0x32, 0x33, 0x34, 0x35, 0x36, 0x37, 0x38, 0x39] = 0xCBF43926#32 := by decide +kernel

theorem residue (data : Bytes) :
    ShiftRegister.run crcPolynomial crcStart (data ++ u32Bytes (crc32 data)) =
      ShiftRegister.steps crcPolynomial 32 crcStart := by
  have number : BitVec.ofNat 32 (LittleEndian.decode (u32Bytes (crc32 data))) = (crc32 data).toBitVec := by
    apply BitVec.eq_of_toNat_eq
    rw [u32Bytes, LittleEndian.decodeEncodeBounded (crc32 data).toNat_lt, BitVec.toNat_ofNat,
      UInt32.toNat_toBitVec, Nat.mod_eq_of_lt (crc32 data).toNat_lt]
  rw [ShiftRegister.runAppend, ShiftRegister.runWord _ _ _ (by simp), number, lengthU32Bytes, crc32IsRun,
    ← BitVec.xor_assoc, BitVec.xor_self, BitVec.zero_xor]

theorem acceptedResidue {data : Bytes} {hdr : PpmoHeader} {d : List BlockEntry} {stop : Nat}
    (accepted : Accepted data hdr d stop) :
    ShiftRegister.run crcPolynomial crcStart (data.take 26) =
      ShiftRegister.steps crcPolynomial 32 crcStart := by
  have base : data.take 26 = headerFields hdr ++ u32Bytes (crc32 (headerFields hdr)) := by
    have cut := congrArg (List.take 26) accepted.written
    rw [List.take_take, Nat.min_eq_left (by rw [accepted.place]; omega), writeHeaderEq,
      List.take_append_of_le_length (by simp), List.take_of_length_le (by simp)] at cut
    exact cut.symm
  rw [base]
  exact residue _

theorem windowParts {s s' : Bytes} {start width : Nat}
    (reach : start + width ≤ 26)
    (outside : ∀ i, i < start ∨ start + width ≤ i → s'[i]? = s[i]?) :
    s'.take 26 = s.take start ++ (s'.drop start).take width ++ (s.drop (start + width)).take (26 - (start + width)) ∧
    s.take 26 = s.take start ++ (s.drop start).take width ++ (s.drop (start + width)).take (26 - (start + width)) := by
  have parts (x : Bytes) : x.take 26 =
      x.take start ++ (x.drop start).take width ++ (x.drop (start + width)).take (26 - (start + width)) := by
    rw [← List.take_add, ← List.take_add, Nat.add_sub_cancel' reach]
  have front : s'.take start = s.take start := by
    apply List.ext_getElem?
    intro i
    rw [List.getElem?_take, List.getElem?_take]
    split
    · exact outside i (.inl ‹_›)
    · rfl
  have back : s'.drop (start + width) = s.drop (start + width) := by
    apply List.ext_getElem?
    intro i
    rw [List.getElem?_drop, List.getElem?_drop]
    exact outside _ (.inr (by omega))
  exact ⟨by rw [parts s', front, back], parts s⟩

theorem headerTamperingDetected (s s' : Bytes) (r : PpmoHeader × List BlockEntry × Nat) (start width : Nat)
    (ok : readHeader s = .ok r) (length : s'.length = s.length) (narrow : width ≤ 4)
    (reach : start + width ≤ 26) (outside : ∀ i, i < start ∨ start + width ≤ i → s'[i]? = s[i]?)
    (differs : s' ≠ s) : ∃ e, readHeader s' = .err e := by
  rcases readHeaderCases s' with failed | ⟨hdr', d', stop', _, accepted'⟩
  · exact failed
  exfalso
  have accepted := readHeaderAccepted ok
  obtain ⟨parts', parts⟩ := windowParts reach outside
  have same := (acceptedResidue accepted').trans (acceptedResidue accepted).symm
  rw [parts', parts] at same
  have long := accepted.inside
  rw [accepted.place] at long
  have window : (s'.drop start).take width = (s.drop start).take width :=
    ShiftRegister.burstBetween crcPolynomial rfl crcStart _ _ (by simp [length]) (by simp; omega) same
  apply differs
  apply List.ext_getElem?
  intro i
  by_cases inside : start ≤ i ∧ i < start + width
  · have byte := congrArg (fun x : Bytes => x[i - start]?) window
    simpa [List.getElem?_take, show i - start < width by omega, Nat.add_sub_cancel' inside.1] using byte
  · exact outside i (by omega)

theorem headerTamperingDetectedAcross :
    ∃ e, readHeader (((writeHeader ⟨1, 0, 0, 65536⟩ []).set 21 7).set 22 0) = .err e := by
  have ok := readHeaderOfWritten ⟨1, 0, 0, 65536⟩ [] [] rfl
  rw [List.append_nil] at ok
  refine headerTamperingDetected _ _ _ 21 2 ok (by simp) (by decide) (by decide) ?_ (by decide +kernel)
  intro i apart
  rw [List.getElem?_set_ne (by omega), List.getElem?_set_ne (by omega)]

end Openpresser.Format
