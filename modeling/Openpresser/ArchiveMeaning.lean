import Openpresser.BlockMeaning
import Openpresser.Walk

/-! What an archive says, for any bytes: a header image, its payloads one behind the
other, and whatever follows. Both readers give it that meaning; the walk stops short
at the first block that does not decode. -/
namespace Openpresser.Archive
open Block (Panics Says Spins decompressBlock fieldRoom)
open Format (BlockEntry PpmoHeader crc32 readHeader readHeaderAccepted readHeaderCases readHeaderOfWritten
  writeHeader)

/-- A payload for every entry, of its length, that decodes to bytes with its checksum. -/
inductive Holds : List BlockEntry → List Bytes → List Bytes → Prop where
  | nil : Holds [] [] []
  | cons {entry : BlockEntry} {payload raw : Bytes} {directory : List BlockEntry} {payloads raws : List Bytes}
      (size : payload.length = entry.compressedLen.toNat) (decoded : Says payload entry.uncompressedLen.toNat raw)
      (check : crc32 raw = entry.crc32) (tail : Holds directory payloads raws) :
      Holds (entry :: directory) (payload :: payloads) (raw :: raws)

structure Image (input : Bytes) (header : PpmoHeader) (directory : List BlockEntry) (rest : Bytes) : Prop where
  bytes : input = writeHeader header directory ++ rest
  number : directory.length = header.blockCount.toNat

def Means (input out : Bytes) : Prop :=
  ∃ header directory payloads raws rest, Image input header directory (payloads.flatten ++ rest) ∧
    Holds directory payloads raws ∧ out = raws.flatten ∧ out.length = header.originalSize.toNat

/-- Behind blocks that decode, the payloads reach one that does as `P` says. -/
def Reaches (P : Bytes → Nat → Prop) (directory : List BlockEntry) (rest : Bytes) : Prop :=
  ∃ front entry back payloads raws payload tail, directory = front ++ entry :: back ∧
    rest = payloads.flatten ++ payload ++ tail ∧ Holds front payloads raws ∧
    payload.length = entry.compressedLen.toNat ∧ P payload entry.uncompressedLen.toNat

theorem holdsLength {directory : List BlockEntry} {payloads raws : List Bytes} (holds : Holds directory payloads raws) :
    payloads.flatten.length = payloadLength directory := by
  induction holds with
  | nil => rfl
  | cons size decoded check tail ih =>
    rw [payloadLength] at ih ⊢
    rw [List.flatten_cons, List.length_append, List.map_cons, List.sum_cons, ih, size]

theorem holdsSizes {directory : List BlockEntry} {payloads raws : List Bytes} (holds : Holds directory payloads raws) :
    List.Forall₂ (fun payload entry => payload.length = entry.compressedLen.toNat) payloads directory := by
  induction holds with
  | nil => exact .nil
  | cons size decoded check tail ih => exact .cons size ih

/-! One block. -/
section
variable {input : Bytes} {entry : BlockEntry} {dataOffset : Nat} {raw : Bytes}

theorem blockAtOk : blockAt input entry dataOffset = .ok raw ↔
    dataOffset + entry.compressedLen.toNat ≤ input.length ∧
      Says ((input.drop dataOffset).take entry.compressedLen.toNat) entry.uncompressedLen.toNat raw ∧
      crc32 raw = entry.crc32 := by
  rw [blockAt]
  simp only [Outcome.bindOk, Outcome.ensureOk, Block.decompressBlockSays (fieldRoom entry.uncompressedLen)]
  constructor
  · rintro ⟨_, inside, raw', decoded, _, check, same⟩
    cases Outcome.ok.inj same
    exact ⟨inside, decoded, check⟩
  · rintro ⟨inside, decoded, check⟩
    exact ⟨(), inside, raw, decoded, (), check, rfl⟩

/-- An outcome that is no answer, and that whatever follows leaves as it is. -/
structure Halting (halt : (α : Type) → Result α) : Prop where
  noValue : ∀ (α : Type) (a : α), Outcome.ok a ≠ halt α
  noError : ∀ (α : Type) (e : EngineError), Outcome.err e ≠ halt α
  bind : ∀ (α β : Type) (x : Result α) (f : α → Result β),
    (x >>= f) = halt β ↔ x = halt α ∨ ∃ a, x = .ok a ∧ f a = halt β

theorem panicHalts : Halting fun _ => .panic where
  noValue _ _ := by simp
  noError _ _ := by simp
  bind _ _ _ _ := Outcome.bindPanic

theorem divergeHalts : Halting fun _ => .diverge where
  noValue _ _ := by simp
  noError _ _ := by simp
  bind _ _ _ _ := Outcome.bindDiverge

variable {halt : (α : Type) → Result α} (halting : Halting halt)
include halting

theorem checkAnswers (condition : Prop) [Decidable condition] (e : EngineError) :
    (Outcome.ensure condition e : Result Unit) ≠ halt Unit := by
  unfold Outcome.ensure
  split
  · exact halting.noValue _ _
  · exact halting.noError _ _

variable {P : Bytes → Nat → Prop}
  (block : ∀ {compressed} {declared : UInt32},
    decompressBlock compressed declared.toNat = halt Bytes ↔ P compressed declared.toNat)
include block

theorem blockAtHalts : blockAt input entry dataOffset = halt Bytes ↔
    dataOffset + entry.compressedLen.toNat ≤ input.length ∧
      P ((input.drop dataOffset).take entry.compressedLen.toNat) entry.uncompressedLen.toNat := by
  rw [blockAt, halting.bind, or_iff_right (checkAnswers halting _ _)]
  constructor
  · rintro ⟨_, inside, halted⟩
    rw [halting.bind, block] at halted
    rcases halted with stops | ⟨raw, _, checked⟩
    · exact ⟨Outcome.ensureOk.mp inside, stops⟩
    · rw [halting.bind, or_iff_right (checkAnswers halting _ _)] at checked
      obtain ⟨_, _, same⟩ := checked
      exact absurd same (halting.noValue _ _)
  · rintro ⟨inside, stops⟩
    exact ⟨(), Outcome.ensurePass _ inside, (halting.bind _ _ _ _).mpr (.inl (block.mpr stops))⟩

end

/-! The walk. -/
theorem dropSplit {input : Bytes} {dataOffset len : Nat} (inside : dataOffset + len ≤ input.length) :
    input.drop dataOffset = (input.drop dataOffset).take len ++ input.drop (dataOffset + len) ∧
      ((input.drop dataOffset).take len).length = len := by
  constructor
  · rw [← List.drop_drop, List.take_append_drop]
  · rw [List.length_take, List.length_drop]
    omega

theorem splitInside {input payload tail : Bytes} {dataOffset len : Nat} (start : dataOffset ≤ input.length)
    (split : input.drop dataOffset = payload ++ tail) (size : payload.length = len) :
    dataOffset + len ≤ input.length ∧ (input.drop dataOffset).take len = payload ∧
      input.drop (dataOffset + len) = tail := by
  have total := congrArg List.length split
  rw [List.length_drop, List.length_append] at total
  refine ⟨by omega, by rw [split, List.take_left' size], ?_⟩
  rw [← List.drop_drop, split, List.drop_left' size]

theorem walkHolds {input : Bytes} {directory : List BlockEntry} {dataOffset : Nat} {raws : List Bytes}
    (start : dataOffset ≤ input.length) : walk input directory dataOffset = .ok raws ↔
      ∃ payloads rest, input.drop dataOffset = payloads.flatten ++ rest ∧ Holds directory payloads raws := by
  induction directory generalizing dataOffset raws with
  | nil =>
    constructor
    · intro walked
      cases Outcome.ok.inj walked
      exact ⟨[], input.drop dataOffset, rfl, .nil⟩
    · rintro ⟨payloads, rest, _, holds⟩
      cases holds
      rfl
  | cons entry directory ih =>
    rw [walk, Outcome.bindOk]
    constructor
    · rintro ⟨raw, found, walked⟩
      rw [Outcome.bindOk] at walked
      obtain ⟨later, walked, same⟩ := walked
      cases Outcome.ok.inj same
      obtain ⟨inside, decoded, check⟩ := blockAtOk.mp found
      obtain ⟨payloads, rest, split, holds⟩ := (ih inside).mp walked
      obtain ⟨front, size⟩ := dropSplit inside
      exact ⟨_ :: payloads, rest, front.trans (by rw [split, List.flatten_cons, List.append_assoc]),
        .cons size decoded check holds⟩
    · rintro ⟨payloads, rest, split, holds⟩
      cases holds with
      | @cons _ payload raw _ payloads raws size decoded check tail =>
        rw [List.flatten_cons, List.append_assoc] at split
        obtain ⟨inside, here, behind⟩ := splitInside start split size
        refine ⟨raw, blockAtOk.mpr ⟨inside, here.symm ▸ decoded, check⟩, ?_⟩
        rw [(ih inside).mpr ⟨payloads, rest, behind, tail⟩, Outcome.okBind]

theorem walkHalts {halt : (α : Type) → Result α} (halting : Halting halt) {P : Bytes → Nat → Prop}
    (block : ∀ {compressed} {declared : UInt32},
      decompressBlock compressed declared.toNat = halt Bytes ↔ P compressed declared.toNat)
    {input : Bytes} {directory : List BlockEntry} {dataOffset : Nat} (start : dataOffset ≤ input.length) :
    walk input directory dataOffset = halt (List Bytes) ↔ Reaches P directory (input.drop dataOffset) := by
  induction directory generalizing dataOffset with
  | nil =>
    refine ⟨fun halted => absurd halted (halting.noValue _ _), ?_⟩
    rintro ⟨front, entry, back, _, _, _, _, empty, _⟩
    simp at empty
  | cons entry directory ih =>
    rw [walk, halting.bind, blockAtHalts halting block]
    constructor
    · rintro (⟨inside, stops⟩ | ⟨raw, found, halted⟩)
      · obtain ⟨split, size⟩ := dropSplit inside
        exact ⟨[], entry, directory, [], [], _, _, rfl, split, .nil, size, stops⟩
      · rw [halting.bind] at halted
        obtain ⟨inside, decoded, check⟩ := blockAtOk.mp found
        rcases halted with halted | ⟨_, _, same⟩
        · obtain ⟨front, entry', back, payloads, raws, payload, tail, rfl, split, holds, size', stops⟩ :=
            (ih inside).mp halted
          obtain ⟨here, size⟩ := dropSplit inside
          exact ⟨entry :: front, entry', back, _ :: payloads, raw :: raws, payload, tail, rfl,
            here.trans (by rw [split, List.flatten_cons, List.append_assoc, List.append_assoc, List.append_assoc]),
            .cons size decoded check holds, size', stops⟩
        · exact absurd same (halting.noValue _ _)
    · rintro ⟨front, entry', back, payloads, raws, payload, tail, whole, split, holds, size', stops⟩
      cases holds with
      | nil =>
        obtain ⟨rfl, rfl⟩ := List.cons.inj whole
        rw [List.flatten_nil, List.nil_append] at split
        obtain ⟨inside, here, _⟩ := splitInside start split size'
        exact .inl ⟨inside, here.symm ▸ stops⟩
      | @cons first payload' raw front payloads raws size decoded check rest =>
        obtain ⟨rfl, rfl⟩ := List.cons.inj whole
        rw [List.flatten_cons, List.append_assoc, List.append_assoc] at split
        obtain ⟨inside, here, behind⟩ := splitInside start split size
        have later : walk input (front ++ entry' :: back) (dataOffset + entry.compressedLen.toNat) =
            halt (List Bytes) :=
          (ih inside).mpr ⟨front, entry', back, payloads, raws, payload, tail, rfl,
            by rw [behind, List.append_assoc], rest, size', stops⟩
        refine .inr ⟨raw, blockAtOk.mpr ⟨inside, here.symm ▸ decoded, check⟩, ?_⟩
        rw [halting.bind]
        exact .inl later

/-! The whole archive. -/
section
variable {input : Bytes} {header : PpmoHeader} {directory : List BlockEntry} {stop : Nat} {rest : Bytes}

theorem imageRead (image : Image input header directory rest) :
    readHeader input = .ok (header, directory, 26 + 12 * directory.length) ∧
      26 + 12 * directory.length ≤ input.length ∧ input.drop (26 + 12 * directory.length) = rest := by
  have size := Format.lengthWriteHeader header directory
  rw [image.bytes]
  refine ⟨readHeaderOfWritten header directory rest image.number, ?_, List.drop_left' size⟩
  rw [List.length_append, size]
  omega

theorem readImage (read : readHeader input = .ok (header, directory, stop)) :
    Image input header directory (input.drop stop) ∧ stop = 26 + 12 * directory.length ∧ stop ≤ input.length := by
  have accepted := readHeaderAccepted read
  exact ⟨⟨by rw [accepted.written, List.take_append_drop], accepted.count⟩, accepted.place, accepted.inside⟩

theorem passesHolds {raws : List Bytes} (passes : Passes input header directory stop raws) :
    ∃ payloads rest, Image input header directory (payloads.flatten ++ rest) ∧ Holds directory payloads raws := by
  obtain ⟨image, _, inside⟩ := readImage passes.read
  obtain ⟨payloads, rest, split, holds⟩ := (walkHolds inside).mp passes.walked
  exact ⟨payloads, rest, split ▸ image, holds⟩

theorem meansPasses {out : Bytes} : Means input out ↔
    ∃ header directory stop raws, Passes input header directory stop raws ∧ out = raws.flatten := by
  constructor
  · rintro ⟨header, directory, payloads, raws, rest, image, holds, rfl, size⟩
    obtain ⟨read, inside, behind⟩ := imageRead image
    exact ⟨header, directory, _, raws, ⟨read, (walkHolds inside).mpr ⟨payloads, rest, behind, holds⟩, size⟩, rfl⟩
  · rintro ⟨header, directory, stop, raws, passes, rfl⟩
    obtain ⟨payloads, rest, image, holds⟩ := passesHolds passes
    exact ⟨header, directory, payloads, raws, rest, image, holds, rfl, passes.size⟩

theorem meansHolds {input out rest : Bytes} {header : PpmoHeader} {directory : List BlockEntry}
    (image : Image input header directory rest) (means : Means input out) :
    ∃ payloads raws tail, rest = payloads.flatten ++ tail ∧ Holds directory payloads raws ∧ out = raws.flatten ∧
      out.length = header.originalSize.toNat := by
  obtain ⟨header', directory', stop, raws, ⟨read, walked, size⟩, rfl⟩ := meansPasses.mp means
  obtain ⟨found, inside, behind⟩ := imageRead image
  cases Outcome.ok.inj (read.symm.trans found)
  obtain ⟨payloads, tail, split, holds⟩ := (walkHolds inside).mp walked
  exact ⟨payloads, raws, tail, behind.symm.trans split, holds, rfl, size⟩

theorem decompressHalts {halt : (α : Type) → Result α} (halting : Halting halt) {P : Bytes → Nat → Prop}
    (block : ∀ {compressed} {declared : UInt32},
      decompressBlock compressed declared.toNat = halt Bytes ↔ P compressed declared.toNat)
    (image : Image input header directory rest) (small : header.originalSize.toNat ≤ isizeMax) :
    decompress input = halt Bytes ↔ Reaches P directory rest := by
  obtain ⟨read, inside, behind⟩ := imageRead image
  simp only [decompress, read, Outcome.okBind, Outcome.assertPass small, decompressFromWalk, bind_assoc]
  rw [halting.bind, walkHalts halting block inside, behind]
  refine or_iff_left ?_
  rintro ⟨raws, _, halted⟩
  rw [halting.bind, or_iff_right (checkAnswers halting _ _)] at halted
  obtain ⟨_, _, same⟩ := halted
  exact halting.noValue _ _ same

theorem decompressLarge (image : Image input header directory rest) (large : ¬ header.originalSize.toNat ≤ isizeMax) :
    decompress input = .panic := by
  simp only [decompress, (imageRead image).1, Outcome.okBind, Outcome.assert, if_neg large, Outcome.panicBind]

theorem headerFirst {halt : (α : Type) → Result α} (halting : Halting halt) (halted : decompress input = halt Bytes) :
    ∃ header directory rest, Image input header directory rest := by
  rcases readHeaderCases input with ⟨e, failed⟩ | ⟨header, directory, stop, read, _⟩
  · rw [decompress, failed, Outcome.errBind] at halted
    exact absurd halted (halting.noError _ _)
  · exact ⟨header, directory, _, (readImage read).1⟩

theorem decompressedMeans {out : Bytes} : decompress input = .ok out ↔ Means input out ∧ out.length ≤ isizeMax := by
  rw [decompressOk, meansPasses]
  constructor
  · rintro ⟨header, directory, stop, raws, passes, rfl, small⟩
    exact ⟨⟨header, directory, stop, raws, passes, rfl⟩, by rw [passes.size]; exact small⟩
  · rintro ⟨⟨header, directory, stop, raws, passes, rfl⟩, small⟩
    exact ⟨header, directory, stop, raws, passes, rfl, by rw [← passes.size]; exact small⟩

theorem inspectedImage : (∃ info, inspect input = .ok info) ↔
    ∃ header directory rest, Image input header directory rest := by
  constructor
  · rintro ⟨info, inspected⟩
    rw [inspect, Outcome.bindOk] at inspected
    obtain ⟨⟨header, directory, stop⟩, accepted, _⟩ := inspected
    exact ⟨header, directory, _, (readImage accepted).1⟩
  · rintro ⟨header, directory, rest, image⟩
    obtain ⟨info, inspected, _⟩ := inspectOk (imageRead image).1
    exact ⟨info, inspected⟩

theorem verifiedMeans : (∃ info, verify input = .ok info) ↔ ∃ out, Means input out := by
  constructor
  · rintro ⟨info, verified⟩
    obtain ⟨_, header, directory, stop, raws, passes⟩ := verifyOk.mp verified
    exact ⟨raws.flatten, meansPasses.mpr ⟨header, directory, stop, raws, passes, rfl⟩⟩
  · rintro ⟨out, means⟩
    obtain ⟨header, directory, stop, raws, passes, _⟩ := meansPasses.mp means
    obtain ⟨info, inspected, _⟩ := inspectOk passes.read
    exact ⟨info, verifyOk.mpr ⟨inspected, header, directory, stop, raws, passes⟩⟩

end

/-- Both readers accept the same bytes for the same meaning, and a decompression that does
not come back is one that reserves too much or that reaches a block which does not. -/
theorem decompressMeans (input : Bytes) :
    (∀ out, decompress input = .ok out ↔ Means input out ∧ out.length ≤ isizeMax) ∧
    ((∃ info, verify input = .ok info) ↔ ∃ out, Means input out) ∧
    (decompress input = .panic ↔ ∃ header directory rest, Image input header directory rest ∧
      (header.originalSize.toNat ≤ isizeMax → Reaches Panics directory rest)) ∧
    (decompress input = .diverge ↔ ∃ header directory rest, Image input header directory rest ∧
      header.originalSize.toNat ≤ isizeMax ∧ Reaches (fun payload _ => Spins payload) directory rest) := by
  refine ⟨fun out => decompressedMeans, verifiedMeans, ⟨fun stopped => ?_, ?_⟩, ⟨fun starved => ?_, ?_⟩⟩
  · obtain ⟨header, directory, rest, image⟩ := headerFirst panicHalts stopped
    exact ⟨header, directory, rest, image,
      fun small => (decompressHalts panicHalts (Block.decompressBlockPanics (fieldRoom _)) image small).mp stopped⟩
  · rintro ⟨header, directory, rest, image, reaches⟩
    by_cases small : header.originalSize.toNat ≤ isizeMax
    · exact (decompressHalts panicHalts (Block.decompressBlockPanics (fieldRoom _)) image small).mpr (reaches small)
    · exact decompressLarge image small
  · obtain ⟨header, directory, rest, image⟩ := headerFirst divergeHalts starved
    by_cases small : header.originalSize.toNat ≤ isizeMax
    · exact ⟨header, directory, rest, image, small,
        (decompressHalts divergeHalts (Block.decompressBlockSpins (fieldRoom _)) image small).mp starved⟩
    · rw [decompressLarge image small] at starved
      contradiction
  · rintro ⟨header, directory, rest, image, small, reaches⟩
    exact (decompressHalts divergeHalts (Block.decompressBlockSpins (fieldRoom _)) image small).mpr reaches

end Openpresser.Archive
