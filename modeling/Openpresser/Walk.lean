import Openpresser.Archive
import Openpresser.Header

/-! The archive walk as one function of the directory. Both loops of the source are
this walk: one keeps the bytes, the other their number. -/
namespace Openpresser.Archive
open Block (decompressBlock)
open Format (BlockEntry PpmoHeader crc32 readHeader)

def blockAt (input : Bytes) (entry : BlockEntry) (dataOffset : Nat) : Result Bytes := do
  Outcome.ensure (dataOffset + entry.compressedLen.toNat ≤ input.length) (.decompressError "truncated block data")
  let raw ← decompressBlock ((input.drop dataOffset).take entry.compressedLen.toNat) entry.uncompressedLen.toNat
  Outcome.ensure (crc32 raw = entry.crc32) .checksumMismatch
  .ok raw

def walk (input : Bytes) : List BlockEntry → Nat → Result (List Bytes)
  | [], _ => .ok []
  | entry :: directory, dataOffset => do
    let raw ← blockAt input entry dataOffset
    let rest ← walk input directory (dataOffset + entry.compressedLen.toNat)
    .ok (raw :: rest)

def acceptedBlocks (input : Bytes) : List BlockEntry → Nat → List Bytes
  | [], _ => []
  | entry :: directory, dataOffset => match blockAt input entry dataOffset with
    | .ok raw => raw :: acceptedBlocks input directory (dataOffset + entry.compressedLen.toNat)
    | _ => []

def payloadLength (directory : List BlockEntry) : Nat := (directory.map (fun e => e.compressedLen.toNat)).sum

/-! The loops. -/
theorem decompressFromWalk (input : Bytes) (directory : List BlockEntry) (dataOffset : Nat) (out : Bytes) :
    decompressFrom input directory dataOffset out =
      walk input directory dataOffset >>= fun raws => .ok (out ++ raws.flatten) := by
  induction directory generalizing dataOffset out with
  | nil => simp [decompressFrom, walk]
  | cons entry directory ih =>
    rw [decompressFrom, walk, blockAt]
    by_cases inside : dataOffset + entry.compressedLen.toNat ≤ input.length
    · simp only [Outcome.ensurePass _ inside, Outcome.sliceInside (Nat.le_add_right _ _) inside,
        Nat.add_sub_cancel_left, Outcome.okBind, bind_assoc, ih, List.flatten_cons, List.append_assoc]
    · simp only [Outcome.ensureFail _ inside, Outcome.errBind]

def outline {α : Type} : Result α → Outcome Variant Unit
  | .ok _ => .ok ()
  | .err e => .err e.variant
  | .panic => .panic
  | .diverge => .diverge

theorem outlineBind {α β γ δ : Type} {x : Result α} {y : Result β} {f : α → Result γ} {g : β → Result δ}
    (same : outline x = outline y) (next : ∀ a b, x = .ok a → y = .ok b → outline (f a) = outline (g b)) :
    outline (x >>= f) = outline (y >>= g) := by
  cases x <;> cases y <;> first | exact next _ _ rfl rfl | exact same | contradiction

theorem verifyFromWalk (input : Bytes) (i : Nat) (directory : List BlockEntry) (dataOffset total : Nat)
    (fits : total + (acceptedBlocks input directory dataOffset).flatten.length < 2 ^ 64) :
    outline (verifyFrom input i directory dataOffset total) = outline (walk input directory dataOffset) ∧
    ∀ raws, walk input directory dataOffset = .ok raws →
      verifyFrom input i directory dataOffset total = .ok (total + raws.flatten.length) := by
  induction directory generalizing i dataOffset total with
  | nil =>
    refine ⟨rfl, fun raws found => ?_⟩
    cases Outcome.ok.inj found
    rfl
  | cons entry directory ih =>
    rw [acceptedBlocks] at fits
    rw [verifyFrom, walk]
    by_cases inside : dataOffset + entry.compressedLen.toNat ≤ input.length
    case neg => simp [blockAt, Outcome.ensureFail _ inside, outline, EngineError.variant]
    have split (f : Bytes → Result Nat) : (do
        let raw ← decompressBlock ((input.drop dataOffset).take entry.compressedLen.toNat)
          entry.uncompressedLen.toNat
        Outcome.ensure (crc32 raw = entry.crc32) .checksumMismatch
        f raw) = blockAt input entry dataOffset >>= f := by
      simp only [blockAt, Outcome.ensurePass _ inside, Outcome.okBind, bind_assoc]
    simp only [Outcome.ensurePass _ inside, Outcome.sliceInside (Nat.le_add_right _ _) inside,
      Nat.add_sub_cancel_left, Outcome.okBind]
    rw [split]
    cases block : blockAt input entry dataOffset with
    | err e => exact ⟨rfl, fun raws found => by contradiction⟩
    | panic => exact ⟨rfl, fun raws found => by contradiction⟩
    | diverge => exact ⟨rfl, fun raws found => by contradiction⟩
    | ok raw =>
      simp only [block, List.flatten_cons, List.length_append] at fits
      obtain ⟨same, counts⟩ := ih (i + 1) (dataOffset + entry.compressedLen.toNat) (total + raw.length) (by omega)
      rw [Outcome.okBind, Outcome.okBind, Outcome.addFits (by omega), Outcome.okBind]
      constructor
      · rw [same]
        cases walk input directory (dataOffset + entry.compressedLen.toNat) <;> rfl
      · intro raws found
        obtain ⟨rest, walked, joined⟩ := Outcome.bindOk.mp found
        cases Outcome.ok.inj joined
        rw [counts rest walked, List.flatten_cons, List.length_append, Nat.add_assoc]

theorem walkAccepted {input : Bytes} {directory : List BlockEntry} {dataOffset : Nat} {raws : List Bytes}
    (walked : walk input directory dataOffset = .ok raws) : acceptedBlocks input directory dataOffset = raws := by
  induction directory generalizing dataOffset raws with
  | nil => exact Outcome.ok.inj walked
  | cons entry directory ih =>
    obtain ⟨raw, found, rest⟩ := Outcome.bindOk.mp walked
    obtain ⟨later, walked', joined⟩ := Outcome.bindOk.mp rest
    cases Outcome.ok.inj joined
    rw [acceptedBlocks, found]
    simp only [ih walked']

theorem verifyFromOk {input : Bytes} {i : Nat} {directory : List BlockEntry} {dataOffset total last : Nat}
    (verified : verifyFrom input i directory dataOffset total = .ok last) :
    ∃ raws, walk input directory dataOffset = .ok raws ∧ last = total + raws.flatten.length := by
  induction directory generalizing i dataOffset total with
  | nil => exact ⟨[], rfl, (Outcome.ok.inj verified).symm⟩
  | cons entry directory ih =>
    rw [verifyFrom] at verified
    obtain ⟨_, inside, verified⟩ := Outcome.bindOk.mp verified
    have inside := Outcome.ensureOk.mp inside
    rw [Outcome.sliceInside (Nat.le_add_right _ _) inside, Nat.add_sub_cancel_left, Outcome.okBind] at verified
    obtain ⟨raw, decoded, verified⟩ := Outcome.bindOk.mp verified
    obtain ⟨_, checked, verified⟩ := Outcome.bindOk.mp verified
    obtain ⟨sum, added, verified⟩ := Outcome.bindOk.mp verified
    obtain ⟨rest, walked, rfl⟩ := ih verified
    refine ⟨raw :: rest, ?_, ?_⟩
    · simp only [walk, blockAt, Outcome.ensurePass _ inside, decoded, checked, walked, Outcome.okBind]
    · rw [(Outcome.addOk.mp added).2, List.flatten_cons, List.length_append, Nat.add_assoc]

/-! The calls. -/
theorem inspectOk {input : Bytes} {header : PpmoHeader} {directory : List BlockEntry} {stop : Nat}
    (read : readHeader input = .ok (header, directory, stop)) : ∃ info, inspect input = .ok info ∧
      info.originalSize = header.originalSize ∧ info.blockCount = header.blockCount ∧
      info.blockSize = header.blockSize ∧ info.compressedSize = input.length ∧
      info.parallel = decide (header.flags &&& Format.flagParallel ≠ 0) := by
  simp only [inspect, read, Outcome.okBind]
  exact ⟨_, rfl, rfl, rfl, rfl, rfl, rfl⟩

structure Passes (input : Bytes) (header : PpmoHeader) (directory : List BlockEntry) (stop : Nat)
    (raws : List Bytes) : Prop where
  read : readHeader input = .ok (header, directory, stop)
  walked : walk input directory stop = .ok raws
  size : raws.flatten.length = header.originalSize.toNat

theorem verifyOk {input : Bytes} {info : ArchiveInfo} :
    verify input = .ok info ↔
      inspect input = .ok info ∧ ∃ header directory stop raws, Passes input header directory stop raws := by
  constructor
  · intro verified
    obtain ⟨⟨header, directory, stop⟩, read, verified⟩ := Outcome.bindOk.mp verified
    obtain ⟨total, counted, verified⟩ := Outcome.bindOk.mp verified
    obtain ⟨_, checked, inspected⟩ := Outcome.bindOk.mp verified
    obtain ⟨raws, walked, sum⟩ := verifyFromOk counted
    have size := Outcome.ensureOk.mp checked
    exact ⟨inspected, header, directory, stop, raws, read, walked, by rw [← size, sum, Nat.zero_add]⟩
  · rintro ⟨inspected, header, directory, stop, raws, read, walked, size⟩
    have fits : 0 + (acceptedBlocks input directory stop).flatten.length < 2 ^ 64 := by
      rw [walkAccepted walked, size, Nat.zero_add]
      exact header.originalSize.toNat_lt
    have counted := (verifyFromWalk input 0 directory stop 0 fits).2 raws walked
    simp only [verify, read, counted, Outcome.okBind, Outcome.ensurePass _ ((Nat.zero_add _).trans size)]
    exact inspected

theorem decompressOk {input out : Bytes} :
    decompress input = .ok out ↔
      ∃ header directory stop raws, Passes input header directory stop raws ∧ out = raws.flatten ∧
        header.originalSize.toNat ≤ isizeMax := by
  constructor
  · intro decompressed
    obtain ⟨⟨header, directory, stop⟩, read, decompressed⟩ := Outcome.bindOk.mp decompressed
    obtain ⟨_, reserved, decompressed⟩ := Outcome.bindOk.mp decompressed
    obtain ⟨raw, joined, decompressed⟩ := Outcome.bindOk.mp decompressed
    obtain ⟨_, checked, same⟩ := Outcome.bindOk.mp decompressed
    cases Outcome.ok.inj same
    rw [decompressFromWalk] at joined
    obtain ⟨raws, walked, flat⟩ := Outcome.bindOk.mp joined
    cases Outcome.ok.inj flat
    exact ⟨header, directory, stop, raws, ⟨read, walked, Outcome.ensureOk.mp checked⟩, rfl,
      Outcome.assertOk.mp reserved⟩
  · rintro ⟨header, directory, stop, raws, ⟨read, walked, size⟩, rfl, reserved⟩
    simp only [decompress, read, decompressFromWalk, walked, Outcome.okBind, Outcome.assertPass reserved,
      List.nil_append, Outcome.ensurePass _ size]

end Openpresser.Archive
