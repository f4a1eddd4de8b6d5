import Openpresser.RoundTrip

/-! `verify` against `decompress`: one accepts what the other accepts, and where one
stops the other stops for the same reason. -/
namespace Openpresser.Archive
open Block (Rayon)
open Format (BlockEntry PpmoHeader readHeader)

theorem outlineEnsure {c : Prop} [Decidable c] {α β : Type} {e e' : EngineError} {x : Result α} {y : Result β}
    (variant : e.variant = e'.variant) (same : c → outline x = outline y) :
    outline (Outcome.ensure c e >>= fun _ => x) = outline (Outcome.ensure c e' >>= fun _ => y) := by
  by_cases h : c
  · rw [Outcome.ensurePass _ h, Outcome.ensurePass _ h, Outcome.okBind, Outcome.okBind, same h]
  · rw [Outcome.ensureFail _ h, Outcome.ensureFail _ h, Outcome.errBind, Outcome.errBind, outline, outline, variant]

/-- The archive promises no more than a vector holds, and neither does any prefix of its blocks. -/
def FitsMemory (input : Bytes) : Prop :=
  ∀ header directory stop, readHeader input = .ok (header, directory, stop) →
    header.originalSize.toNat ≤ isizeMax ∧ (acceptedBlocks input directory stop).flatten.length ≤ isizeMax

theorem outlineAgrees {input : Bytes} (fits : FitsMemory input) :
    outline (verify input) = outline (decompress input) := by
  refine outlineBind rfl ?_
  rintro ⟨header, directory, stop⟩ read' read found
  cases Outcome.ok.inj (found.symm.trans read)
  obtain ⟨reserved, accepted⟩ := fits header directory stop read
  have room : 0 + (acceptedBlocks input directory stop).flatten.length < 2 ^ 64 := by
    have limit : isizeMax < 2 ^ 64 := by decide
    omega
  obtain ⟨same, counts⟩ := verifyFromWalk input 0 directory stop 0 room
  simp only [Outcome.assertPass reserved, Outcome.okBind, decompressFromWalk, bind_assoc]
  refine outlineBind same ?_
  intro total raws counted walked
  cases Outcome.ok.inj ((counts raws walked).symm.trans counted)
  rw [Nat.zero_add, List.nil_append]
  refine outlineEnsure rfl fun _ => ?_
  obtain ⟨info, inspected, _⟩ := inspectOk read
  rw [inspected]
  rfl

theorem outlineOk {α : Type} {x : Result α} : outline x = .ok () ↔ ∃ a, x = .ok a := by
  cases x <;> simp [outline]

theorem outlineErr {α : Type} {x : Result α} {v : Variant} :
    outline x = .err v ↔ ∃ e, x = .err e ∧ e.variant = v := by
  cases x <;> simp [outline]

theorem outlinePanic {α : Type} {x : Result α} : outline x = .panic ↔ x = .panic := by
  cases x <;> simp [outline]

theorem outlineDiverge {α : Type} {x : Result α} : outline x = .diverge ↔ x = .diverge := by
  cases x <;> simp [outline]

theorem passesSame {input : Bytes} {header header' : PpmoHeader} {directory directory' : List BlockEntry}
    {stop stop' : Nat} {raws raws' : List Bytes} (passes : Passes input header directory stop raws)
    (passes' : Passes input header' directory' stop' raws') : header = header' ∧ raws = raws' := by
  cases Outcome.ok.inj (passes.read.symm.trans passes'.read)
  exact ⟨rfl, Outcome.ok.inj (passes.walked.symm.trans passes'.walked)⟩

theorem passesFit {input : Bytes} {header : PpmoHeader} {directory : List BlockEntry} {stop : Nat} {raws : List Bytes}
    (passes : Passes input header directory stop raws) (small : header.originalSize.toNat ≤ isizeMax) :
    FitsMemory input := by
  intro header' directory' stop' read
  cases Outcome.ok.inj (passes.read.symm.trans read)
  rw [walkAccepted passes.walked, passes.size]
  exact ⟨small, small⟩

theorem verifyAgreesWithDecompress (x : Bytes) (fits : FitsMemory x) :
    ((∃ info, verify x = .ok info) ↔ ∃ out, decompress x = .ok out) ∧
    (∀ info out, verify x = .ok info → decompress x = .ok out → out.length = info.originalSize.toNat) ∧
    (∀ v, (∃ e, verify x = .err e ∧ e.variant = v) ↔ ∃ e, decompress x = .err e ∧ e.variant = v) ∧
    (verify x = .panic ↔ decompress x = .panic) ∧
    (verify x = .diverge ↔ decompress x = .diverge) := by
  have agrees := outlineAgrees fits
  refine ⟨?_, ?_, ?_, ?_, ?_⟩
  · rw [← outlineOk, ← outlineOk, agrees]
  · intro info out verified decompressed
    obtain ⟨inspected, header, directory, stop, raws, passes⟩ := verifyOk.mp verified
    obtain ⟨header', directory', stop', raws', passes', rfl, _⟩ := decompressOk.mp decompressed
    obtain ⟨rfl, rfl⟩ := passesSame passes passes'
    obtain ⟨info', inspected', size, _⟩ := inspectOk passes.read
    cases Outcome.ok.inj (inspected.symm.trans inspected')
    rw [size, passes.size]
  · intro v
    rw [← outlineErr, ← outlineErr, agrees]
  · rw [← outlinePanic, ← outlinePanic, agrees]
  · rw [← outlineDiverge, ← outlineDiverge, agrees]

theorem verifyAgreesWithDecompressThree : ∃ a, compress Rayon.sequential [7, 8, 9] ⟨2, 32, true⟩ = .ok a ∧
    decompress a = .ok [7, 8, 9] ∧
    ((∃ info, verify a = .ok info) ↔ ∃ out, decompress a = .ok out) ∧
    (∀ info out, verify a = .ok info → decompress a = .ok out → out.length = info.originalSize.toNat) ∧
    (∀ v, (∃ e, verify a = .err e ∧ e.variant = v) ↔ ∃ e, decompress a = .err e ∧ e.variant = v) ∧
    (verify a = .panic ↔ decompress a = .panic) ∧
    (verify a = .diverge ↔ decompress a = .diverge) := by
  obtain ⟨compressed, run, pieces⟩ := compressRoomy Rayon.sequential threeRoomy
  exact ⟨_, run, roomyDecompresses threeRoomy pieces,
    verifyAgreesWithDecompress _ (passesFit (archivePasses threeRoomy pieces) (by decide))⟩

end Openpresser.Archive
