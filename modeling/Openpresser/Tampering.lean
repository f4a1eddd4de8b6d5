import Openpresser.Splicing

/-! An accepted archive that is changed behind its header, where no checksum covers it: in a
payload, or in what its directory says of lengths. -/
namespace Openpresser.Archive
open Block (Panics Rayon decompressBlock pivotField)
open Chunks (chunks)
open Format (BlockEntry PpmoHeader crc32 writeHeader)

/-! One payload. -/
theorem holdsParts {front back : List BlockEntry} {payloads raws : List Bytes}
    (holds : Holds (front ++ back) payloads raws) :
    ∃ payloads₁ payloads₂ raws₁ raws₂, payloads = payloads₁ ++ payloads₂ ∧ raws = raws₁ ++ raws₂ ∧
      Holds front payloads₁ raws₁ ∧ Holds back payloads₂ raws₂ := by
  induction front generalizing payloads raws with
  | nil => exact ⟨[], payloads, [], raws, rfl, rfl, .nil, holds⟩
  | cons entry front ih =>
    cases holds with
    | @cons _ payload raw _ _ _ size decoded check tail =>
      obtain ⟨payloads₁, payloads₂, raws₁, raws₂, rfl, rfl, first, second⟩ := ih tail
      exact ⟨payload :: payloads₁, payloads₂, raw :: raws₁, raws₂, rfl, rfl, .cons size decoded check first, second⟩

theorem walkAround {input damaged tail : Bytes} {front back : List BlockEntry} {entry : BlockEntry}
    {payloads payloads' raws raws' : List Bytes} {dataOffset : Nat} (first : Holds front payloads raws)
    (second : Holds back payloads' raws') (size : damaged.length = entry.compressedLen.toNat)
    (start : dataOffset ≤ input.length)
    (split : input.drop dataOffset = payloads.flatten ++ (damaged ++ (payloads'.flatten ++ tail))) :
    walk input (front ++ entry :: back) dataOffset = (do
      let raw ← decompressBlock damaged entry.uncompressedLen.toNat
      Outcome.ensure (crc32 raw = entry.crc32) .checksumMismatch
      .ok (raws ++ raw :: raws')) := by
  induction first generalizing dataOffset with
  | nil =>
    rw [List.flatten_nil, List.nil_append] at split
    obtain ⟨inside, here, behind⟩ := splitInside start split size
    have later := (walkHolds inside).mpr ⟨payloads', tail, behind, second⟩
    simp only [List.nil_append, walk, blockAt, Outcome.ensurePass _ inside, here, later, Outcome.okBind, bind_assoc]
  | @cons entry' payload raw front payloads raws size' decoded check rest ih =>
    rw [List.flatten_cons, List.append_assoc] at split
    obtain ⟨inside, here, behind⟩ := splitInside start split size'
    have found : blockAt input entry' dataOffset = .ok raw := blockAtOk.mpr ⟨inside, here.symm ▸ decoded, check⟩
    rw [List.cons_append, walk, found, Outcome.okBind, ih inside behind]
    simp only [bind_assoc, Outcome.okBind, List.cons_append]

/-- Damage to a payload that keeps its length: the outcome is that of its block alone, and what
the other blocks decode to is not touched. -/
theorem payloadDamaged {input before payload after out : Bytes} {header : PpmoHeader} {front back : List BlockEntry}
    {entry : BlockEntry} (image : Image input header (front ++ entry :: back) (before ++ (payload ++ after)))
    (place : before.length = payloadLength front) (size : payload.length = entry.compressedLen.toNat)
    (run : decompress input = .ok out) :
    ∃ left raw right, out = left ++ (raw ++ right) ∧ decompressBlock payload entry.uncompressedLen.toNat = .ok raw ∧
      ∀ damaged, damaged.length = payload.length →
        decompress (writeHeader header (front ++ entry :: back) ++ (before ++ (damaged ++ after))) = (do
          let raw' ← decompressBlock damaged entry.uncompressedLen.toNat
          Outcome.ensure (crc32 raw' = entry.crc32) .checksumMismatch
          Outcome.ensure (raw'.length = raw.length) (.decompressError ("size mismatch: expected " ++
            toString out.length ++ " bytes, got " ++ toString (left.length + raw'.length + right.length)))
          .ok (left ++ (raw' ++ right))) := by
  obtain ⟨means, small⟩ := decompressedMeans.mp run
  obtain ⟨payloads, raws, tail, split, holds, rfl, total⟩ := meansHolds image means
  obtain ⟨payloads₁, payloads₂, raws₁, raws₂, rfl, rfl, first, rest⟩ := holdsParts holds
  cases rest with
  | @cons _ payload' raw _ payloads₂ raws₂ size' decoded check second =>
    rw [List.flatten_append, List.flatten_cons, List.append_assoc, List.append_assoc] at split
    obtain ⟨rfl, behind⟩ := List.append_inj split (by rw [place, holdsLength first])
    obtain ⟨rfl, rfl⟩ := List.append_inj behind (by rw [size, size'])
    refine ⟨raws₁.flatten, raw, raws₂.flatten, by rw [List.flatten_append, List.flatten_cons],
      (Block.decompressBlockSays (Block.fieldRoom _)).mpr decoded, fun damaged same => ?_⟩
    have image' : Image (writeHeader header (front ++ entry :: back) ++
        (payloads₁.flatten ++ (damaged ++ (payloads₂.flatten ++ tail)))) header _ _ := ⟨rfl, image.number⟩
    obtain ⟨read, start, drop⟩ := imageRead image'
    have walked := walkAround first second (same.trans size) start drop
    have reserved : header.originalSize.toNat ≤ isizeMax := total ▸ small
    simp only [decompress, read, Outcome.okBind, Outcome.assertPass reserved, decompressFromWalk, walked, bind_assoc]
    congr 1
    funext raw'
    congr 1
    funext _
    have flat : [] ++ (raws₁ ++ raw' :: raws₂).flatten = raws₁.flatten ++ (raw' ++ raws₂.flatten) := by
      rw [List.nil_append, List.flatten_append, List.flatten_cons]
    have grown : (raws₁.flatten ++ (raw' ++ raws₂.flatten)).length =
        raws₁.flatten.length + raw'.length + raws₂.flatten.length := by
      rw [List.length_append, List.length_append, Nat.add_assoc]
    have whole : (raws₁ ++ raw :: raws₂).flatten.length =
        raws₁.flatten.length + raw.length + raws₂.flatten.length := by
      rw [List.flatten_append, List.flatten_cons, List.length_append, List.length_append, Nat.add_assoc]
    have fits : raws₁.flatten.length + raw'.length + raws₂.flatten.length = (raws₁ ++ raw :: raws₂).flatten.length ↔
        raw'.length = raw.length := by omega
    simp only [flat, ← total, grown, fits]

theorem sevenImage : ∃ input header entry payload, Image input header [entry] payload ∧
    payload.length = entry.compressedLen.toNat ∧ decompress input = .ok [7] := by
  have roomy : Roomy [7] ⟨1, 32, true⟩ := ⟨by decide, by decide, by decide⟩
  obtain ⟨compressed, _, pieces⟩ := compressRoomy Rayon.sequential roomy
  obtain ⟨image, tight, run⟩ := roomyImage roomy pieces
  have chunk : chunks 1 ([7] : Bytes) = [[7]] := by decide
  rw [chunk] at pieces
  cases pieces with
  | cons piece rest =>
    cases rest
    rw [entriesOf, chunk, List.flatten_singleton] at image
    rw [entriesOf, chunk, List.flatten_singleton] at tight
    exact ⟨_, _, _, _, image, by simpa [payloadLength] using tight, run⟩

theorem payloadDamagedSeven : ∃ header entry payload left raw right,
    decompressBlock payload entry.uncompressedLen.toNat = .ok raw ∧ [7] = left ++ (raw ++ right) ∧
    ∀ damaged, damaged.length = payload.length →
      decompress (writeHeader header ([] ++ entry :: []) ++ ([] ++ (damaged ++ []))) = (do
        let raw' ← decompressBlock damaged entry.uncompressedLen.toNat
        Outcome.ensure (crc32 raw' = entry.crc32) .checksumMismatch
        Outcome.ensure (raw'.length = raw.length) (.decompressError ("size mismatch: expected " ++
          toString ([7] : Bytes).length ++ " bytes, got " ++ toString (left.length + raw'.length + right.length)))
        .ok (left ++ (raw' ++ right))) := by
  obtain ⟨input, header, entry, payload, image, size, run⟩ := sevenImage
  have place : ([] : Bytes).length = payloadLength [] := rfl
  have image' : Image input header ([] ++ entry :: []) ([] ++ (payload ++ [])) := by
    rw [List.append_nil]
    exact image
  obtain ⟨left, raw, right, same, decoded, damage⟩ := payloadDamaged image' place size run
  exact ⟨header, entry, payload, left, raw, right, decoded, same, damage⟩

/-! The lengths of the directory. -/
def Relabels (entry entry' : BlockEntry) : Prop :=
  entry'.compressedLen = entry.compressedLen ∧ entry'.crc32 = entry.crc32

def Admits (payload : Bytes) (entry : BlockEntry) : Prop := pivotField payload ≤ entry.uncompressedLen.toNat

theorem holdsRelabelled {directory directory' : List BlockEntry} {payloads raws : List Bytes}
    (holds : Holds directory payloads raws) (relabelled : List.Forall₂ Relabels directory directory')
    (admitted : List.Forall₂ Admits payloads directory') : Holds directory' payloads raws := by
  induction holds generalizing directory' with
  | nil =>
    cases relabelled
    exact .nil
  | @cons entry payload raw directory payloads raws size decoded check tail ih =>
    obtain _ | ⟨⟨sameSize, sameCheck⟩, relabelled⟩ := relabelled
    obtain _ | ⟨admits, admitted⟩ := admitted
    exact .cons (sameSize ▸ size) ⟨decoded.decoded, admits⟩ (sameCheck ▸ check) (ih relabelled admitted)

theorem relabelledPanics {directory directory' : List BlockEntry} {payloads raws : List Bytes} (rest : Bytes)
    (holds : Holds directory payloads raws) (relabelled : List.Forall₂ Relabels directory directory')
    (refused : ¬ List.Forall₂ Admits payloads directory') : Reaches Panics directory' (payloads.flatten ++ rest) := by
  induction holds generalizing directory' with
  | nil =>
    cases relabelled
    exact absurd .nil refused
  | @cons entry payload raw directory payloads raws size decoded check tail ih =>
    cases relabelled with
    | @cons _ entry' _ directory' same relabelled =>
      obtain ⟨tokens, tells, enough, whole⟩ := decoded.decoded
      have length : payload.length = entry'.compressedLen.toNat := same.1 ▸ size
      by_cases admits : Admits payload entry'
      · obtain ⟨front, entry'', back, payloads', raws', payload', tail', rfl, split, holds, size', stops⟩ :=
          ih relabelled fun admitted => refused (.cons admits admitted)
        refine ⟨entry' :: front, entry'', back, payload :: payloads', raw :: raws', payload', tail', rfl, ?_,
          .cons length ⟨decoded.decoded, admits⟩ (same.2 ▸ check) holds, size', stops⟩
        rw [List.flatten_cons, List.append_assoc, split, List.flatten_cons, List.append_assoc, List.append_assoc,
          List.append_assoc]
      · refine ⟨[], entry', directory', [], [], payload, payloads.flatten ++ rest, rfl, ?_, .nil, length,
          .inr ⟨tokens, tells, enough, Nat.lt_of_not_le admits⟩⟩
        rw [List.flatten_cons, List.append_assoc, List.flatten_nil, List.nil_append]

/-- Whatever lengths of blocks a directory claims, an archive that was accepted stays accepted and
decodes to the same, unless a pivot lies beyond the claim: then the program stops. -/
theorem lengthsIgnored {input rest out : Bytes} {header : PpmoHeader} {directory : List BlockEntry}
    (image : Image input header directory rest) (run : decompress input = .ok out) :
    ∃ payloads tail, rest = payloads.flatten ++ tail ∧
      List.Forall₂ (fun payload entry => payload.length = entry.compressedLen.toNat) payloads directory ∧
      ∀ directory', List.Forall₂ Relabels directory directory' →
        (decompress (writeHeader header directory' ++ rest) = .ok out ↔ List.Forall₂ Admits payloads directory') ∧
        (decompress (writeHeader header directory' ++ rest) = .panic ↔ ¬ List.Forall₂ Admits payloads directory') ∧
        ((∃ info, verify (writeHeader header directory' ++ rest) = .ok info) ↔
          List.Forall₂ Admits payloads directory') := by
  obtain ⟨means, small⟩ := decompressedMeans.mp run
  obtain ⟨payloads, raws, tail, rfl, holds, rfl, total⟩ := meansHolds image means
  refine ⟨payloads, tail, rfl, holdsSizes holds, fun directory' relabelled => ?_⟩
  have next : Image (writeHeader header directory' ++ (payloads.flatten ++ tail)) header directory' _ :=
    ⟨rfl, relabelled.length_eq.symm.trans image.number⟩
  by_cases admitted : List.Forall₂ Admits payloads directory'
  · have still : Means (writeHeader header directory' ++ (payloads.flatten ++ tail)) raws.flatten :=
      ⟨header, directory', payloads, raws, tail, next, holdsRelabelled holds relabelled admitted, rfl, total⟩
    have decoded := decompressedMeans.mpr ⟨still, small⟩
    rw [decoded]
    exact ⟨iff_of_true rfl admitted, iff_of_false (by rintro ⟨⟩) (not_not_intro admitted),
      iff_of_true (verifiedMeans.mpr ⟨_, still⟩) admitted⟩
  · have stopped : decompress (writeHeader header directory' ++ (payloads.flatten ++ tail)) = .panic :=
      (decompressHalts panicHalts (Block.decompressBlockPanics (Block.fieldRoom _)) next (total ▸ small)).mpr
        (relabelledPanics tail holds relabelled admitted)
    have refused : ¬ ∃ info, verify (writeHeader header directory' ++ (payloads.flatten ++ tail)) = .ok info := by
      intro verified
      obtain ⟨other, still⟩ := verifiedMeans.mp verified
      obtain ⟨_, _, _, _, _, _, size⟩ := meansHolds next still
      rw [decompressedMeans.mpr ⟨still, by rw [size, ← total]; exact small⟩] at stopped
      contradiction
    rw [stopped]
    exact ⟨iff_of_false (by rintro ⟨⟩) admitted, iff_of_true rfl admitted, iff_of_false refused admitted⟩

theorem lengthsIgnoredSeven : ∃ header entry payload,
    decompress (writeHeader header [entry] ++ payload) = .ok [7] ∧ ∃ payloads tail, payload = payloads.flatten ++ tail ∧
      List.Forall₂ (fun payload entry => payload.length = entry.compressedLen.toNat) payloads [entry] ∧
      ∀ directory', List.Forall₂ Relabels [entry] directory' →
        (decompress (writeHeader header directory' ++ payload) = .ok [7] ↔ List.Forall₂ Admits payloads directory') ∧
        (decompress (writeHeader header directory' ++ payload) = .panic ↔
          ¬ List.Forall₂ Admits payloads directory') ∧
        ((∃ info, verify (writeHeader header directory' ++ payload) = .ok info) ↔
          List.Forall₂ Admits payloads directory') := by
  obtain ⟨input, header, entry, payload, image, _, run⟩ := sevenImage
  exact ⟨header, entry, payload, image.bytes ▸ run, lengthsIgnored image run⟩

end Openpresser.Archive
