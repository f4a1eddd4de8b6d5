import Openpresser.ArchiveMeaning
import Openpresser.RoundTrip

/-! What acceptance says about the directory. `uncompressed_len` only sizes buffers
and bounds the pivot, and bytes behind the last block are never looked at; so the
directory is truthful, and the input fully accounted for, under a condition each. -/
namespace Openpresser.Archive
open Block (Rayon Says Tells blockEntry decompressBlock fieldRoom)
open Format (BlockEntry PpmoHeader crc32 readHeader readHeaderOfWritten writeHeader)
open Lz (Token)

def payloads (input : Bytes) : List BlockEntry → Nat → List (BlockEntry × Bytes)
  | [], _ => []
  | entry :: directory, dataOffset =>
    (entry, (input.drop dataOffset).take entry.compressedLen.toNat) ::
      payloads input directory (dataOffset + entry.compressedLen.toNat)

/-- Every block decodes to as many bytes as its entry says, and all of them to the original size. -/
def TruthfulDirectory (x : Bytes) : Prop :=
  ∀ header directory stop, readHeader x = .ok (header, directory, stop) →
    (∀ p ∈ payloads x directory stop, ∃ raw, decompressBlock p.2 p.1.uncompressedLen.toNat = .ok raw ∧
      raw.length = p.1.uncompressedLen.toNat) ∧
    (directory.map (fun e => e.uncompressedLen.toNat)).sum = header.originalSize.toNat

/-- The entry counts one byte for each literal its payload spells, and the length of each match. -/
structure Declares (entry : BlockEntry) (payload : Bytes) : Prop where
  size : payload.length = entry.compressedLen.toNat
  spans : ∃ tokens, Tells payload tokens ∧ (tokens.map Token.span).sum = entry.uncompressedLen.toNat

def DeclaresTokens (x : Bytes) : Prop :=
  ∃ header directory payloads rest, Image x header directory (payloads.flatten ++ rest) ∧
    List.Forall₂ Declares directory payloads

def Fills (entry : BlockEntry) (raw : Bytes) : Prop := raw.length = entry.uncompressedLen.toNat

/-! Where the payloads lie. -/
theorem payloadsZip {input rest : Bytes} {directory : List BlockEntry} {ps : List Bytes} {dataOffset : Nat}
    (sizes : List.Forall₂ (fun payload entry => payload.length = entry.compressedLen.toNat) ps directory)
    (start : dataOffset ≤ input.length) (split : input.drop dataOffset = ps.flatten ++ rest) :
    payloads input directory dataOffset = directory.zip ps := by
  induction sizes generalizing dataOffset with
  | nil => rfl
  | @cons payload entry ps directory size sizes ih =>
    rw [List.flatten_cons, List.append_assoc] at split
    obtain ⟨inside, here, behind⟩ := splitInside start split size
    rw [payloads, here, ih inside behind, List.zip_cons_cons]

theorem payloadsOnce {directory : List BlockEntry} {ps qs : List Bytes} {rest rest' : Bytes}
    (sizes : List.Forall₂ (fun payload entry => payload.length = entry.compressedLen.toNat) ps directory)
    (sizes' : List.Forall₂ (fun payload entry => payload.length = entry.compressedLen.toNat) qs directory)
    (same : ps.flatten ++ rest = qs.flatten ++ rest') : ps = qs := by
  induction sizes generalizing qs with
  | nil =>
    cases sizes'
    rfl
  | cons size sizes ih =>
    cases sizes' with
    | cons size' sizes' =>
      rw [List.flatten_cons, List.flatten_cons, List.append_assoc, List.append_assoc] at same
      obtain ⟨rfl, behind⟩ := List.append_inj same (size.trans size'.symm)
      rw [ih sizes' behind]

/-! One block, and all of them. -/
theorem saysDeclares {entry : BlockEntry} {payload raw : Bytes} (size : payload.length = entry.compressedLen.toNat)
    (said : Says payload entry.uncompressedLen.toNat raw) : Declares entry payload ↔ Fills entry raw := by
  obtain ⟨tokens, tells, _, rfl⟩ := said.decoded
  rw [Fills, Block.lengthMeaning]
  constructor
  · rintro ⟨_, tokens', tells', spans⟩
    rw [Block.tellsOnce tells tells', spans]
  · exact fun spans => ⟨size, tokens, tells, spans⟩

theorem holdsDeclares {directory : List BlockEntry} {ps raws : List Bytes} (holds : Holds directory ps raws) :
    List.Forall₂ Declares directory ps ↔ List.Forall₂ Fills directory raws := by
  induction holds with
  | nil => exact iff_of_true .nil .nil
  | cons size decoded check tail ih => rw [List.forall₂_cons, List.forall₂_cons, saysDeclares size decoded, ih]

theorem holdsFills {directory : List BlockEntry} {ps raws : List Bytes} (holds : Holds directory ps raws) :
    (∀ p ∈ directory.zip ps, ∃ raw, decompressBlock p.2 p.1.uncompressedLen.toNat = .ok raw ∧
      raw.length = p.1.uncompressedLen.toNat) ↔ List.Forall₂ Fills directory raws := by
  induction holds with
  | nil => exact iff_of_true (by simp) .nil
  | @cons entry payload raw directory ps raws size decoded check tail ih =>
    have run := (Block.decompressBlockSays (fieldRoom entry.uncompressedLen)).mpr decoded
    rw [List.zip_cons_cons, List.forall_mem_cons, List.forall₂_cons, ih]
    refine and_congr_left fun _ => ?_
    constructor
    · rintro ⟨raw', run', length⟩
      cases Outcome.ok.inj (run.symm.trans run')
      exact length
    · exact fun length => ⟨raw, run, length⟩

theorem fillsSum {directory : List BlockEntry} {raws : List Bytes} (fills : List.Forall₂ Fills directory raws) :
    (directory.map (fun e => e.uncompressedLen.toNat)).sum = raws.flatten.length := by
  induction fills with
  | nil => rfl
  | cons length fills ih => rw [List.map_cons, List.sum_cons, List.flatten_cons, List.length_append, ih, length]

/-! An accepted archive. -/
section
variable {x : Bytes} {header : PpmoHeader} {directory : List BlockEntry} {stop : Nat} {raws : List Bytes}
  (passes : Passes x header directory stop raws)
include passes

theorem passesTruthful : TruthfulDirectory x ↔ List.Forall₂ Fills directory raws := by
  obtain ⟨ps, rest, image, holds⟩ := passesHolds passes
  obtain ⟨_, place, inside⟩ := readImage passes.read
  have slices : payloads x directory stop = directory.zip ps :=
    payloadsZip (holdsSizes holds) inside (place ▸ (imageRead image).2.2)
  constructor
  · intro truthful
    have filled := (truthful header directory stop passes.read).1
    rw [slices] at filled
    exact (holdsFills holds).mp filled
  · intro fills header' directory' stop' read
    cases Outcome.ok.inj (passes.read.symm.trans read)
    rw [slices]
    exact ⟨(holdsFills holds).mpr fills, (fillsSum fills).trans passes.size⟩

theorem passesDeclares : DeclaresTokens x ↔ List.Forall₂ Fills directory raws := by
  obtain ⟨ps, rest, image, holds⟩ := passesHolds passes
  rw [← holdsDeclares holds]
  constructor
  · rintro ⟨header', directory', ps', rest', image', declares⟩
    obtain ⟨read, _, behind⟩ := imageRead image
    obtain ⟨read', _, behind'⟩ := imageRead image'
    cases Outcome.ok.inj (read.symm.trans read')
    have sizes : List.Forall₂ (fun payload entry => payload.length = entry.compressedLen.toNat) ps' directory :=
      (declares.imp fun _ _ declared => declared.size).flip
    rwa [payloadsOnce (holdsSizes holds) sizes (behind.symm.trans behind')]
  · exact fun declares => ⟨header, directory, ps, rest, image, declares⟩

theorem passesVerifies : ∃ info, verify x = .ok info := by
  obtain ⟨info, inspected, _⟩ := inspectOk passes.read
  exact ⟨info, verifyOk.mpr ⟨inspected, header, directory, stop, raws, passes⟩⟩

end

theorem verifiedDirectoryTruthful (x : Bytes) (info : ArchiveInfo) (verified : verify x = .ok info) :
    TruthfulDirectory x ↔ DeclaresTokens x := by
  obtain ⟨_, header, directory, stop, raws, passes⟩ := verifyOk.mp verified
  exact (passesTruthful passes).trans (passesDeclares passes).symm

theorem piecesFill {opts : Block.CompressOptions} {blocks compressed : List Bytes}
    (pieces : Pieces opts blocks compressed) (small : ∀ b ∈ blocks, b.length ≤ 2 ^ 31) :
    List.Forall₂ Fills (compressed.zipWith blockEntry blocks) blocks := by
  induction pieces with
  | nil => exact .nil
  | @cons block c blocks cs piece rest ih =>
    obtain ⟨_, _, length⟩ := pieceDecodes piece (small block List.mem_cons_self) [] []
    exact .cons length.symm (ih fun b member => small b (List.mem_cons_of_mem block member))

theorem verifiedDirectoryTruthfulThree : ∃ a info, compress Rayon.sequential [7, 8, 9] ⟨2, 32, true⟩ = .ok a ∧
    verify a = .ok info ∧ TruthfulDirectory a ∧ DeclaresTokens a := by
  obtain ⟨compressed, run, pieces⟩ := compressRoomy Rayon.sequential threeRoomy
  have passes := archivePasses threeRoomy pieces
  have truthful := (passesTruthful passes).mpr (piecesFill pieces (chunkSmall threeRoomy))
  obtain ⟨info, verified⟩ := passesVerifies passes
  exact ⟨_, info, run, verified, truthful, (verifiedDirectoryTruthful _ info verified).mp truthful⟩

/-! A block without tokens, declared as seven bytes. -/
def noTokens : Bytes := [0, 0, 0, 0, 0, 0, 0, 0, 1, 0, 3, 2, 1]

def untruthfulArchive : Bytes := writeHeader ⟨0, 1, 0, 65536⟩ [⟨13, 7, 0⟩] ++ noTokens

theorem noTokensDecode (declared : UInt32) : decompressBlock noTokens declared.toNat = .ok [] := by
  have coded : Block.blockTokens noTokens = .ok [] := Block.noTokensCoded [0, 0, 0, 0, 0, 0, 0, 0] rfl
  have enough : Block.leftCountField noTokens ≤ ([] : List Token).length := by decide
  rw [Block.decompressFromTokens coded (fieldRoom declared), Outcome.ensurePass _ enough, Outcome.okBind]
  change MiddleOut.decodeBidirectional 0 [] [] declared.toNat = _
  rw [MiddleOut.decodeBidirectional, Lz.detokenise, List.foldlM_nil, Outcome.pureIsOk, Outcome.okBind,
    Outcome.subFits (Nat.zero_le _)]
  rfl

theorem untruthfulPasses : Passes untruthfulArchive ⟨0, 1, 0, 65536⟩ [⟨13, 7, 0⟩] 38 [[]] := by
  have place : (writeHeader ⟨0, 1, 0, 65536⟩ [⟨13, 7, 0⟩]).length = 38 := Format.lengthWriteHeader _ _
  have inside : 38 + (13 : UInt32).toNat ≤ untruthfulArchive.length := by
    rw [untruthfulArchive, List.length_append, place]
    decide
  have bytes : (untruthfulArchive.drop 38).take (13 : UInt32).toNat = noTokens := by
    rw [untruthfulArchive, ← place, List.drop_left]
    rfl
  have check : crc32 [] = 0 := by decide
  have read := readHeaderOfWritten ⟨0, 1, 0, 65536⟩ [⟨13, 7, 0⟩] noTokens rfl
  refine ⟨read, ?_, rfl⟩
  simp only [walk, blockAt, Outcome.ensurePass _ inside, bytes, noTokensDecode, Outcome.ensurePass _ check,
    Outcome.okBind]

theorem untruthfulAccepted : (∃ info, verify untruthfulArchive = .ok info) ∧
    ¬ TruthfulDirectory untruthfulArchive := by
  refine ⟨passesVerifies untruthfulPasses, fun truthful => ?_⟩
  have sum := (truthful _ _ _ untruthfulPasses.read).2
  exact absurd sum (by decide)

/-! Bytes behind the last block. -/
/-- The input is its header, its directory and payloads that decode, up to the last byte. -/
def Covered (x : Bytes) : Prop :=
  ∃ header directory payloads raws, Image x header directory payloads.flatten ∧ Holds directory payloads raws

theorem coveredLength {x : Bytes} {header : PpmoHeader} {directory : List BlockEntry} {stop : Nat} {raws : List Bytes}
    (passes : Passes x header directory stop raws) :
    x.length = 26 + 12 * directory.length + payloadLength directory ↔ Covered x := by
  obtain ⟨ps, rest, image, holds⟩ := passesHolds passes
  have size := congrArg List.length image.bytes
  rw [List.length_append, List.length_append, Format.lengthWriteHeader, holdsLength holds] at size
  constructor
  · intro whole
    have ends : rest = [] := List.length_eq_zero_iff.mp (by omega)
    rw [ends, List.append_nil] at image
    exact ⟨header, directory, ps, raws, image, holds⟩
  · rintro ⟨header', directory', ps', raws', image', holds'⟩
    cases Outcome.ok.inj ((imageRead image).1.symm.trans (imageRead image').1)
    rw [image'.bytes, List.length_append, Format.lengthWriteHeader, holdsLength holds']

theorem compressedSizeAccounts (x : Bytes) (info : ArchiveInfo) (header : PpmoHeader)
    (directory : List BlockEntry) (stop : Nat) (verified : verify x = .ok info)
    (read : readHeader x = .ok (header, directory, stop)) :
    info.compressedSize = 26 + 12 * info.blockCount.toNat + payloadLength directory ↔ Covered x := by
  obtain ⟨inspected, header', directory', stop', raws, passes⟩ := verifyOk.mp verified
  cases Outcome.ok.inj (read.symm.trans passes.read)
  obtain ⟨info', inspected', _, blocks, _, total, _⟩ := inspectOk read
  cases Outcome.ok.inj (inspected.symm.trans inspected')
  rw [total, blocks, ← (readImage read).1.number]
  exact coveredLength passes

theorem compressedSizeAccountsThree : ∃ a info header directory stop,
    compress Rayon.sequential [7, 8, 9] ⟨2, 32, true⟩ = .ok a ∧ verify a = .ok info ∧
    readHeader a = .ok (header, directory, stop) ∧ directory.length = 2 ∧ Covered a ∧
    info.compressedSize = 26 + 12 * info.blockCount.toNat + payloadLength directory := by
  obtain ⟨compressed, run, pieces⟩ := compressRoomy Rayon.sequential threeRoomy
  have passes := archivePasses threeRoomy pieces
  have covered := (coveredLength passes).mp (archiveLength threeRoomy pieces)
  obtain ⟨info, verified⟩ := passesVerifies passes
  exact ⟨_, info, _, _, _, run, verified, passes.read, piecesLength pieces, covered,
    (compressedSizeAccounts _ info _ _ _ verified passes.read).mpr covered⟩

theorem paddedMiscounted : ∃ info, verify (writeHeader ⟨0, 0, 0, 65536⟩ [] ++ [0]) = .ok info ∧
    readHeader (writeHeader ⟨0, 0, 0, 65536⟩ [] ++ [0]) = .ok (⟨0, 0, 0, 65536⟩, [], 26) ∧
    info.compressedSize ≠ 26 + 12 * info.blockCount.toNat + payloadLength [] := by
  have read := readHeaderOfWritten ⟨0, 0, 0, 65536⟩ [] [0] rfl
  obtain ⟨info, inspected, _, blocks, _, total, _⟩ := inspectOk read
  refine ⟨info, verifyOk.mpr ⟨inspected, _, _, _, [], read, rfl, rfl⟩, read, ?_⟩
  rw [total, blocks, List.length_append, Format.lengthWriteHeader]
  decide

end Openpresser.Archive
