import Openpresser.Agreement

/-! Cut archives. A cut in the header or the directory is seen by the reader; a cut
behind them leaves some block short, and every block before that one still decodes. -/
namespace Openpresser.Archive
open Block (CompressOptions Rayon blockEntry)
open Chunks (chunks count)
open Format (BlockEntry PpmoHeader lengthWriteHeader readHeader readHeaderCases readHeaderOfWritten writeHeader)

theorem walkTruncated {opts : CompressOptions} {blocks compressed : List Bytes}
    (pieces : Pieces opts blocks compressed) (small : ∀ b ∈ blocks, b.length ≤ 2 ^ 31) (pre part post : Bytes)
    (split : compressed.flatten = part ++ post) (cut : post ≠ []) :
    (walk (pre ++ part) (compressed.zipWith blockEntry blocks) pre.length).Fails ∧
    (acceptedBlocks (pre ++ part) (compressed.zipWith blockEntry blocks) pre.length).flatten.length ≤
      blocks.flatten.length := by
  induction pieces generalizing pre part with
  | nil => simp [cut] at split
  | @cons block c blocks cs piece rest ih =>
    rw [List.flatten_cons] at split
    have length := (pieceDecodes piece (small block List.mem_cons_self) [] []).2.1
    rw [List.zipWith_cons_cons, walk, acceptedBlocks]
    by_cases whole : c.length ≤ part.length
    · obtain ⟨more, rfl⟩ := List.prefix_of_prefix_length_le (List.prefix_append c cs.flatten)
        ⟨post, split.symm⟩ whole
      rw [List.append_assoc, List.append_cancel_left_eq] at split
      obtain ⟨decoded, _⟩ := pieceDecodes piece (small block List.mem_cons_self) pre more
      obtain ⟨fails, few⟩ := ih (fun b member => small b (List.mem_cons_of_mem block member)) (pre ++ c) more split
      rw [List.length_append, ← length] at fails few
      rw [List.append_assoc] at decoded fails few
      rw [decoded, Outcome.okBind]
      refine ⟨Outcome.failsBind _ fails, ?_⟩
      simp only [List.flatten_cons, List.length_append]
      omega
    · have short : ¬ pre.length + (blockEntry c block).compressedLen.toNat ≤ (pre ++ part).length := by
        rw [length, List.length_append]
        omega
      have failed : blockAt (pre ++ part) (blockEntry c block) pre.length =
          .err (.decompressError "truncated block data") := by
        rw [blockAt, Outcome.ensureFail _ short, Outcome.errBind]
      rw [failed]
      exact ⟨trivial, Nat.zero_le _⟩

theorem headerTruncated {header : PpmoHeader} {directory : List BlockEntry} {p q rest : Bytes}
    (number : directory.length = header.blockCount.toNat) (split : writeHeader header directory ++ rest = p ++ q)
    (short : p.length < 26 + 12 * directory.length) : ∃ e, readHeader p = .err e := by
  rcases readHeaderCases p with failed | ⟨header', directory', stop, read, accepted⟩
  · exact failed
  · -- the header it found would also be the one of the whole archive
    have front : p = writeHeader header' directory' ++ p.drop stop := by
      rw [accepted.written, List.take_append_drop]
    have same := readHeaderOfWritten header' directory' (p.drop stop ++ q) accepted.count
    rw [← List.append_assoc, ← front, ← split, readHeaderOfWritten header directory rest number] at same
    cases Outcome.ok.inj same
    have inside := accepted.inside
    have place := accepted.place
    omega

theorem payloadTruncated {x : Bytes} {opts : CompressOptions} {compressed : List Bytes} (roomy : Roomy x opts)
    (pieces : Pieces opts (chunks opts.blockSize x) compressed) {p part post : Bytes}
    (whole : writeHeader (headerOf x opts) (entriesOf x opts compressed) ++ part = p)
    (split : compressed.flatten = part ++ post) (cut : post ≠ []) : (decompress p).Fails ∧ FitsMemory p := by
  have number : (entriesOf x opts compressed).length = (headerOf x opts).blockCount.toNat :=
    (piecesLength pieces).trans (UInt32.toNat_ofNat_of_lt' roomy.few).symm
  have size : (headerOf x opts).originalSize.toNat = x.length := by
    rw [← (archivePasses roomy pieces).size, Chunks.flattenChunks roomy.positive]
  have read := readHeaderOfWritten (headerOf x opts) (entriesOf x opts compressed) part number
  have short := roomyLength roomy
  obtain ⟨fails, accepted⟩ := walkTruncated pieces (chunkSmall roomy)
    (writeHeader (headerOf x opts) (entriesOf x opts compressed)) part post split cut
  rw [lengthWriteHeader, whole] at fails accepted
  rw [whole] at read
  rw [Chunks.flattenChunks roomy.positive] at accepted
  constructor
  · rw [decompress, read, Outcome.okBind]
    simp only [size, Outcome.assertPass short, Outcome.okBind, decompressFromWalk, bind_assoc]
    exact Outcome.failsBind _ fails
  · intro header directory stop found
    cases Outcome.ok.inj (read.symm.trans found)
    exact ⟨size ▸ short, Nat.le_trans accepted short⟩

theorem decompressFailsAsVerify {p : Bytes} (fits : FitsMemory p) (fails : (decompress p).Fails) :
    ∃ e, verify p = .err e := by
  obtain ⟨e, failed⟩ := Outcome.failsIff.mp fails
  have agrees := outlineAgrees fits
  rw [failed] at agrees
  obtain ⟨e', refused, _⟩ := outlineErr.mp agrees
  exact ⟨e', refused⟩

theorem truncationDetected (rayon : Rayon) (x : Bytes) (opts : CompressOptions) (positive : 1 ≤ opts.blockSize)
    (bound : opts.blockSize ≤ 2 ^ 31) (few : count opts.blockSize x.length < 2 ^ 32) :
    ∃ a, compress rayon x opts = .ok a ∧ ∀ p q, a = p ++ q → q ≠ [] →
      (∃ e, decompress p = .err e) ∧ ∃ e, verify p = .err e := by
  have roomy : Roomy x opts := ⟨positive, bound, few⟩
  obtain ⟨compressed, run, pieces⟩ := compressRoomy rayon roomy
  have number : (entriesOf x opts compressed).length = (headerOf x opts).blockCount.toNat :=
    (piecesLength pieces).trans (UInt32.toNat_ofNat_of_lt' few).symm
  refine ⟨_, run, fun p q split cut => ?_⟩
  by_cases short : p.length < 26 + 12 * (entriesOf x opts compressed).length
  · obtain ⟨e, failed⟩ := headerTruncated number split short
    exact ⟨⟨e, by rw [decompress, failed, Outcome.errBind]⟩, ⟨e, by rw [verify, failed, Outcome.errBind]⟩⟩
  · have reach : (writeHeader (headerOf x opts) (entriesOf x opts compressed)).length ≤ p.length := by
      rw [lengthWriteHeader]
      omega
    obtain ⟨part, whole⟩ := List.prefix_of_prefix_length_le (List.prefix_append _ compressed.flatten)
      ⟨q, split.symm⟩ reach
    rw [archiveOf, ← whole, List.append_assoc, List.append_cancel_left_eq] at split
    obtain ⟨fails, fits⟩ := payloadTruncated roomy pieces whole split cut
    exact ⟨Outcome.failsIff.mp fails, decompressFailsAsVerify fits fails⟩

theorem truncationDetectedThree : ∃ a, compress Rayon.sequential [7, 8, 9] ⟨2, 32, false⟩ = .ok a ∧
    ∀ p q, a = p ++ q → q ≠ [] → (∃ e, decompress p = .err e) ∧ ∃ e, verify p = .err e :=
  truncationDetected Rayon.sequential [7, 8, 9] ⟨2, 32, false⟩ (by decide) (by decide) (by decide)

end Openpresser.Archive
