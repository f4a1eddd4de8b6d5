import Openpresser.Expansion
import Openpresser.Options
import Openpresser.StreamGrammar

/-! How long an archive of an input is, from both sides. Nothing is known of the input
but its length: incompressible data grows by an eighth, and no data shrinks beyond the
longest match for the price of the cheapest. -/
namespace Openpresser.Archive
open Block (CompressOptions LaidOut Rayon compressBlock)
open Chunks (chunks count)
open Huffman (HuffmanTable HasCode distanceBits eob leastBits lengthOf streamBits symbolOf)
open Lz (Parse Token)

theorem compressWrites {rayon : Rayon} {x a : Bytes} {opts : CompressOptions} (run : compress rayon x opts = .ok a) :
    Cuts x opts ∧ ∃ compressed, Pieces opts (chunks opts.blockSize x) compressed ∧ a = archiveOf x opts compressed := by
  have cuts : Cuts x opts := by
    by_contra uncut
    rw [uncutPanics rayon uncut] at run
    contradiction
  rcases Outcome.mapMCases (f := fun b => compressBlock b opts) (R := Piece opts)
    (chunks opts.blockSize x) (fun b _ => pieceCases b opts) with ⟨compressed, mapped, pieces⟩ | overflow
  · exact ⟨cuts, compressed, pieces, (Outcome.ok.inj ((compressPieces rayon cuts pieces mapped).symm.trans run)).symm⟩
  · rw [compress, splitCuts cuts, Outcome.okBind, compressBlocksMap, overflow] at run
    contradiction

/-! One block, from below. -/
theorem parseLeast {data : Bytes} {pos : Nat} {tokens : List Token} (parse : Parse data pos tokens) :
    17 * data.length ≤ 258 * (tokens.map leastBits).sum + 17 * pos := by
  induction parse with
  | stop => simp
  | literal byte tail ih =>
    rw [List.map_cons, List.sum_cons, leastBits]
    omega
  | @matched pos dist len rest copy tail ih =>
    have short : len.toNat ≤ 258 := copy.short
    rw [List.map_cons, List.sum_cons, leastBits]
    omega

theorem encodedLeast {table : HuffmanTable} {tokens : List Token}
    (coded : ∀ sym ∈ tokens.map symbolOf ++ [eob], HasCode table sym) :
    (tokens.map leastBits).sum ≤ (streamBits table tokens).length := by
  have long : ∀ sym ∈ tokens.map symbolOf ++ [eob], 1 ≤ lengthOf table sym := by
    intro sym member
    obtain ⟨code, len, found, positive, _⟩ := coded sym member
    rw [lengthOf, found]
    exact positive
  rw [Huffman.streamBitsLength]
  clear coded
  induction tokens with
  | nil => exact Nat.zero_le _
  | cons tok tokens ih =>
    have later := ih fun sym member => long sym (List.mem_cons_of_mem _ member)
    have first := long _ List.mem_cons_self
    simp only [List.map_cons, List.cons_append, List.sum_cons]
    have paid : leastBits tok ≤ lengthOf table (symbolOf tok) + (distanceBits tok).length := by
      cases tok with
      | literal b => exact Nat.le_trans first (Nat.le_add_right _ _)
      | matched distance length =>
        have sixteen : (distanceBits (.matched distance length)).length = 16 := Bits.lengthOfNat 16 _
        rw [sixteen, leastBits]
        omega
    omega

theorem laidOutLeast {block : Bytes} {opts : CompressOptions} {compressed : Bytes}
    (laidOut : LaidOut block opts compressed) : 17 * block.length ≤ 2064 * compressed.length := by
  obtain ⟨pivot, left, right, table, lengthsMap, bitstream, layout⟩ := laidOut
  obtain ⟨pad, _, padded⟩ := layout.encoded.padded
  have bits := congrArg List.length padded
  rw [Bits.lengthOfBytes, List.length_append] at bits
  have coded : ∀ sym ∈ (left ++ right).map symbolOf ++ [eob], HasCode table sym := by
    intro sym member
    obtain ⟨len, entry⟩ := layout.encoded.coded sym member
    exact Huffman.hasCode layout.encoded.valid layout.encoded.tableFor entry
  have least := encodedLeast coded
  have first := parseLeast layout.parseLeft
  have second := parseLeast layout.parseRight
  have inside := layout.inside
  rw [List.map_append, List.sum_append] at least
  rw [List.length_take] at first
  rw [List.length_drop] at second
  have behind : bitstream.length ≤ compressed.length := by
    rw [layout.bytes, List.length_append]
    omega
  omega

/-! The whole archive. -/
theorem piecesSize {opts : CompressOptions} {blocks compressed : List Bytes} (pieces : Pieces opts blocks compressed)
    (filled : ∀ b ∈ blocks, b ≠ []) :
    17 * blocks.flatten.length ≤ 2064 * compressed.flatten.length ∧
      8 * compressed.flatten.length ≤ 9 * blocks.flatten.length + 12384 * blocks.length := by
  induction pieces with
  | nil => simp
  | @cons block c blocks cs piece rest ih =>
    have later := ih fun b member => filled b (List.mem_cons_of_mem block member)
    have least := laidOutLeast piece.laidOut
    have most := Block.laidOutNine (filled block List.mem_cons_self) piece.laidOut
    simp only [List.flatten_cons, List.length_append, List.length_cons]
    omega

theorem compressSizes (rayon : Rayon) (x : Bytes) (opts : CompressOptions) (a : Bytes)
    (run : compress rayon x opts = .ok a) :
    17 * x.length + 2064 * (26 + 12 * count opts.blockSize x.length) ≤ 2064 * a.length ∧
    8 * a.length ≤ 9 * x.length + 8 * (26 + 1560 * count opts.blockSize x.length) := by
  obtain ⟨cuts, compressed, pieces, rfl⟩ := compressWrites run
  obtain ⟨least, most⟩ := piecesSize pieces (cutsFilled cuts)
  rw [cutsJoin cuts, Chunks.lengthChunks] at most
  rw [cutsJoin cuts] at least
  rw [archiveOf, List.length_append, Format.lengthWriteHeader, piecesLength pieces]
  omega

theorem compressSizesThree : ∃ a, compress Rayon.sequential [7, 8, 9] ⟨2, 32, true⟩ = .ok a ∧
    17 * 3 + 2064 * (26 + 12 * 2) ≤ 2064 * a.length ∧ 8 * a.length ≤ 9 * 3 + 8 * (26 + 1560 * 2) := by
  obtain ⟨compressed, run, _⟩ := compressRoomy Rayon.sequential threeRoomy
  exact ⟨_, run, compressSizes Rayon.sequential [7, 8, 9] ⟨2, 32, true⟩ _ run⟩

end Openpresser.Archive
