import Mathlib.Data.List.Basic
import Mathlib.Tactic.Common

/-! Cutting a list into pieces of one size, the last piece taking what is left. -/
namespace Chunks

variable {α : Type}

def count (size length : Nat) : Nat := (length + size - 1) / size

def chunk (size : Nat) (xs : List α) (i : Nat) : List α := (xs.drop (i * size)).take size

def chunks (size : Nat) (xs : List α) : List (List α) :=
  (List.range (count size xs.length)).map (chunk size xs)

theorem lengthChunks (size : Nat) (xs : List α) : (chunks size xs).length = count size xs.length := by
  simp [chunks]

theorem lengthChunk (size : Nat) (xs : List α) (i : Nat) :
    (chunk size xs i).length = min size (xs.length - i * size) := by simp [chunk]

theorem countZero (size : Nat) : count size 0 = 0 := by
  rcases Nat.eq_zero_or_pos size with rfl | positive
  · exact Nat.div_zero _
  · exact Nat.div_eq_of_lt (by omega)

theorem countReaches {size : Nat} (positive : 0 < size) (length : Nat) :
    length ≤ count size length * size ∧ ∀ i < count size length, i * size < length := by
  constructor
  · have h := Nat.div_add_mod (length + size - 1) size
    have r := Nat.mod_lt (length + size - 1) positive
    rw [count, Nat.mul_comm]
    omega
  · intro i below
    have h := (Nat.lt_div_iff_mul_lt positive).mp below
    omega

theorem flattenRange (size : Nat) (xs : List α) (n : Nat) :
    ((List.range n).map (chunk size xs)).flatten = xs.take (n * size) := by
  induction n with
  | zero => simp
  | succ n ih =>
    rw [List.range_succ, List.map_append, List.flatten_append, ih, Nat.succ_mul, List.take_add]
    simp [chunk]

theorem flattenChunks {size : Nat} (positive : 0 < size) (xs : List α) : (chunks size xs).flatten = xs := by
  rw [chunks, flattenRange, List.take_of_length_le (countReaches positive xs.length).1]

theorem chunksNil (size : Nat) : chunks size ([] : List α) = [] := by
  rw [chunks, List.length_nil, countZero, List.range_zero, List.map_nil]

theorem chunksFilled {size : Nat} (positive : 0 < size) (xs : List α) : ∀ piece ∈ chunks size xs, piece ≠ [] := by
  intro piece member nothing
  obtain ⟨i, bound, rfl⟩ := List.mem_map.mp member
  have length := lengthChunk size xs i
  rw [nothing, List.length_nil] at length
  have inside := (countReaches positive xs.length).2 i (List.mem_range.mp bound)
  omega

theorem chunksBounded {size : Nat} (xs : List α) : ∀ piece ∈ chunks size xs, piece.length ≤ size := by
  intro piece member
  obtain ⟨i, _, rfl⟩ := List.mem_map.mp member
  rw [lengthChunk]
  exact Nat.min_le_left _ _

/-! A list that ends with a whole piece is cut as if nothing followed it. -/
theorem countAppend {size : Nat} (positive : 0 < size) (n length : Nat) :
    count size (n * size + length) = n + count size length := by
  have shift : n * size + length + size - 1 = length + size - 1 + n * size := by omega
  rw [count, count, shift, Nat.add_mul_div_right _ _ positive, Nat.add_comm]

theorem countAligned {size : Nat} (positive : 0 < size) {xs : List α} {n : Nat} (aligned : xs.length = n * size) :
    count size xs.length = n := by
  have whole := countAppend positive n 0
  rwa [Nat.add_zero, countZero, Nat.add_zero, ← aligned] at whole

theorem chunksAppend {size : Nat} (positive : 0 < size) {xs : List α} {n : Nat} (aligned : xs.length = n * size)
    (ys : List α) : chunks size (xs ++ ys) = chunks size xs ++ chunks size ys := by
  have whole := countAligned positive aligned
  have total : count size (xs ++ ys).length = n + count size ys.length := by
    rw [List.length_append, aligned, countAppend positive]
  rw [chunks, chunks, chunks, total, whole, List.range_add, List.map_append, List.map_map]
  congr 1
  · refine List.map_congr_left fun i member => ?_
    have before : (i + 1) * size ≤ n * size := Nat.mul_le_mul_right size (List.mem_range.mp member)
    rw [Nat.succ_mul] at before
    rw [chunk, chunk, List.drop_append_of_le_length (by omega),
      List.take_append_of_le_length (by rw [List.length_drop]; omega)]
  · refine List.map_congr_left fun i _ => ?_
    have behind : (n + i) * size = xs.length + i * size := by rw [Nat.add_mul, aligned]
    rw [Function.comp_apply, chunk, chunk, behind, ← List.drop_drop, List.drop_left]

end Chunks
