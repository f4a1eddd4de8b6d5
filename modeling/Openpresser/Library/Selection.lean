import Mathlib.Data.List.MinMax

/-! Keeping the best so far. A scan that only ever replaces its choice by a strictly
better one ends on the first of the greatest, or on what it started with. -/
namespace Selection

variable {α β : Type} (score : α → Nat) (value : α → β)

def improve (best : Nat × β) (a : α) : Nat × β := if best.1 < score a then (score a, value a) else best

theorem improveArgmax (start : Nat × β) (xs : List α) :
    xs.foldl (improve score value) start =
      match xs.argmax score with
      | some a => if start.1 < score a then (score a, value a) else start
      | none => start := by
  induction xs using List.reverseRecOn with
  | nil => rfl
  | append_singleton xs a ih =>
    rw [List.foldl_append, ih, List.argmax_concat]
    cases xs.argmax score with
    | none => rfl
    | some b =>
      simp only [List.foldl_cons, List.foldl_nil, improve]
      by_cases better : score b < score a
      · rw [if_pos better]
        by_cases enough : start.1 < score b
        · simp only [if_pos enough, if_pos better, if_pos (Nat.lt_trans enough better)]
        · simp only [if_neg enough]
      · rw [if_neg better]
        by_cases enough : start.1 < score b
        · simp only [if_pos enough, if_neg better]
        · simp only [if_neg enough, if_neg (by omega : ¬ start.1 < score a)]

theorem improveLow {best : Nat × β} {xs : List α} (low : ∀ a ∈ xs, score a ≤ best.1) :
    xs.foldl (improve score value) best = best := by
  induction xs with
  | nil => rfl
  | cons a xs ih =>
    have here := low a List.mem_cons_self
    rw [List.foldl_cons, improve, if_neg (Nat.not_lt.mpr here)]
    exact ih fun b member => low b (List.mem_cons_of_mem a member)

theorem improveFilter (keep : α → Bool) {floor : Nat} {xs : List α}
    (low : ∀ a ∈ xs, keep a = false → score a ≤ floor) {best : Nat × β} (above : floor ≤ best.1) :
    (xs.filter keep).foldl (improve score value) best = xs.foldl (improve score value) best := by
  induction xs generalizing best with
  | nil => rfl
  | cons a xs ih =>
    have later := fun b member => low b (List.mem_cons_of_mem a member)
    have grows : floor ≤ (improve score value best a).1 := by
      rw [improve]
      split
      · rename_i better
        exact Nat.le_trans above (Nat.le_of_lt better)
      · exact above
    rw [List.foldl_cons]
    cases kept : keep a with
    | true => rw [List.filter_cons_of_pos kept, List.foldl_cons, ih later grows]
    | false =>
      have here := low a List.mem_cons_self kept
      rw [List.filter_cons_of_neg (by simp [kept]), improve, if_neg (by omega), ih later above]

theorem argmaxEarliest {score : Nat → Nat} {xs : List Nat} {m a : Nat} (rising : xs.Pairwise (fun p q => p < q))
    (best : xs.argmax score = some m) (member : a ∈ xs) (before : a < m) : score a < score m := by
  by_contra notLess
  obtain ⟨inside, _, first⟩ := List.argmax_eq_some_iff.mp best
  have order := first a member (Nat.not_lt.mp notLess)
  have placeM := List.idxOf_lt_length_of_mem inside
  have placeA := List.idxOf_lt_length_of_mem member
  have apart : xs.idxOf m ≠ xs.idxOf a := fun same =>
    Nat.ne_of_gt before ((List.idxOf_inj inside).mp same)
  have higher := List.pairwise_iff_getElem.mp rising _ _ placeM placeA (by omega)
  rw [List.getElem_idxOf, List.getElem_idxOf] at higher
  omega

end Selection
