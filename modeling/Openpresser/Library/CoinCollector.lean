import Openpresser.Library.PackageMerge
import Mathlib.Algebra.BigOperators.Ring.List

/-! Package-merge is optimal. Every round keeps its list sorted, so a prefix of a
round is the lightest choice of its size; a rival code chooses leaves in this
round and, one level shorter, pairs in the round before. -/
namespace PackageMerge

variable {σ : Type}

def Ascending (items : List (Item σ)) : Prop := items.Pairwise (fun x y => x.1 ≤ y.1)

theorem weightAppend (a b : List (Item σ)) : weight (a ++ b) = weight a + weight b := by
  simp [weight]

theorem weightPerm {a b : List (Item σ)} (perm : a.Perm b) : weight a = weight b :=
  (perm.map Prod.fst).sum_eq

theorem weightTake (items : List (Item σ)) {a b : Nat} (le : a ≤ b) :
    weight (items.take a) ≤ weight (items.take b) := by
  have split := List.take_append_drop a (items.take b)
  rw [List.take_take, Nat.min_eq_left le] at split
  rw [← split, weightAppend]
  exact Nat.le_add_right _ _

/-! Sorted rounds. -/
theorem packagesHeavier {x : Nat} {items : List (Item σ)} (above : ∀ y ∈ items, x ≤ y.1) :
    ∀ p ∈ packages items, 2 * x ≤ p.1 := by
  induction items using packages.induct with
  | case1 => simp [packages]
  | case2 y => simp [packages]
  | case3 y z rest ih =>
    intro p member
    rw [packages, List.mem_cons] at member
    rcases member with rfl | later
    · have first := above y (by simp)
      have second := above z (by simp)
      simp only
      omega
    · exact ih (fun w inside => above w (by simp [inside])) p later

theorem packagesAscending {items : List (Item σ)} (ascending : Ascending items) :
    Ascending (packages items) := by
  induction items using packages.induct with
  | case1 => exact .nil
  | case2 x => exact .nil
  | case3 x y rest ih =>
    obtain ⟨first, tail⟩ := List.pairwise_cons.mp ascending
    obtain ⟨second, later⟩ := List.pairwise_cons.mp tail
    refine List.pairwise_cons.mpr ⟨fun p member => ?_, ih later⟩
    -- a later package holds two items, each at least as heavy as `y`
    have heavy := packagesHeavier second p member
    have order := first y List.mem_cons_self
    simp only
    omega

theorem mergeAscending {a b : List (Item σ)} (left : Ascending a) (right : Ascending b) :
    Ascending (a.merge b lighter) := by
  have sorted : (a.merge b lighter).Pairwise (fun x y => lighter x y) := List.pairwise_merge
    (fun x y z => by simp only [lighter, decide_eq_true_eq]; exact Nat.le_trans)
    (fun x y => by simp only [lighter, Bool.or_eq_true, decide_eq_true_eq]; exact Nat.le_total _ _)
    a b (left.imp (by simp [lighter])) (right.imp (by simp [lighter]))
  exact sorted.imp (by simp [lighter])

theorem levelsAscending {items : List (Item σ)} (ascending : Ascending items) (k : Nat) :
    Ascending (levels items k) := by
  induction k with
  | zero => exact .nil
  | succ k ih => exact mergeAscending ascending (packagesAscending ih)

/-! The lightest choice. -/
theorem sublistHeavier {items chosen : List (Item σ)} (ascending : Ascending items)
    (sub : chosen.Sublist items) : weight (items.take chosen.length) ≤ weight chosen := by
  induction sub with
  | slnil => exact Nat.le_refl _
  | @cons chosen items x sub ih =>
    obtain ⟨first, tail⟩ := List.pairwise_cons.mp ascending
    refine Nat.le_trans ?_ (ih tail)
    -- `x` was passed over for an item that is no lighter
    cases size : chosen.length with
    | zero => exact Nat.le_refl _
    | succ n =>
      have inside : n < items.length := by
        have bound := sub.length_le
        omega
      have order := first items[n] (List.getElem_mem inside)
      rw [List.take_succ_cons, List.take_succ_eq_append_getElem inside, weightAppend]
      simp only [weight, List.map_cons, List.sum_cons, List.map_nil, List.sum_nil] at order ⊢
      omega
  | @cons_cons chosen items x sub ih =>
    have tail := ih (List.pairwise_cons.mp ascending).2
    rw [List.length_cons, List.take_succ_cons]
    simp only [weight, List.map_cons, List.sum_cons] at tail ⊢
    omega

theorem subpermHeavier {items chosen : List (Item σ)} (ascending : Ascending items)
    (sub : chosen.Subperm items) : weight (items.take chosen.length) ≤ weight chosen := by
  obtain ⟨ordered, perm, sublist⟩ := sub
  rw [← perm.length_eq, ← weightPerm perm]
  exact sublistHeavier ascending sublist

theorem packagesTakeWeight (items : List (Item σ)) (b : Nat) (bound : b ≤ (packages items).length) :
    weight ((packages items).take b) = weight (items.take (2 * b)) := by
  induction items using packages.induct generalizing b with
  | case1 => simp [packages]
  | case2 x =>
    obtain rfl : b = 0 := by simpa [packages] using bound
    rfl
  | case3 x y rest ih =>
    cases b with
    | zero => rfl
    | succ b =>
      have tail := ih b (by simpa [packages] using bound)
      simp only [packages, List.take_succ_cons, Nat.mul_succ, weight, List.map_cons, List.sum_cons] at tail ⊢
      omega

theorem roundLightest {items : List (Item σ)} (ascending : Ascending items) (k : Nat) {a b : Nat}
    (leavesBound : a ≤ items.length) (pairsBound : 2 * b ≤ (levels items k).length) :
    weight ((levels items (k + 1)).take (a + b)) ≤ weight (items.take a) + weight ((levels items k).take (2 * b)) := by
  have bound : b ≤ (packages (levels items k)).length := by
    rw [packagesLength]
    omega
  have chosen : (items.take a ++ (packages (levels items k)).take b).Subperm (levels items (k + 1)) :=
    ((List.take_sublist _ _).append (List.take_sublist _ _)).subperm.trans (mergePerm _ _).symm.subperm
  have light := subpermHeavier (levelsAscending ascending (k + 1)) chosen
  rwa [List.length_append, List.length_take, List.length_take, Nat.min_eq_left leavesBound,
    Nat.min_eq_left bound, weightAppend, packagesTakeWeight _ _ bound] at light

/-! A rival code. Its cost is read off one round at a time: what it puts at this depth
are leaves, and everything else is a code of the round before. -/
def cost (entries : List (Nat × σ)) (l : σ → Nat) : Nat := (entries.map (fun e => e.1 * l e.2)).sum

def room (entries : List (Nat × σ)) (k : Nat) (l : σ → Nat) : Nat := (entries.map (fun e => 2 ^ (k - l e.2))).sum

theorem costSplit (entries : List (Nat × σ)) (l : σ → Nat) :
    cost entries l = weight (leaves (entries.filter (fun e => 0 < l e.2))) + cost entries (fun s => l s - 1) := by
  induction entries with
  | nil => rfl
  | cons e entries ih =>
    simp only [cost, List.map_cons, List.sum_cons] at ih ⊢
    by_cases used : 0 < l e.2
    · have pulled : e.1 * l e.2 = e.1 + e.1 * (l e.2 - 1) := by
        rw [← mul_one_add, Nat.add_comm 1, Nat.sub_add_cancel used]
      rw [List.filter_cons_of_pos (by simpa using used), ih, pulled]
      simp only [leaves, leaf, weight, List.map_cons, List.sum_cons]
      omega
    · have unused : l e.2 = 0 := Nat.eq_zero_of_not_pos used
      rw [List.filter_cons_of_neg (by simpa using used), ih, unused]
      simp

theorem roomSplit {entries : List (Nat × σ)} {k : Nat} {l : σ → Nat} (short : ∀ e ∈ entries, l e.2 ≤ k + 1) :
    room entries (k + 1) l + (entries.filter (fun e => 0 < l e.2)).length * 2 ^ k =
      room entries k (fun s => l s - 1) + entries.length * 2 ^ k := by
  induction entries with
  | nil => rfl
  | cons e entries ih =>
    have tail := ih fun x member => short x (List.mem_cons_of_mem e member)
    have here := short e List.mem_cons_self
    simp only [room, List.map_cons, List.sum_cons, List.length_cons, Nat.succ_mul] at tail ⊢
    by_cases used : 0 < l e.2
    · have same : k + 1 - l e.2 = k - (l e.2 - 1) := by omega
      rw [List.filter_cons_of_pos (by simpa using used), List.length_cons, Nat.succ_mul, same]
      omega
    · have unused : l e.2 = 0 := Nat.eq_zero_of_not_pos used
      rw [List.filter_cons_of_neg (by simpa using used), unused, Nat.sub_zero, Nat.zero_sub, Nat.sub_zero, Nat.pow_succ]
      omega

theorem roomBounded (entries : List (Nat × σ)) (k : Nat) (l : σ → Nat) :
    room entries k l ≤ entries.length * 2 ^ k := by
  induction entries with
  | nil => exact Nat.zero_le _
  | cons e entries ih =>
    have below : 2 ^ (k - l e.2) ≤ 2 ^ k := Nat.pow_le_pow_right (by decide) (Nat.sub_le _ _)
    simp only [room, List.map_cons, List.sum_cons, List.length_cons, Nat.succ_mul] at ih ⊢
    omega

/-- A code with `m` halves of the space to spare costs at least the first `m` items of its round. -/
theorem rivalCosts {entries : List (Nat × σ)} (ascending : Ascending (leaves entries)) (k m : Nat) (l : σ → Nat)
    (short : ∀ e ∈ entries, l e.2 ≤ k) (space : m * 2 ^ k + 2 * room entries k l ≤ 2 * entries.length * 2 ^ k) :
    m ≤ (levels (leaves entries) k).length ∧ weight ((levels (leaves entries) k).take m) ≤ cost entries l := by
  induction k generalizing m l with
  | zero =>
    have whole : room entries 0 l = entries.length := by
      simp only [room, Nat.zero_sub, Nat.pow_zero, List.map_const', List.sum_replicate]
      simp
    rw [whole] at space
    obtain rfl : m = 0 := by omega
    exact ⟨Nat.zero_le _, Nat.zero_le _⟩
  | succ k ih =>
    have used := List.length_filter_le (fun e : Nat × σ => decide (0 < l e.2)) entries
    have split := roomSplit short
    have shorter : ∀ e ∈ entries, l e.2 - 1 ≤ k := fun e member => by
      have bound := short e member
      omega
    generalize count : (entries.filter (fun e => 0 < l e.2)).length = a at used split
    have space' : 2 * (m - a) * 2 ^ k + 2 * room entries k (fun s => l s - 1) ≤ 2 * entries.length * 2 ^ k := by
      by_cases more : a ≤ m
      · obtain ⟨b, rfl⟩ := Nat.exists_eq_add_of_le more
        rw [Nat.add_sub_cancel_left]
        rw [Nat.pow_succ] at space
        linarith only [space, split]
      · have bounded := roomBounded entries k (fun s => l s - 1)
        rw [Nat.sub_eq_zero_of_le (by omega)]
        linarith only [bounded]
    obtain ⟨pairs, light⟩ := ih (2 * (m - a)) (fun s => l s - 1) shorter space'
    have length : (levels (leaves entries) (k + 1)).length =
        entries.length + (levels (leaves entries) k).length / 2 := by
      rw [levels, mergeLength, packagesLength, leavesLength]
    refine ⟨by omega, ?_⟩
    have chosen := roundLightest ascending k (a := min a m) (by rw [leavesLength]; omega) pairs
    have fewer := weightTake (leaves entries) (Nat.min_le_left a m)
    have taken := sublistHeavier ascending
      ((List.filter_sublist (p := fun e : Nat × σ => decide (0 < l e.2)) (l := entries)).map leaf)
    rw [List.length_map, count] at taken
    rw [show min a m + (m - a) = m by omega] at chosen
    rw [costSplit]
    exact Nat.le_trans chosen (Nat.add_le_add (Nat.le_trans fewer taken) light)

/-! What the items of a round weigh. -/
theorem costAdd (entries : List (Nat × σ)) (f g : σ → Nat) :
    cost entries (fun s => f s + g s) = cost entries f + cost entries g := by
  simp only [cost, Nat.mul_add, List.sum_map_add]

theorem costZero {entries : List (Nat × σ)} {f : σ → Nat} (zero : ∀ e ∈ entries, f e.2 = 0) : cost entries f = 0 := by
  refine List.sum_eq_zero fun x member => ?_
  obtain ⟨e, inside, rfl⟩ := List.mem_map.mp member
  rw [zero e inside, Nat.mul_zero]

theorem levelsFew (items : List (Item σ)) (k : Nat) : (levels items k).length ≤ 2 * items.length - 1 := by
  induction k with
  | zero => exact Nat.zero_le _
  | succ k ih =>
    rw [levels, mergeLength, packagesLength]
    omega

/-- A code of one length for all bounds every round, so packages never grow with the number of rounds. -/
theorem packagesTotal {entries : List (Nat × σ)} (ascending : Ascending (leaves entries)) (k : Nat) {t : Nat}
    (narrow : entries.length ≤ 2 ^ t) :
    weight (packages (levels (leaves entries) k)) ≤ t * weight (leaves entries) := by
  by_cases early : k ≤ t
  · calc weight (packages (levels (leaves entries) k))
        ≤ weight (levels (leaves entries) k) := packagesWeight _
      _ ≤ k * weight (leaves entries) := levelsWeight _ _
      _ ≤ t * weight (leaves entries) := Nat.mul_le_mul_right _ early
  · have few := levelsFew (leaves entries) k
    rw [leavesLength] at few
    have half := packagesLength (levels (leaves entries) k)
    have whole := packagesTakeWeight _ _ (Nat.le_refl (packages (levels (leaves entries) k)).length)
    rw [List.take_length, half] at whole
    have flat : room entries k (fun _ => t) = entries.length * 2 ^ (k - t) := by
      simp [room]
    have space : (2 * ((levels (leaves entries) k).length / 2)) * 2 ^ k + 2 * room entries k (fun _ => t) ≤
        2 * entries.length * 2 ^ k := by
      by_cases empty : entries = []
      · subst empty
        simp only [List.length_nil] at few
        simp only [flat, List.length_nil, Nat.zero_mul, Nat.mul_zero, Nat.add_zero]
        rw [show (levels (leaves ([] : List (Nat × σ))) k).length / 2 = 0 by omega]
        simp
      have positive := List.length_pos_iff.mpr empty
      have cells : entries.length * 2 ^ (k - t) ≤ 2 ^ k := by
        have scaled := Nat.mul_le_mul_right (2 ^ (k - t)) narrow
        rwa [← Nat.pow_add, Nat.add_sub_cancel' (by omega)] at scaled
      have halves : 2 * ((levels (leaves entries) k).length / 2) + 2 ≤ 2 * entries.length := by omega
      have scaled := Nat.mul_le_mul_right (2 ^ k) halves
      rw [flat]
      linarith only [scaled, cells]
    have light := (rivalCosts ascending k _ (fun _ => t) (fun _ _ => by omega) space).2
    have price : cost entries (fun _ => t) = t * weight (leaves entries) := by
      rw [cost, List.sum_map_mul_right, leavesWeight, Nat.mul_comm]
    rw [whole, ← price]
    exact light

variable [DecidableEq σ]

def Honest (entries : List (Nat × σ)) (items : List (Item σ)) : Prop :=
  ∀ item ∈ items, item.1 = cost entries (fun s => item.2.count s)

theorem honestWeight {entries : List (Nat × σ)} {items : List (Item σ)} (honest : Honest entries items) :
    weight items = cost entries (fun s => (syms items).count s) := by
  induction items with
  | nil => exact (costZero fun _ _ => rfl).symm
  | cons item items ih =>
    have tail := ih fun x member => honest x (List.mem_cons_of_mem item member)
    simp only [weight, syms, List.map_cons, List.sum_cons, List.flatMap_cons, List.count_append, costAdd] at tail ⊢
    rw [tail, honest item List.mem_cons_self]

theorem honestLeaf {entries : List (Nat × σ)} (distinct : (entries.map Prod.snd).Nodup) {e : Nat × σ}
    (member : e ∈ entries) : e.1 = cost entries (fun s => [e.2].count s) := by
  induction entries with
  | nil => contradiction
  | cons d entries ih =>
    obtain ⟨absent, distinct'⟩ := List.nodup_cons.mp distinct
    simp only [cost, List.map_cons, List.sum_cons] at ih ⊢
    rcases List.mem_cons.mp member with rfl | later
    · have rest : cost entries (fun s => [e.2].count s) = 0 := costZero fun x inside => by
        have other : e.2 ≠ x.2 := fun same => absent (same ▸ List.mem_map_of_mem inside)
        simp [other]
      rw [cost] at rest
      rw [rest]
      simp
    · have other : e.2 ≠ d.2 := fun same => absent (same ▸ List.mem_map_of_mem later)
      rw [← ih distinct' later]
      simp [other]

theorem honestPackages {entries : List (Nat × σ)} {items : List (Item σ)} (honest : Honest entries items) :
    Honest entries (packages items) := by
  induction items using packages.induct with
  | case1 => simp [packages, Honest]
  | case2 x => simp [packages, Honest]
  | case3 x y rest ih =>
    intro p member
    rw [packages, List.mem_cons] at member
    rcases member with rfl | later
    · simp only [List.count_append, costAdd]
      rw [← honest x (by simp), ← honest y (by simp)]
    · exact ih (fun z inside => honest z (by simp [inside])) p later

theorem honestLevels {entries : List (Nat × σ)} (distinct : (entries.map Prod.snd).Nodup) (k : Nat) :
    Honest entries (levels (leaves entries) k) := by
  induction k with
  | zero => simp [levels, Honest]
  | succ k ih =>
    intro item member
    rcases List.mem_append.mp ((mergePerm _ _).mem_iff.mp member) with leaf | package
    · obtain ⟨e, inside, rfl⟩ := List.mem_map.mp leaf
      exact honestLeaf distinct inside
    · exact honestPackages ih item package

theorem depthCost {entries : List (Nat × σ)} (distinct : (entries.map Prod.snd).Nodup) (k m : Nat) :
    cost entries (depth entries k m) = weight ((levels (leaves entries) k).take m) :=
  (honestWeight fun item member => honestLevels distinct k item (List.mem_of_mem_take member)).symm

theorem packageMergeOptimal {entries : List (Nat × σ)} (alphabet : Alphabet entries) (limit : Nat) (l : σ → Nat)
    (filled : entries ≠ []) (short : ∀ e ∈ entries, l e.2 ≤ limit) (space : room entries limit l ≤ 2 ^ limit) :
    cost entries (depth entries limit (2 * entries.length - 2)) ≤ cost entries l := by
  have ascending : Ascending (leaves entries) := List.pairwise_map.mpr (alphabet.sorted.imp fun h => h)
  have halves : 2 * entries.length - 2 + 2 = 2 * entries.length := by
    have positive := List.length_pos_iff.mpr filled
    omega
  have spare : (2 * entries.length - 2) * 2 ^ limit + 2 * room entries limit l ≤ 2 * entries.length * 2 ^ limit := by
    conv => rhs; rw [← halves]
    rw [Nat.add_mul]
    omega
  rw [depthCost alphabet.distinct]
  exact (rivalCosts ascending limit _ l short spare).2

end PackageMerge
