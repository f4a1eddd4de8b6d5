import Mathlib.Data.List.Sort
import Mathlib.Data.List.Count
import Mathlib.Algebra.BigOperators.Group.List.Basic
import Mathlib.Algebra.Order.BigOperators.Group.List
import Mathlib.Tactic.Ring
import Mathlib.Tactic.Linarith

/-! Package-merge over any alphabet. A prefix of a level takes a prefix of the
leaves and a prefix of the packages; a symbol that is taken inside a package is
also taken as a leaf, so the depths fill the code space exactly. -/
namespace PackageMerge

variable {σ : Type}

abbrev Item (σ : Type) := Nat × List σ

def packages : List (Item σ) → List (Item σ)
  | [] => []
  | [_] => []
  | x :: y :: rest => (x.1 + y.1, x.2 ++ y.2) :: packages rest

def lighter (x y : Item σ) : Bool := x.1 ≤ y.1

/-- Level `k` holds what may be taken at depth `limit - k`; level 1 is the leaves alone. -/
def levels (leaves : List (Item σ)) : Nat → List (Item σ)
  | 0 => []
  | k+1 => leaves.merge (packages (levels leaves k)) lighter

def leaf (entry : Nat × σ) : Item σ := (entry.1, [entry.2])

def syms (items : List (Item σ)) : List σ := items.flatMap Prod.snd

def weight (items : List (Item σ)) : Nat := (items.map Prod.fst).sum

/-! Packages. -/
theorem packagesLength (items : List (Item σ)) : (packages items).length = items.length / 2 := by
  induction items using packages.induct with
  | case1 => simp [packages]
  | case2 x => simp [packages]
  | case3 x y rest ih => simp [packages, ih]; omega

theorem packagesTake (items : List (Item σ)) (b : Nat) (bound : b ≤ (packages items).length) :
    syms ((packages items).take b) = syms (items.take (2 * b)) := by
  induction items using packages.induct generalizing b with
  | case1 => simp [packages]
  | case2 x =>
    have zero : b = 0 := by simpa [packages] using bound
    simp [zero]
  | case3 x y rest ih =>
    cases b with
    | zero => rfl
    | succ b =>
      have tail := ih b (by simpa [packages] using bound)
      simp only [packages, List.take_succ_cons, Nat.mul_succ, syms, List.flatMap_cons] at tail ⊢
      rw [tail, List.append_assoc]

theorem packagesWeight (items : List (Item σ)) : weight (packages items) ≤ weight items := by
  induction items using packages.induct with
  | case1 => exact Nat.le_refl _
  | case2 x => exact Nat.zero_le _
  | case3 x y rest ih =>
    simp only [weight, packages, List.map_cons, List.sum_cons] at ih ⊢
    omega

def Covers (leaves : List (Nat × σ)) (items : List (Item σ)) : Prop :=
  ∀ item ∈ items, ∀ s ∈ item.2, ∀ w, (w, s) ∈ leaves → w ≤ item.1

theorem packagesCover {leaves : List (Nat × σ)} {items : List (Item σ)} (h : Covers leaves items) :
    Covers leaves (packages items) := by
  induction items using packages.induct with
  | case1 => simp [packages, Covers]
  | case2 x => simp [packages, Covers]
  | case3 x y rest ih =>
    intro item member s inside w present
    have later : Covers leaves rest := fun it m => h it (by simp [m])
    rw [packages, List.mem_cons] at member
    rcases member with rfl | member
    · rcases List.mem_append.mp inside with left | right
      · exact Nat.le_trans (h x (by simp) s left w present) (Nat.le_add_right _ _)
      · exact Nat.le_trans (h y (by simp) s right w present) (Nat.le_add_left _ _)
    · exact ih later item member s inside w present

/-! Merging. -/
structure Split (leaves packs : List (Item σ)) (m a b : Nat) : Prop where
  leavesBound : a ≤ leaves.length
  packsBound : b ≤ packs.length
  total : a + b = m
  taken : ((leaves.merge packs lighter).take m).Perm (leaves.take a ++ packs.take b)
  early : ∀ p ∈ packs.take b, ∀ l ∈ leaves, l.1 ≤ p.1 → l ∈ leaves.take a

/-- A prefix of a merge is a prefix of both sides, and ties take the leaf first. -/
theorem mergeSplit {leaves packs : List (Item σ)} (sorted : leaves.Pairwise (fun x y => x.1 ≤ y.1))
    (m : Nat) (bound : m ≤ leaves.length + packs.length) : ∃ a b, Split leaves packs m a b := by
  induction leaves generalizing packs m with
  | nil => exact ⟨0, m, by simp, by simpa using bound, by simp, by simp, by simp⟩
  | cons x leaves ihLeaves =>
    induction packs generalizing m with
    | nil => exact ⟨m, 0, by simpa using bound, by simp, by simp, by simp, by simp⟩
    | cons y packs ihPacks =>
      cases m with
      | zero => exact ⟨0, 0, by simp, by simp, rfl, by simp, by simp⟩
      | succ m =>
        by_cases first : x.1 ≤ y.1
        · obtain ⟨a, b, h⟩ := ihLeaves (List.pairwise_cons.mp sorted).2 m
            (by simp at bound ⊢; omega : m ≤ leaves.length + (y :: packs).length)
          refine ⟨a + 1, b, by simpa using h.leavesBound, h.packsBound, by rw [← h.total]; omega, ?_, ?_⟩
          · have step : (x :: leaves).merge (y :: packs) lighter =
                x :: leaves.merge (y :: packs) lighter := by simp [lighter, first]
            rw [step, List.take_succ_cons, List.take_succ_cons, List.cons_append]
            exact h.taken.cons x
          · intro p hp l hl light
            rw [List.take_succ_cons, List.mem_cons]
            rcases List.mem_cons.mp hl with same | later
            · exact .inl same
            · exact .inr (h.early p hp l later light)
        · obtain ⟨a, b, h⟩ := ihPacks m (by simp at bound ⊢; omega)
          refine ⟨a, b + 1, h.leavesBound, by simpa using h.packsBound, by rw [← h.total]; omega, ?_, ?_⟩
          · have step : (x :: leaves).merge (y :: packs) lighter =
                y :: (x :: leaves).merge packs lighter := by simp [lighter, first]
            rw [step, List.take_succ_cons, List.take_succ_cons]
            exact (h.taken.cons y).trans List.perm_middle.symm
          · intro p hp l hl light
            rw [List.take_succ_cons, List.mem_cons] at hp
            rcases hp with rfl | hp
            · -- every leaf is at least as heavy as `x`, which lost against this package
              have heavy : x.1 ≤ l.1 := by
                rcases List.mem_cons.mp hl with rfl | later
                · exact Nat.le_refl _
                · exact (List.pairwise_cons.mp sorted).1 l later
              omega
            · exact h.early p hp l hl light

theorem mergePerm (a b : List (Item σ)) : (a.merge b lighter).Perm (a ++ b) :=
  List.merge_perm_append lighter

theorem mergeLength (a b : List (Item σ)) : (a.merge b lighter).length = a.length + b.length := by
  rw [← List.length_append]
  exact (mergePerm a b).length_eq

theorem mergeWeight (a b : List (Item σ)) : weight (a.merge b lighter) = weight a + weight b := by
  have same := ((mergePerm a b).map Prod.fst).sum_eq
  simpa [weight] using same

theorem mergeCovers {entries : List (Nat × σ)} {a b : List (Item σ)} (ha : Covers entries a)
    (hb : Covers entries b) : Covers entries (a.merge b lighter) := by
  intro item member
  rcases List.mem_append.mp ((mergePerm a b).mem_iff.mp member) with left | right
  · exact ha item left
  · exact hb item right

/-! Depths. -/
structure Alphabet (entries : List (Nat × σ)) : Prop where
  sorted : entries.Pairwise (fun x y => x.1 ≤ y.1)
  distinct : (entries.map Prod.snd).Nodup

def leaves (entries : List (Nat × σ)) : List (Item σ) := entries.map leaf

@[simp] theorem leavesLength (entries : List (Nat × σ)) : (leaves entries).length = entries.length := by
  simp [leaves]

theorem leavesSyms (entries : List (Nat × σ)) : syms (leaves entries) = entries.map Prod.snd := by
  induction entries with
  | nil => rfl
  | cons e entries ih =>
    simp only [syms, leaves, List.map_cons, List.flatMap_cons] at ih ⊢
    rw [ih]
    rfl

theorem leavesWeight (entries : List (Nat × σ)) : weight (leaves entries) = (entries.map Prod.fst).sum := by
  simp [weight, leaves, leaf, Function.comp_def]

theorem levelsLength (items : List (Item σ)) (k : Nat) :
    (levels items (k + 1)).length = items.length + (levels items k).length / 2 := by
  rw [levels, mergeLength, packagesLength]

theorem levelsGap (items : List (Item σ)) (k : Nat) :
    2 * items.length * 2 ^ k + 1 ≤ (levels items (k + 1)).length * 2 ^ k + items.length + 2 ^ k := by
  induction k with
  | zero => simp [levels, packages]; omega
  | succ k ih =>
    have step := levelsLength items (k + 1)
    have half : 2 * items.length + (levels items (k + 1)).length ≤
        2 * (levels items (k + 1 + 1)).length + 1 := by omega
    have scaled := Nat.mul_le_mul_right (2 ^ k) half
    rw [Nat.pow_succ]
    nlinarith

theorem levelsWeight (items : List (Item σ)) (k : Nat) : weight (levels items k) ≤ k * weight items := by
  induction k with
  | zero => simp [levels, weight]
  | succ k ih =>
    have pairs := packagesWeight (levels items k)
    rw [levels, mergeWeight, Nat.succ_mul]
    omega

theorem sameEntry {entries : List (Nat × σ)} (alphabet : Alphabet entries) {x y : Nat × σ}
    (hx : x ∈ entries) (hy : y ∈ entries) (same : x.2 = y.2) : x = y :=
  List.inj_on_of_nodup_map alphabet.distinct hx hy same

theorem levelsCover {entries : List (Nat × σ)} (alphabet : Alphabet entries) (k : Nat) :
    Covers entries (levels (leaves entries) k) := by
  induction k with
  | zero => simp [Covers, levels]
  | succ k ih =>
    refine mergeCovers ?_ (packagesCover ih)
    intro item member s inside w present
    obtain ⟨e, he, rfl⟩ := List.mem_map.mp member
    have symbol : s = e.2 := by simpa [leaf] using inside
    exact Nat.le_of_eq (congrArg Prod.fst (sameEntry alphabet present he symbol))

theorem sumTakeDrop (entries : List (Nat × σ)) (a : Nat) (f : σ → Nat) :
    ((entries.map Prod.snd).map f).sum =
      (((entries.take a).map Prod.snd).map f).sum + (((entries.drop a).map Prod.snd).map f).sum := by
  rw [← List.sum_append, ← List.map_append, ← List.map_append, List.take_append_drop]

variable [DecidableEq σ]

def depth (entries : List (Nat × σ)) (k m : Nat) (s : σ) : Nat :=
  (syms ((levels (leaves entries) k).take m)).count s

structure Below (entries : List (Nat × σ)) (k m a b : Nat) : Prop where
  leavesBound : a ≤ entries.length
  pairsBound : 2 * b ≤ (levels (leaves entries) k).length
  total : a + b = m
  count : ∀ s, depth entries (k + 1) m s =
    ((entries.take a).map Prod.snd).count s + depth entries k (2 * b) s
  nested : ∀ s, 0 < depth entries k (2 * b) s → s ∈ entries.map Prod.snd →
    s ∈ (entries.take a).map Prod.snd

theorem depthBelow {entries : List (Nat × σ)} (alphabet : Alphabet entries) {k m : Nat}
    (bound : m ≤ (levels (leaves entries) (k + 1)).length) : ∃ a b, Below entries k m a b := by
  have sorted : (leaves entries).Pairwise (fun x y => x.1 ≤ y.1) :=
    List.pairwise_map.mpr (alphabet.sorted.imp (fun h => h))
  rw [levels, mergeLength] at bound
  obtain ⟨a, b, h⟩ := mergeSplit sorted m bound
  have pairs := h.packsBound
  rw [packagesLength] at pairs
  have inner := packagesTake (levels (leaves entries) k) b h.packsBound
  refine ⟨a, b, by simpa using h.leavesBound, by omega, h.total, ?_, ?_⟩
  · intro s
    have order := (h.taken.flatMap_right Prod.snd).count_eq s
    rw [List.flatMap_append, List.count_append] at order
    have front : ((leaves entries).take a).flatMap Prod.snd = (entries.take a).map Prod.snd := by
      rw [leaves, ← List.map_take]
      exact leavesSyms (entries.take a)
    rw [front] at order
    simp only [syms] at inner
    rw [inner] at order
    exact order
  · intro s taken present
    rw [depth, ← inner, List.count_pos_iff] at taken
    obtain ⟨p, hp, inside⟩ := List.mem_flatMap.mp taken
    obtain ⟨e, he, rfl⟩ := List.mem_map.mp present
    have light : e.1 ≤ p.1 :=
      packagesCover (levelsCover alphabet k) p (List.mem_of_mem_take hp) e.2 inside e.1 he
    have early := h.early p hp (leaf e) (List.mem_map.mpr ⟨e, he, rfl⟩) light
    rw [leaves, ← List.map_take] at early
    obtain ⟨e', he', same⟩ := List.mem_map.mp early
    have symbols : e'.2 = e.2 := by simpa [leaf] using congrArg Prod.snd same
    exact List.mem_map.mpr ⟨e', he', symbols⟩

structure Filled (entries : List (Nat × σ)) (k m : Nat) : Prop where
  shallow : ∀ s, depth entries k m s ≤ k
  known : ∀ s, 0 < depth entries k m s → s ∈ entries.map Prod.snd
  space : 2 * ((entries.map Prod.snd).map (fun s => 2 ^ (k - depth entries k m s))).sum + m * 2 ^ k =
    2 * entries.length * 2 ^ k

theorem depthOfTaken {entries : List (Nat × σ)} {k m a b : Nat} (alphabet : Alphabet entries)
    (below : Below entries k m a b) {s : σ} (taken : s ∈ (entries.take a).map Prod.snd) :
    depth entries (k + 1) m s = 1 + depth entries k (2 * b) s := by
  have nodup : ((entries.take a).map Prod.snd).Nodup :=
    alphabet.distinct.sublist ((List.take_sublist a entries).map Prod.snd)
  rw [below.count, nodup.count, if_pos taken]

theorem depthOfLeft {entries : List (Nat × σ)} {k m a b : Nat} (alphabet : Alphabet entries)
    (below : Below entries k m a b) {s : σ} (left : s ∈ (entries.drop a).map Prod.snd) :
    depth entries (k + 1) m s = 0 ∧ depth entries k (2 * b) s = 0 := by
  have nodup := alphabet.distinct
  rw [← List.take_append_drop a entries, List.map_append] at nodup
  have absent : s ∉ (entries.take a).map Prod.snd := fun taken => nodup.disjoint taken left
  have present : s ∈ entries.map Prod.snd := ((List.drop_sublist a entries).map Prod.snd).subset left
  have inner : depth entries k (2 * b) s = 0 := by
    by_contra used
    exact absent (below.nested s (Nat.pos_of_ne_zero used) present)
  exact ⟨by rw [below.count, List.count_eq_zero.mpr absent, inner], inner⟩

theorem spaceBelow {entries : List (Nat × σ)} {k m a b : Nat} (alphabet : Alphabet entries)
    (below : Below entries k m a b) :
    ((entries.map Prod.snd).map (fun s => 2 ^ (k + 1 - depth entries (k + 1) m s))).sum =
      ((entries.map Prod.snd).map (fun s => 2 ^ (k - depth entries k (2 * b) s))).sum +
        (entries.length - a) * 2 ^ k := by
  -- taken symbols move one level down and keep their share; the others go on with all of theirs
  have taken : ((entries.take a).map Prod.snd).map (fun s => 2 ^ (k + 1 - depth entries (k + 1) m s)) =
      ((entries.take a).map Prod.snd).map (fun s => 2 ^ (k - depth entries k (2 * b) s)) := by
    apply List.map_congr_left
    intro s member
    rw [depthOfTaken alphabet below member, Nat.add_comm k 1, Nat.add_sub_add_left]
  have left : ((entries.drop a).map Prod.snd).map (fun s => 2 ^ (k + 1 - depth entries (k + 1) m s)) =
      ((entries.drop a).map Prod.snd).map (fun s => 2 ^ (k - depth entries k (2 * b) s) + 2 ^ k) := by
    apply List.map_congr_left
    intro s member
    obtain ⟨outer, inner⟩ := depthOfLeft alphabet below member
    rw [outer, inner, Nat.sub_zero, Nat.sub_zero, Nat.pow_succ, Nat.mul_two]
  have share : (((entries.drop a).map Prod.snd).map (fun _ => 2 ^ k)).sum = (entries.length - a) * 2 ^ k := by
    rw [List.map_const', List.sum_replicate, List.length_map, List.length_drop, Nat.nsmul_eq_mul]
  rw [sumTakeDrop entries a, sumTakeDrop entries a (fun s => 2 ^ (k - depth entries k (2 * b) s)), taken, left,
    List.sum_map_add, share, Nat.add_assoc]

theorem filledZero (entries : List (Nat × σ)) : Filled entries 0 0 := by
  have nothing (s : σ) : depth entries 0 0 s = 0 := by simp [depth, levels, syms]
  refine ⟨fun s => by rw [nothing], fun s used => by rw [nothing] at used; omega, ?_⟩
  simp only [Nat.zero_sub, Nat.pow_zero, List.map_const', List.sum_replicate]
  simp

/-- A prefix of `m` items of level `k` uses `m` halves of the code space at depth `k`. -/
theorem levelsFilled {entries : List (Nat × σ)} (alphabet : Alphabet entries) (k m : Nat)
    (bound : m ≤ (levels (leaves entries) k).length) : Filled entries k m := by
  induction k generalizing m with
  | zero =>
    obtain rfl : m = 0 := by simpa [levels] using bound
    exact filledZero entries
  | succ k ih =>
    obtain ⟨a, b, below⟩ := depthBelow alphabet bound
    have lower := ih (2 * b) below.pairsBound
    have parts (s : σ) : s ∈ (entries.take a).map Prod.snd ∨
        depth entries (k + 1) m s = depth entries k (2 * b) s := by
      by_cases taken : s ∈ (entries.take a).map Prod.snd
      · exact .inl taken
      · exact .inr (by rw [below.count, List.count_eq_zero.mpr taken, Nat.zero_add])
    refine ⟨?_, ?_, ?_⟩
    · intro s
      have shallow := lower.shallow s
      rcases parts s with taken | same
      · have deeper := depthOfTaken alphabet below taken
        omega
      · omega
    · intro s used
      rcases parts s with taken | same
      · exact ((List.take_sublist a entries).map Prod.snd).subset taken
      · exact lower.known s (same ▸ used)
    · have space := lower.space
      obtain ⟨rest, hrest⟩ := Nat.exists_eq_add_of_le below.leavesBound
      rw [hrest] at space
      rw [spaceBelow alphabet below, ← below.total, Nat.pow_succ, hrest, Nat.add_sub_cancel_left]
      linarith only [space]

structure Complete (entries : List (Nat × σ)) (limit : Nat) : Prop where
  enough : 2 * entries.length - 2 ≤ (levels (leaves entries) limit).length
  shallow : ∀ s, depth entries limit (2 * entries.length - 2) s ≤ limit
  used : ∀ s, 0 < depth entries limit (2 * entries.length - 2) s ↔ s ∈ entries.map Prod.snd
  kraft : ((entries.map Prod.snd).map
    (fun s => 2 ^ (limit - depth entries limit (2 * entries.length - 2) s))).sum = 2 ^ limit

theorem packageMergeComplete {entries : List (Nat × σ)} (alphabet : Alphabet entries) {limit : Nat}
    (two : 2 ≤ entries.length) (room : entries.length ≤ 2 ^ limit) : Complete entries limit := by
  cases limit with
  | zero => simp at room; omega
  | succ k =>
    have enough : 2 * entries.length - 2 ≤ (levels (leaves entries) (k + 1)).length := by
      have gap := levelsGap (leaves entries) k
      rw [leavesLength] at gap
      rw [Nat.pow_succ] at room
      by_contra short
      have few : (levels (leaves entries) (k + 1)).length + 3 ≤ 2 * entries.length := by omega
      have scaled := Nat.mul_le_mul_right (2 ^ k) few
      nlinarith
    have filled := levelsFilled alphabet (k + 1) _ enough
    have kraft : ((entries.map Prod.snd).map
        (fun s => 2 ^ (k + 1 - depth entries (k + 1) (2 * entries.length - 2) s))).sum = 2 ^ (k + 1) := by
      have space := filled.space
      obtain ⟨n, hn⟩ := Nat.exists_eq_add_of_le two
      have take : 2 * entries.length - 2 = 2 * n + 2 := by omega
      rw [take] at space ⊢
      rw [hn] at space
      nlinarith
    refine ⟨enough, filled.shallow, fun s => ⟨filled.known s, ?_⟩, kraft⟩
    intro present
    by_contra unused
    -- an unused symbol would fill the whole code space alone
    have whole : depth entries (k + 1) (2 * entries.length - 2) s = 0 := by omega
    have others := List.perm_cons_erase present
    rw [(others.map _).sum_eq, List.map_cons, List.sum_cons, whole, Nat.sub_zero] at kraft
    have size := others.length_eq
    rw [List.length_map, List.length_cons] at size
    have more : 0 < ((entries.map Prod.snd).erase s).length := by omega
    obtain ⟨t, ht⟩ := List.exists_mem_of_length_pos more
    have below : 2 ^ (k + 1 - depth entries (k + 1) (2 * entries.length - 2) t) ≤
        (((entries.map Prod.snd).erase s).map
          (fun s => 2 ^ (k + 1 - depth entries (k + 1) (2 * entries.length - 2) s))).sum :=
      List.single_le_sum (fun _ _ => Nat.zero_le _) _ (List.mem_map.mpr ⟨t, ht, rfl⟩)
    have positive := Nat.two_pow_pos (k + 1 - depth entries (k + 1) (2 * entries.length - 2) t)
    omega

end PackageMerge
