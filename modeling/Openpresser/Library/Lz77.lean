import Mathlib.Data.List.Basic
import Mathlib.Tactic.Common

/-! Back-references over lists of any type. A copy that follows the growing end
and a copy out of a fixed window agree as soon as the data repeats. -/
namespace Lz77

variable {α : Type}

structure Repeats (xs : List α) (pos dist len : Nat) : Prop where
  positive : 1 ≤ dist
  behind : dist ≤ pos
  inside : pos + len ≤ xs.length
  same : ∀ i < len, xs[pos + i]? = xs[pos - dist + i]?

theorem repeatsWindow {xs : List α} {pos dist len : Nat} (h : Repeats xs pos dist len) :
    ∀ i < len, xs[pos + i]? = xs[pos - dist + i % dist]? := by
  intro i
  induction i using Nat.strongRecOn with
  | ind i ih =>
    intro inside
    by_cases first : i < dist
    · rw [Nat.mod_eq_of_lt first]
      exact h.same i inside
    · have enough : dist ≤ i := Nat.not_lt.mp first
      have positive := h.positive
      have behind := h.behind
      have back : pos - dist + i = pos + (i - dist) := by omega
      rw [h.same i inside, back, ih (i - dist) (by omega) (by omega), ← Nat.mod_eq_sub_mod enough]

def window (out : List α) (dist len : Nat) : List α :=
  (List.range len).filterMap (fun i => out[out.length - dist + i % dist]?)

theorem windowSucc (out : List α) (dist len : Nat) {a : α}
    (found : out[out.length - dist + len % dist]? = some a) :
    window out dist (len + 1) = window out dist len ++ [a] := by
  simp [window, List.range_succ, found]

theorem lengthWindow (out : List α) {dist : Nat} (len : Nat) (positive : 1 ≤ dist) (inside : dist ≤ out.length) :
    (window out dist len).length = len := by
  induction len with
  | zero => rfl
  | succ len ih =>
    have small : len % dist < dist := Nat.mod_lt len positive
    have slot : out.length - dist + len % dist < out.length := by omega
    rw [windowSucc out dist len (List.getElem?_eq_getElem slot), List.length_append, ih]
    rfl

theorem windowGet {out : List α} {dist len : Nat} (positive : 1 ≤ dist) (inside : dist ≤ out.length) {i : Nat}
    (early : i < len) : (window out dist len)[i]? = out[out.length - dist + i % dist]? := by
  induction len with
  | zero => omega
  | succ len ih =>
    have small : len % dist < dist := Nat.mod_lt len positive
    have found : out[out.length - dist + len % dist]? = some out[out.length - dist + len % dist] :=
      List.getElem?_eq_getElem (by omega)
    have size := lengthWindow out len positive inside
    rw [windowSucc out dist len found]
    by_cases last : i = len
    · rw [last, List.getElem?_append_right (by omega), size, Nat.sub_self, found]
      rfl
    · rw [List.getElem?_append_left (by omega), ih (by omega)]

theorem windowExtends {xs : List α} {pos dist len : Nat} (h : Repeats xs pos dist len) :
    xs.take pos ++ window (xs.take pos) dist len = xs.take (pos + len) := by
  have positive := h.positive
  have behind := h.behind
  have inside := h.inside
  have length : (xs.take pos).length = pos := by simp; omega
  suffices grow : ∀ n ≤ len, xs.take pos ++ window (xs.take pos) dist n = xs.take (pos + n) from
    grow len (Nat.le_refl len)
  intro n
  induction n with
  | zero => intro _; simp [window]
  | succ n ih =>
    intro bound
    have reach : pos + n < xs.length := by omega
    have small : n % dist < dist := Nat.mod_lt n positive
    have found : (xs.take pos)[(xs.take pos).length - dist + n % dist]? = some xs[pos + n] := by
      rw [length, List.getElem?_take_of_lt (by omega), ← repeatsWindow h n (by omega),
        List.getElem?_eq_getElem reach]
    rw [windowSucc _ _ _ found, ← List.append_assoc, ih (by omega), ← Nat.add_assoc,
      List.take_succ_eq_append_getElem reach]

/-! The copy that follows the growing end. -/
def lookBack (out : List α) (dist : Nat) : Option α :=
  if dist ≤ out.length then out[out.length - dist]? else none

def copyBack (dist : Nat) : Nat → List α → Option (List α)
  | 0, out => some out
  | len+1, out => do
    let a ← lookBack out dist
    copyBack dist len (out ++ [a])

theorem lookBackWindow {out : List α} {dist : Nat} (n : Nat) (positive : 1 ≤ dist) (inside : dist ≤ out.length) :
    lookBack (out ++ window out dist n) dist = out[out.length - dist + n % dist]? := by
  have size := lengthWindow out n positive inside
  have reach : dist ≤ (out ++ window out dist n).length := by rw [List.length_append]; omega
  rw [lookBack, if_pos reach, List.length_append, size]
  by_cases first : n < dist
  · -- still inside the old data
    have place : out.length + n - dist = out.length - dist + n := by omega
    rw [place, List.getElem?_append_left (by omega), Nat.mod_eq_of_lt first]
  · -- inside the copy itself, one period back
    have enough : dist ≤ n := Nat.not_lt.mp first
    rw [List.getElem?_append_right (by omega)]
    have place : out.length + n - dist - out.length = n - dist := by omega
    rw [place, windowGet positive inside (by omega), ← Nat.mod_eq_sub_mod enough]

theorem copyBackWindow {out : List α} {dist : Nat} (len : Nat) (positive : 1 ≤ dist) (inside : dist ≤ out.length) :
    copyBack dist len out = some (out ++ window out dist len) := by
  suffices onward : ∀ left n,
      copyBack dist left (out ++ window out dist n) = some (out ++ window out dist (n + left)) by
    have all := onward len 0
    rw [Nat.zero_add] at all
    simpa [window] using all
  intro left
  induction left with
  | zero => intro n; rfl
  | succ left ih =>
    intro n
    have small : n % dist < dist := Nat.mod_lt n positive
    have found : out[out.length - dist + n % dist]? = some out[out.length - dist + n % dist] :=
      List.getElem?_eq_getElem (by omega)
    have grown := ih (n + 1)
    rw [windowSucc out dist n found, ← List.append_assoc] at grown
    rw [copyBack, lookBackWindow n positive inside, found, Option.bind_eq_bind, Option.bind_some, grown]
    congr 3
    omega

def repeatBack [Inhabited α] (dist : Nat) : Nat → List α → List α
  | 0, out => out
  | len+1, out => repeatBack dist len (out ++ [out.getD (out.length - dist) default])

theorem repeatBackCopies [Inhabited α] {dist len : Nat} {out grown : List α}
    (copied : copyBack dist len out = some grown) : repeatBack dist len out = grown := by
  induction len generalizing out with
  | zero => exact Option.some.inj copied
  | succ len ih =>
    rw [copyBack, Option.bind_eq_bind, Option.bind_eq_some_iff] at copied
    obtain ⟨a, found, rest⟩ := copied
    have last : out.getD (out.length - dist) default = a := by
      rw [lookBack] at found
      split at found
      · rw [List.getD_eq_getElem?_getD, found, Option.getD_some]
      · contradiction
    rw [repeatBack, last, ih rest]

theorem repeatBackKeeps [Inhabited α] (dist len : Nat) (out : List α) : out <+: repeatBack dist len out := by
  induction len generalizing out with
  | zero => exact List.prefix_rfl
  | succ len ih => exact (List.prefix_append out _).trans (ih _)

theorem repeatBackDefault [Inhabited α] (dist len n : Nat) :
    repeatBack dist len (List.replicate n (default : α)) = List.replicate (n + len) default := by
  induction len generalizing n with
  | zero => rfl
  | succ len ih =>
    have again (i : Nat) : (List.replicate n (default : α)).getD i default = default := by
      rw [List.getD_eq_getElem?_getD, List.getElem?_replicate]
      split <;> rfl
    have grown : List.replicate n (default : α) ++ [default] = List.replicate (n + 1) default := by
      rw [List.replicate_succ']
    rw [repeatBack, again, grown, ih, Nat.add_right_comm]
    rfl

/-! How far two lists agree. -/
def common [DecidableEq α] : List α → List α → Nat
  | a :: xs, b :: ys => if a = b then common xs ys + 1 else 0
  | _, _ => 0

theorem commonShort [DecidableEq α] (xs ys : List α) : common xs ys ≤ xs.length := by
  induction xs, ys using common.induct with
  | case1 xs b ys ih =>
    rw [common, if_pos rfl]
    exact Nat.succ_le_succ ih
  | case2 a xs b ys apart =>
    rw [common, if_neg apart]
    exact Nat.zero_le _
  | case3 xs ys empty =>
    rw [common.eq_2 xs ys empty]
    exact Nat.zero_le _

theorem commonTake [DecidableEq α] {xs ys : List α} {n : Nat} (far : n ≤ common xs ys) : xs.take n = ys.take n := by
  induction xs, ys using common.induct generalizing n with
  | case1 xs b ys ih =>
    rw [common, if_pos rfl] at far
    cases n with
    | zero => rfl
    | succ n => rw [List.take_succ_cons, List.take_succ_cons, ih (Nat.le_of_succ_le_succ far)]
  | case2 a xs b ys apart =>
    rw [common, if_neg apart] at far
    rw [Nat.le_zero.mp far]
    rfl
  | case3 xs ys empty =>
    rw [common.eq_2 xs ys empty] at far
    rw [Nat.le_zero.mp far]
    rfl

end Lz77
