import Mathlib.Algebra.BigOperators.Group.Finset.Basic
import Mathlib.Algebra.Order.Ring.Nat
import Mathlib.Logic.Equiv.Basic
import Mathlib.Tactic.Common

/-! Two values of an assignment exchanged. What is summed over all of them stays; a weighted
sum that the exchange does not lower has its larger value at the smaller weight. -/
namespace Exchange

variable {σ : Type} [DecidableEq σ] {domain : Finset σ} {s t : σ}

def exchanged (s t : σ) (l : σ → ℕ) (u : σ) : ℕ := l (Equiv.swap s t u)

theorem swapInside (first : s ∈ domain) (second : t ∈ domain) (u : σ) : u ∈ domain ↔ Equiv.swap s t u ∈ domain := by
  by_cases atFirst : u = s
  · rw [atFirst, Equiv.swap_apply_left]
    exact iff_of_true first second
  · by_cases atSecond : u = t
    · rw [atSecond, Equiv.swap_apply_right]
      exact iff_of_true second first
    · rw [Equiv.swap_apply_of_ne_of_ne atFirst atSecond]

theorem sumExchanged (first : s ∈ domain) (second : t ∈ domain) (l : σ → ℕ) (g : ℕ → ℕ) :
    ∑ u ∈ domain, g (exchanged s t l u) = ∑ u ∈ domain, g (l u) :=
  Finset.sum_equiv (Equiv.swap s t) (swapInside first second) fun _ _ => rfl

theorem weightedExchanged (first : s ∈ domain) (second : t ∈ domain) (apart : s ≠ t) (w l : σ → ℕ) :
    ∑ u ∈ domain, w u * exchanged s t l u + (w s * l s + w t * l t) =
      ∑ u ∈ domain, w u * l u + (w s * l t + w t * l s) := by
  have later : t ∈ domain.erase s := Finset.mem_erase.mpr ⟨apart.symm, second⟩
  have rest : ∑ u ∈ (domain.erase s).erase t, w u * exchanged s t l u = ∑ u ∈ (domain.erase s).erase t, w u * l u := by
    refine Finset.sum_congr rfl fun u member => ?_
    obtain ⟨notSecond, member⟩ := Finset.mem_erase.mp member
    rw [exchanged, Equiv.swap_apply_of_ne_of_ne (Finset.mem_erase.mp member).1 notSecond]
  rw [← Finset.add_sum_erase domain _ first, ← Finset.add_sum_erase domain _ first,
    ← Finset.add_sum_erase (domain.erase s) _ later, ← Finset.add_sum_erase (domain.erase s) _ later, rest, exchanged,
    exchanged, Equiv.swap_apply_left, Equiv.swap_apply_right]
  omega

theorem orderedOfLeast {w l : σ → ℕ} (first : s ∈ domain) (second : t ∈ domain) (lighter : w s < w t)
    (least : ∑ u ∈ domain, w u * l u ≤ ∑ u ∈ domain, w u * exchanged s t l u) : l t ≤ l s := by
  by_contra longer
  have apart : s ≠ t := fun same => absurd lighter (same ▸ Nat.lt_irrefl _)
  have terms := weightedExchanged first second apart w l
  have gain := mul_add_mul_lt_mul_add_mul lighter (Nat.lt_of_not_le longer)
  omega

end Exchange
