import Mathlib.Data.List.Basic
import Mathlib.Algebra.BigOperators.Group.List.Basic
import Mathlib.Algebra.Order.BigOperators.Group.List
import Mathlib.Tactic.Ring

/-! Canonical prefix codes over any alphabet. A list of lengths lays consecutive
cells over the words of `limit` bits; a code is the position of its cell at its
own length, so decoding is finding the cell a word falls into. -/
namespace CanonicalCode

variable {σ : Type} (limit : Nat)

def span (e : σ × Nat) : Nat := 2 ^ (limit - e.2)

def kraft (entries : List (σ × Nat)) : Nat := (entries.map (span limit)).sum

def code (done : List (σ × Nat)) (e : σ × Nat) : Nat := kraft limit done / span limit e

def locate : Nat → List (σ × Nat) → Nat → Option (σ × Nat)
  | _, [], _ => none
  | start, e :: rest, word =>
    if start ≤ word ∧ word < start + span limit e then some e
    else locate (start + span limit e) rest word

@[simp] theorem kraftNil : kraft limit ([] : List (σ × Nat)) = 0 := rfl

@[simp] theorem kraftCons (e : σ × Nat) (entries : List (σ × Nat)) :
    kraft limit (e :: entries) = span limit e + kraft limit entries := rfl

theorem kraftAppend (a b : List (σ × Nat)) : kraft limit (a ++ b) = kraft limit a + kraft limit b := by
  simp [kraft]

theorem kraftPerm {a b : List (σ × Nat)} (h : a.Perm b) : kraft limit a = kraft limit b :=
  (h.map _).sum_eq

theorem spanPositive (e : σ × Nat) : 0 < span limit e := Nat.two_pow_pos _

theorem locateSnoc (start : Nat) (done : List (σ × Nat)) (e : σ × Nat) (word : Nat) :
    locate limit start (done ++ [e]) word =
      if start + kraft limit done ≤ word ∧ word < start + kraft limit done + span limit e then some e
      else locate limit start done word := by
  induction done generalizing start with
  | nil => rfl
  | cons d done ih =>
    rw [List.cons_append, locate, locate, ih, kraftCons, Nat.add_assoc start]
    by_cases here : start ≤ word ∧ word < start + span limit d
    · rw [if_pos here, if_pos here, if_neg (by omega)]
    · rw [if_neg here, if_neg here]

theorem locateCell {start : Nat} {entries : List (σ × Nat)} {i : Nat} {e : σ × Nat} {word : Nat}
    (found : entries[i]? = some e) (low : start + kraft limit (entries.take i) ≤ word)
    (high : word < start + kraft limit (entries.take i) + span limit e) :
    locate limit start entries word = some e := by
  induction entries generalizing start i with
  | nil => simp at found
  | cons d entries ih =>
    cases i with
    | zero =>
      obtain rfl : d = e := by simpa using found
      simp only [List.take_zero, kraftNil, Nat.add_zero] at low high
      exact if_pos ⟨low, high⟩
    | succ i =>
      rw [List.take_succ_cons, kraftCons] at low high
      rw [locate, if_neg (by omega)]
      exact ih (by simpa using found) (by omega) (by omega)

theorem locateFound {start : Nat} {entries : List (σ × Nat)} {e : σ × Nat} {word : Nat}
    (found : locate limit start entries word = some e) :
    ∃ i : Nat, entries[i]? = some e ∧ start + kraft limit (entries.take i) ≤ word ∧
      word < start + kraft limit (entries.take i) + span limit e := by
  induction entries generalizing start with
  | nil => simp [locate] at found
  | cons d entries ih =>
    rw [locate] at found
    split at found
    · rename_i here
      cases Option.some.inj found
      exact ⟨0, rfl, by simpa using here⟩
    · obtain ⟨i, place, low, high⟩ := ih found
      exact ⟨i + 1, place, by rw [List.take_succ_cons, kraftCons]; omega⟩

theorem locateMember {start : Nat} {entries : List (σ × Nat)} {e : σ × Nat} {word : Nat}
    (found : locate limit start entries word = some e) : e ∈ entries := by
  obtain ⟨i, place, _⟩ := locateFound limit found
  exact List.mem_of_getElem? place

theorem codeAligned {done : List (σ × Nat)} {e : σ × Nat} (shorter : ∀ d ∈ done, d.2 ≤ e.2) :
    code limit done e * span limit e = kraft limit done := by
  apply Nat.div_mul_cancel
  induction done with
  | nil => simp
  | cons d done ih =>
    rw [kraftCons]
    refine Nat.dvd_add ?_ (ih fun x hx => shorter x (List.mem_cons_of_mem _ hx))
    exact Nat.pow_dvd_pow 2 (by have h := shorter d List.mem_cons_self; omega)

theorem cellIff {done : List (σ × Nat)} {e : σ × Nat} (shorter : ∀ d ∈ done, d.2 ≤ e.2) (word : Nat) :
    kraft limit done ≤ word ∧ word < kraft limit done + span limit e ↔ word / span limit e = code limit done e := by
  rw [← codeAligned limit shorter, Nat.div_eq_iff (spanPositive limit e)]
  have positive := spanPositive limit e
  omega

theorem kraftPrefix (entries : List (σ × Nat)) (i : Nat) {e : σ × Nat} (found : entries[i]? = some e) :
    kraft limit (entries.take i) + span limit e ≤ kraft limit entries := by
  obtain ⟨inside, rfl⟩ := List.getElem?_eq_some_iff.mp found
  have whole : entries = entries.take i ++ entries[i] :: entries.drop (i + 1) := by
    rw [List.getElem_cons_drop, List.take_append_drop]
  conv => rhs; rw [whole]
  rw [kraftAppend, kraftCons]
  omega

end CanonicalCode
