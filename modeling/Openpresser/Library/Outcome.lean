import Mathlib.Algebra.Ring.Nat
import Mathlib.Data.List.Basic
import Mathlib.Tactic.Common

/-! How a Rust call can end, overflow checks on. An error is a value the caller
sees; a panic and an endless loop are not, and neither is ever turned into one. -/
inductive Outcome (ε α : Type) where
  | ok (value : α)
  | err (error : ε)
  | panic
  | diverge
  deriving DecidableEq, Repr

namespace Outcome

variable {ε α β γ : Type}

def bind : Outcome ε α → (α → Outcome ε β) → Outcome ε β
  | .ok a, f => f a
  | .err e, _ => .err e
  | .panic, _ => .panic
  | .diverge, _ => .diverge

instance : Monad (Outcome ε) where
  pure := .ok
  bind := bind

@[simp] theorem okBind (a : α) (f : α → Outcome ε β) : (Outcome.ok a >>= f) = f a := rfl
@[simp] theorem errBind (e : ε) (f : α → Outcome ε β) :
    ((Outcome.err e : Outcome ε α) >>= f) = .err e := rfl
@[simp] theorem panicBind (f : α → Outcome ε β) :
    ((Outcome.panic : Outcome ε α) >>= f) = .panic := rfl
@[simp] theorem divergeBind (f : α → Outcome ε β) :
    ((Outcome.diverge : Outcome ε α) >>= f) = .diverge := rfl
@[simp] theorem pureIsOk (a : α) : (pure a : Outcome ε α) = .ok a := rfl

instance : LawfulMonad (Outcome ε) := LawfulMonad.mk'
  (Outcome ε)
  (by intro α x; cases x <;> rfl)
  (by intros; rfl)
  (by intro α β γ x f g; cases x <;> rfl)

theorem bindOk {x : Outcome ε α} {f : α → Outcome ε β} {b : β} :
    (x >>= f) = .ok b ↔ ∃ a, x = .ok a ∧ f a = .ok b := by
  cases x <;> simp

theorem bindPanic {x : Outcome ε α} {f : α → Outcome ε β} :
    (x >>= f) = .panic ↔ x = .panic ∨ ∃ a, x = .ok a ∧ f a = .panic := by
  cases x <;> simp

theorem bindDiverge {x : Outcome ε α} {f : α → Outcome ε β} :
    (x >>= f) = .diverge ↔ x = .diverge ∨ ∃ a, x = .ok a ∧ f a = .diverge := by
  cases x <;> simp

/-- The call comes back to its caller, with a value or with an error. -/
def Returns : Outcome ε α → Prop
  | .ok _ => True
  | .err _ => True
  | .panic => False
  | .diverge => False

instance (x : Outcome ε α) : Decidable x.Returns := by
  cases x <;> unfold Returns <;> infer_instance

def mapErr {δ : Type} (f : ε → δ) : Outcome ε α → Outcome δ α
  | .ok a => .ok a
  | .err e => .err (f e)
  | .panic => .panic
  | .diverge => .diverge

theorem mapErrOk {δ : Type} {f : ε → δ} {x : Outcome ε α} {a : α} : x.mapErr f = .ok a ↔ x = .ok a := by
  cases x <;> simp [mapErr]

theorem mapErrReturns {δ : Type} {f : ε → δ} {x : Outcome ε α} : (x.mapErr f).Returns ↔ x.Returns := by
  cases x <;> exact Iff.rfl

theorem returnsBind {x : Outcome ε α} {f : α → Outcome ε β} (h : x.Returns) (next : ∀ a, (f a).Returns) :
    (x >>= f).Returns := by
  cases x with
  | ok a => exact next a
  | err e => trivial
  | panic => exact h
  | diverge => exact h

def Fails : Outcome ε α → Prop
  | .err _ => True
  | _ => False

theorem failsIff {x : Outcome ε α} : x.Fails ↔ ∃ e, x = .err e := by
  cases x <;> simp [Fails]

theorem failsBind {x : Outcome ε α} (f : α → Outcome ε β) (h : x.Fails) : (x >>= f).Fails := by
  cases x <;> simp_all [Fails]

/-- The call gives a value or panics; it reports no error. -/
def Quiet : Outcome ε α → Prop
  | .ok _ => True
  | .err _ => False
  | .panic => True
  | .diverge => False

theorem quietBind {x : Outcome ε α} {f : α → Outcome ε β} (h : x.Quiet) (next : ∀ a, (f a).Quiet) :
    (x >>= f).Quiet := by
  cases x with
  | ok a => exact next a
  | err e => exact h
  | panic => trivial
  | diverge => exact h

theorem quietCases {x : Outcome ε α} (quiet : x.Quiet) : (∃ a, x = .ok a) ∨ x = .panic := by
  cases x with
  | ok a => exact .inl ⟨a, rfl⟩
  | err e => exact absurd quiet id
  | panic => exact .inr rfl
  | diverge => exact absurd quiet id

/-! The checks a Rust expression makes by itself. -/
def ensure (condition : Prop) [Decidable condition] (e : ε) : Outcome ε Unit :=
  if condition then .ok () else .err e

def assert (condition : Prop) [Decidable condition] : Outcome ε Unit :=
  if condition then .ok () else .panic

def get (xs : List α) (i : Nat) : Outcome ε α := match xs[i]? with
  | some a => .ok a
  | none => .panic

def index (xs : Array α) (i : Nat) : Outcome ε α := match xs[i]? with
  | some a => .ok a
  | none => .panic

def store (xs : Array α) (i : Nat) (a : α) : Outcome ε (Array α) :=
  if i < xs.size then .ok (xs.setIfInBounds i a) else .panic

def slice (xs : List α) (start stop : Nat) : Outcome ε (List α) :=
  if start ≤ stop ∧ stop ≤ xs.length then .ok ((xs.drop start).take (stop - start)) else .panic

def sub (a b : Nat) : Outcome ε Nat := if b ≤ a then .ok (a - b) else .panic

def add (width a b : Nat) : Outcome ε Nat :=
  if a + b < 2 ^ width then .ok (a + b) else .panic

def mul (width a b : Nat) : Outcome ε Nat :=
  if a * b < 2 ^ width then .ok (a * b) else .panic

def shiftLeft (width a n : Nat) : Outcome ε Nat :=
  if n < width then .ok ((a <<< n) % 2 ^ width) else .panic

def shiftRight (width a n : Nat) : Outcome ε Nat :=
  if n < width then .ok (a >>> n) else .panic

def rem (a b : Nat) : Outcome ε Nat := if b = 0 then .panic else .ok (a % b)

def div (a b : Nat) : Outcome ε Nat := if b = 0 then .panic else .ok (a / b)

/-- The caller takes the value for granted. -/
def unwrap {δ : Type} : Outcome ε α → Outcome δ α
  | .ok a => .ok a
  | .err _ => .panic
  | .panic => .panic
  | .diverge => .diverge

theorem ensurePass {c : Prop} [Decidable c] (e : ε) (h : c) : ensure c e = .ok () := if_pos h
theorem ensureFail {c : Prop} [Decidable c] (e : ε) (h : ¬ c) : ensure c e = .err e := if_neg h

theorem ensureOk {c : Prop} [Decidable c] {e : ε} {u : Unit} : ensure c e = .ok u ↔ c := by
  unfold ensure; split <;> simp_all

theorem assertPass {c : Prop} [Decidable c] (h : c) : (assert c : Outcome ε Unit) = .ok () := if_pos h

theorem assertOk {c : Prop} [Decidable c] {u : Unit} : (assert c : Outcome ε Unit) = .ok u ↔ c := by
  unfold assert; split <;> simp_all

theorem getInside {xs : List α} {i : Nat} (h : i < xs.length) : (get xs i : Outcome ε α) = .ok xs[i] := by
  simp [get, List.getElem?_eq_getElem h]

theorem getFound {xs : List α} {i : Nat} {a : α} (h : xs[i]? = some a) :
    (get xs i : Outcome ε α) = .ok a := by simp [get, h]

theorem indexInside {xs : Array α} {i : Nat} (h : i < xs.size) :
    (index xs i : Outcome ε α) = .ok xs[i] := by
  simp [index, Array.getElem?_eq_getElem h]

theorem indexOk {xs : Array α} {i : Nat} {a : α} :
    (index xs i : Outcome ε α) = .ok a ↔ xs[i]? = some a := by
  unfold index; split <;> simp_all

theorem storeInside {xs : Array α} {i : Nat} (a : α) (h : i < xs.size) :
    (store xs i a : Outcome ε (Array α)) = .ok (xs.setIfInBounds i a) := if_pos h

theorem storeOk {xs ys : Array α} {i : Nat} {a : α} :
    (store xs i a : Outcome ε (Array α)) = .ok ys ↔ i < xs.size ∧ ys = xs.setIfInBounds i a := by
  unfold store; split <;> rename_i h <;> simp [h, eq_comm]

theorem sliceInside {xs : List α} {start stop : Nat} (order : start ≤ stop) (inside : stop ≤ xs.length) :
    (slice xs start stop : Outcome ε (List α)) = .ok ((xs.drop start).take (stop - start)) :=
  if_pos ⟨order, inside⟩

theorem sliceOk {xs ys : List α} {start stop : Nat} :
    (slice xs start stop : Outcome ε (List α)) = .ok ys ↔
      (start ≤ stop ∧ stop ≤ xs.length) ∧ ys = (xs.drop start).take (stop - start) := by
  unfold slice; split <;> rename_i h <;> simp [h, eq_comm]

theorem sliceMiddle (xs ys zs : List α) :
    (slice (xs ++ ys ++ zs) xs.length (xs.length + ys.length) : Outcome ε (List α)) = .ok ys := by
  rw [sliceInside (by omega) (by simp)]
  simp

theorem subFits {a b : Nat} (h : b ≤ a) : (sub a b : Outcome ε Nat) = .ok (a - b) := if_pos h

theorem subOk {a b c : Nat} : (sub a b : Outcome ε Nat) = .ok c ↔ b ≤ a ∧ c = a - b := by
  unfold sub; split <;> rename_i h <;> simp [h, eq_comm]

theorem addFits {width a b : Nat} (h : a + b < 2 ^ width) :
    (add width a b : Outcome ε Nat) = .ok (a + b) := if_pos h

theorem addOk {width a b c : Nat} :
    (add width a b : Outcome ε Nat) = .ok c ↔ a + b < 2 ^ width ∧ c = a + b := by
  unfold add; split <;> rename_i h <;> simp [h, eq_comm]

theorem mulOk {width a b c : Nat} : (mul width a b : Outcome ε Nat) = .ok c ↔ a * b < 2 ^ width ∧ c = a * b := by
  unfold mul; split <;> rename_i h <;> simp [h, eq_comm]

theorem shiftLeftFits {width a n : Nat} (amount : n < width) (h : a * 2 ^ n < 2 ^ width) :
    (shiftLeft width a n : Outcome ε Nat) = .ok (a * 2 ^ n) := by
  rw [shiftLeft, if_pos amount, Nat.shiftLeft_eq, Nat.mod_eq_of_lt h]

theorem shiftRightFits {width a n : Nat} (amount : n < width) :
    (shiftRight width a n : Outcome ε Nat) = .ok (a / 2 ^ n) := by
  rw [shiftRight, if_pos amount, Nat.shiftRight_eq_div_pow]

theorem divFits {a b : Nat} (h : b ≠ 0) : (div a b : Outcome ε Nat) = .ok (a / b) := if_neg h

theorem divZero {a b : Nat} (h : b = 0) : (div a b : Outcome ε Nat) = .panic := if_pos h

theorem forMOk {f : α → Outcome ε Unit} {xs : List α} (passes : ∀ x ∈ xs, f x = .ok ()) : xs.forM f = .ok () := by
  induction xs with
  | nil => rfl
  | cons x xs ih =>
    change (f x >>= fun _ => xs.forM f) = .ok ()
    rw [passes x List.mem_cons_self, okBind]
    exact ih fun y member => passes y (List.mem_cons_of_mem x member)

theorem remFits {a b : Nat} (h : b ≠ 0) : (rem a b : Outcome ε Nat) = .ok (a % b) := if_neg h

theorem indexQuiet (xs : Array α) (i : Nat) : (index xs i : Outcome ε α).Quiet := by
  unfold index; split <;> trivial

theorem storeQuiet (xs : Array α) (i : Nat) (a : α) : (store xs i a : Outcome ε (Array α)).Quiet := by
  unfold store; split <;> trivial

theorem subQuiet (a b : Nat) : (sub a b : Outcome ε Nat).Quiet := by
  unfold sub; split <;> trivial

theorem addQuiet (width a b : Nat) : (add width a b : Outcome ε Nat).Quiet := by
  unfold add; split <;> trivial

theorem shiftLeftQuiet (width a n : Nat) : (shiftLeft width a n : Outcome ε Nat).Quiet := by
  unfold shiftLeft; split <;> trivial

/-! Runs of one step over a list. -/
theorem foldlMCons (f : β → α → Outcome ε β) (b : β) (a : α) (xs : List α) :
    (a :: xs).foldlM f b = f b a >>= fun c => xs.foldlM f c := by
  simp [List.foldlM_cons]

theorem foldlMAppend (f : β → α → Outcome ε β) (b : β) (xs ys : List α) :
    (xs ++ ys).foldlM f b = xs.foldlM f b >>= fun c => ys.foldlM f c := by
  simp [List.foldlM_append]

theorem foldlMPure {f : β → α → Outcome ε β} {g : β → α → β} {xs : List α}
    (each : ∀ a ∈ xs, ∀ b, f b a = .ok (g b a)) (b : β) : xs.foldlM f b = .ok (xs.foldl g b) := by
  induction xs generalizing b with
  | nil => rfl
  | cons a xs ih =>
    rw [foldlMCons, each a List.mem_cons_self, okBind, List.foldl_cons]
    exact ih (fun c member => each c (List.mem_cons_of_mem a member)) (g b a)

theorem foldlMInvariant {f : β → α → Outcome ε β} {I : List α → β → Prop} (xs : List α) {b : β}
    (start : I [] b)
    (step : ∀ done a rest c, xs = done ++ a :: rest → I done c → ∃ d, f c a = .ok d ∧ I (done ++ [a]) d) :
    ∃ d, xs.foldlM f b = .ok d ∧ I xs d := by
  suffices h : ∀ rest done c, xs = done ++ rest → I done c →
      ∃ d, rest.foldlM f c = .ok d ∧ I xs d by
    simpa using h xs [] b rfl start
  intro rest
  induction rest with
  | nil =>
    intro done c split inv
    exact ⟨c, rfl, by simpa [split] using inv⟩
  | cons a rest ih =>
    intro done c split inv
    obtain ⟨d, hd, next⟩ := step done a rest c split inv
    obtain ⟨e, he, last⟩ := ih (done ++ [a]) d (by simp [split]) next
    exact ⟨e, by rw [foldlMCons, hd, okBind, he], last⟩

theorem foldlMRange {f : β → Nat → Outcome ε β} {I : Nat → β → Prop} (n : Nat) {b : β} (start : I 0 b)
    (step : ∀ i < n, ∀ c, I i c → ∃ d, f c i = .ok d ∧ I (i + 1) d) :
    ∃ d, (List.range n).foldlM f b = .ok d ∧ I n d := by
  induction n with
  | zero => exact ⟨b, rfl, start⟩
  | succ n ih =>
    obtain ⟨c, run, inv⟩ := ih fun i bound => step i (by omega)
    obtain ⟨d, last, next⟩ := step n (by omega) c inv
    exact ⟨d, by rw [List.range_succ, foldlMAppend, run, okBind, foldlMCons, last]; rfl, next⟩

theorem foldlMPreserves {f : β → α → Outcome ε β} {I : β → Prop} {xs : List α} {b d : β} (start : I b)
    (step : ∀ c, ∀ a ∈ xs, ∀ d, I c → f c a = .ok d → I d) (run : xs.foldlM f b = .ok d) : I d := by
  induction xs generalizing b with
  | nil => exact Outcome.ok.inj run ▸ start
  | cons a xs ih =>
    rw [foldlMCons, bindOk] at run
    obtain ⟨c, first, rest⟩ := run
    exact ih (step b a List.mem_cons_self c start first)
      (fun c x member => step c x (List.mem_cons_of_mem a member)) rest

theorem foldlMQuiet {f : β → α → Outcome ε β} (step : ∀ c a, (f c a).Quiet) (xs : List α) (b : β) :
    (xs.foldlM f b).Quiet := by
  induction xs generalizing b with
  | nil => trivial
  | cons a xs ih =>
    rw [foldlMCons]
    exact quietBind (step b a) ih

theorem foldlMEach {f : β → α → Outcome ε β} {I : β → Prop} {xs : List α} {b d : β} (start : I b)
    (step : ∀ c, ∀ a ∈ xs, ∀ d, I c → f c a = .ok d → I d) (run : xs.foldlM f b = .ok d) :
    ∀ a ∈ xs, ∃ c d, I c ∧ f c a = .ok d := by
  induction xs generalizing b with
  | nil => simp
  | cons a xs ih =>
    rw [foldlMCons, bindOk] at run
    obtain ⟨c, first, rest⟩ := run
    have later := ih (step b a List.mem_cons_self c start first)
      (fun c x member => step c x (List.mem_cons_of_mem a member)) rest
    intro x member
    rcases List.mem_cons.mp member with rfl | tail
    · exact ⟨b, c, start, first⟩
    · exact later x tail

theorem mapMCons (f : α → Outcome ε β) (a : α) (xs : List α) :
    (a :: xs).mapM f = f a >>= fun b => xs.mapM f >>= fun bs => .ok (b :: bs) := by
  simp [List.mapM_cons]

theorem mapMPointwise {f : α → Outcome ε β} {g : α → β} {xs : List α}
    (each : ∀ a ∈ xs, f a = .ok (g a)) : xs.mapM f = .ok (xs.map g) := by
  induction xs with
  | nil => rfl
  | cons a xs ih =>
    rw [mapMCons, each a List.mem_cons_self, okBind, ih fun b hb => each b (List.mem_cons_of_mem _ hb)]
    rfl

theorem mapMCases {f : α → Outcome ε β} {R : α → β → Prop} (xs : List α)
    (each : ∀ a ∈ xs, (∃ b, f a = .ok b ∧ R a b) ∨ f a = .panic) :
    (∃ bs, xs.mapM f = .ok bs ∧ List.Forall₂ R xs bs) ∨ xs.mapM f = .panic := by
  induction xs with
  | nil => exact .inl ⟨[], rfl, .nil⟩
  | cons a xs ih =>
    rw [mapMCons]
    rcases each a List.mem_cons_self with ⟨b, found, related⟩ | stopped
    · rw [found, okBind]
      rcases ih fun c member => each c (List.mem_cons_of_mem a member) with ⟨bs, rest, all⟩ | stopped
      · exact .inl ⟨b :: bs, by rw [rest, okBind], .cons related all⟩
      · exact .inr (by rw [stopped, panicBind])
    · exact .inr (by rw [stopped, panicBind])

theorem mapMEach {f : α → Outcome ε β} {R : α → β → Prop} (xs : List α)
    (each : ∀ a ∈ xs, ∃ b, f a = .ok b ∧ R a b) : ∃ bs, xs.mapM f = .ok bs ∧ List.Forall₂ R xs bs := by
  induction xs with
  | nil => exact ⟨[], rfl, .nil⟩
  | cons a xs ih =>
    obtain ⟨b, found, related⟩ := each a List.mem_cons_self
    obtain ⟨bs, rest, all⟩ := ih fun c member => each c (List.mem_cons_of_mem a member)
    exact ⟨b :: bs, by rw [mapMCons, found, okBind, rest, okBind], .cons related all⟩

end Outcome
