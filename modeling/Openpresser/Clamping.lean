import Openpresser.Decoder

/-! The decoder on any list of tokens. Nothing is refused: a distance is taken as far
back as the output reaches, and in front of the first byte there are zeros. -/
namespace Openpresser.Lz

def expandStep (out : Bytes) : Token → Bytes
  | .literal b => out ++ [b]
  | .matched distance length => Lz77.repeatBack (min (max distance.toNat 1) out.length) length.toNat out

def expand (tokens : List Token) : Bytes := tokens.foldl expandStep []

theorem copyDegenerateCopies {out : Bytes} {dist : Nat} (len : Nat) (positive : 1 ≤ dist) (inside : dist ≤ out.length) :
    copyDegenerate (out.length - dist) dist len out = .ok (out ++ Lz77.window out dist len) := by
  obtain ⟨grown, run, rfl⟩ := Outcome.foldlMRange
    (f := fun (copied : Bytes) i => if copied = [] then (.ok (copied ++ [0]) : Result Bytes)
      else do
        let r ← Outcome.rem i dist
        let b ← Outcome.get copied (out.length - dist + r)
        .ok (copied ++ [b]))
    (b := out) (I := fun i copied => copied = out ++ Lz77.window out dist i) len (by simp [Lz77.window]) (by
      rintro i _ copied rfl
      have small : i % dist < dist := Nat.mod_lt i positive
      have slot : out.length - dist + i % dist < out.length := by omega
      have found : out[out.length - dist + i % dist]? = some out[out.length - dist + i % dist] :=
        List.getElem?_eq_getElem slot
      have kept : (out ++ Lz77.window out dist i)[out.length - dist + i % dist]? =
          some out[out.length - dist + i % dist] := by
        rw [List.getElem?_append_left slot, found]
      have filled : out ++ Lz77.window out dist i ≠ [] := by
        intro nothing
        rw [(List.append_eq_nil_iff.mp nothing).1] at inside
        exact absurd (Nat.le_trans positive inside) (by decide)
      refine ⟨_, ?_, by rw [Lz77.windowSucc out dist i found, ← List.append_assoc]⟩
      rw [if_neg filled, Outcome.remFits (by omega), Outcome.okBind, Outcome.getFound kept, Outcome.okBind])
  exact run

theorem copyDegenerateZeros (len : Nat) : copyDegenerate 0 1 len [] = .ok (List.replicate len 0) := by
  obtain ⟨grown, run, rfl⟩ := Outcome.foldlMRange
    (f := fun (copied : Bytes) i => if copied = [] then (.ok (copied ++ [0]) : Result Bytes)
      else do
        let r ← Outcome.rem i 1
        let b ← Outcome.get copied (0 + r)
        .ok (copied ++ [b]))
    (I := fun i copied => copied = List.replicate i (0 : UInt8)) len rfl (by
      rintro i _ copied rfl
      refine ⟨_, ?_, by rw [List.replicate_succ']⟩
      cases i with
      | zero => rfl
      | succ i =>
        have filled : List.replicate (i + 1) (0 : UInt8) ≠ [] := by simp
        have first : (List.replicate (i + 1) (0 : UInt8))[0 + (i + 1) % 1]? = some 0 := by
          rw [Nat.mod_one]
          rfl
        rw [if_neg filled, Outcome.remFits (by decide), Outcome.okBind, Outcome.getFound first, Outcome.okBind])
  exact run

theorem emitExpands (out : Bytes) (tok : Token) : emit out tok = .ok (expandStep out tok) := by
  cases tok with
  | literal b => rfl
  | matched distance length =>
    by_cases empty : out = []
    · have degenerate : distance.toNat = 0 ∨ distance.toNat > 0 := Nat.eq_zero_or_pos _
      have safe : min (max distance.toNat 1) (max 0 1) = 1 := by omega
      have zeros := Lz77.repeatBackDefault (α := UInt8) 0 length.toNat 0
      rw [Nat.zero_add] at zeros
      rw [empty, emit]
      simp only [List.length_nil, if_pos degenerate, safe, Nat.zero_sub, copyDegenerateZeros, expandStep, Nat.min_zero]
      exact congrArg Outcome.ok zeros.symm
    have written := List.length_pos_iff.mpr empty
    have positive : 1 ≤ min (max distance.toNat 1) out.length := by omega
    have inside : min (max distance.toNat 1) out.length ≤ out.length := Nat.min_le_right _ _
    rw [expandStep, Lz77.repeatBackCopies (Lz77.copyBackWindow length.toNat positive inside)]
    by_cases degenerate : distance.toNat = 0 ∨ distance.toNat > out.length
    · have safe : min (max distance.toNat 1) (max out.length 1) = min (max distance.toNat 1) out.length := by
        rw [Nat.max_eq_left written]
      simp only [emit, if_pos degenerate, safe]
      exact copyDegenerateCopies _ positive inside
    · have proper : min (max distance.toNat 1) out.length = distance.toNat := by omega
      have start : (Outcome.sub out.length distance.toNat : Result Nat) = .ok (out.length - distance.toNat) :=
        Outcome.subFits (by omega)
      simp only [emit, if_neg degenerate, start, Outcome.okBind, proper]
      exact copyWindowCopies _ (by omega) (by omega)

theorem detokeniseExpands (tokens : List Token) (hint : Nat) : detokenise tokens hint = .ok (expand tokens) :=
  Outcome.foldlMPure (fun tok _ out => emitExpands out tok) []

/-! What is written stays written. -/
theorem expandAppend (front back : List Token) : expand (front ++ back) = back.foldl expandStep (expand front) :=
  List.foldl_append

theorem lengthExpand (tokens : List Token) : (expand tokens).length = (tokens.map Token.span).sum := by
  obtain ⟨out, run, length⟩ := detokeniseLength tokens 0
  rw [detokeniseExpands] at run
  rw [Outcome.ok.inj run, length]

theorem expandKeeps (tokens : List Token) (out : Bytes) : out <+: tokens.foldl expandStep out := by
  induction tokens generalizing out with
  | nil => exact List.prefix_rfl
  | cons tok tokens ih =>
    have first : out <+: expandStep out tok := by
      cases tok with
      | literal b => exact List.prefix_append out [b]
      | matched distance length => exact Lz77.repeatBackKeeps _ _ out
    exact first.trans (ih _)

/-- No token is refused, and those that follow leave what is written as it is. -/
theorem detokeniseClamps (tokens later : List Token) (hint : Nat) :
    detokenise tokens hint = .ok (expand tokens) ∧ (expand tokens).length = (tokens.map Token.span).sum ∧
    detokenise (tokens ++ later) hint = .ok (later.foldl expandStep (expand tokens)) ∧
    expand tokens <+: later.foldl expandStep (expand tokens) :=
  ⟨detokeniseExpands tokens hint, lengthExpand tokens,
    (detokeniseExpands (tokens ++ later) hint).trans (congrArg Outcome.ok (expandAppend tokens later)),
    expandKeeps later (expand tokens)⟩

end Openpresser.Lz
