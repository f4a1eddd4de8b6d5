import Mathlib.Data.List.Induction
import Openpresser.Tokenise

/-! The decoder against the textbook one. The code copies out of a window fixed when
the match starts; the reference looks back from an end that moves with every byte. -/
namespace Openpresser.Lz

def referenceStep (out : Bytes) : Token → Option Bytes
  | .literal b => some (out ++ [b])
  | .matched distance length => Lz77.copyBack distance.toNat length.toNat out

def referenceDecode (tokens : List Token) : Option Bytes := tokens.foldlM referenceStep []

/-- Every distance reaches a byte that the tokens before it have produced. -/
def Reaching (tokens : List Token) : Prop :=
  ∀ done distance length rest, tokens = done ++ .matched distance length :: rest →
    1 ≤ distance.toNat ∧ distance.toNat ≤ (done.map Token.span).sum

theorem emitReference (out : Bytes) (tok : Token)
    (reaching : ∀ distance length, tok = .matched distance length →
      1 ≤ distance.toNat ∧ distance.toNat ≤ out.length) :
    ∃ grown, emit out tok = .ok grown ∧ referenceStep out tok = some grown := by
  cases tok with
  | literal b => exact ⟨out ++ [b], rfl, rfl⟩
  | matched distance length =>
    obtain ⟨positive, inside⟩ := reaching distance length rfl
    have proper : ¬ (distance.toNat = 0 ∨ distance.toNat > out.length) := by omega
    refine ⟨out ++ Lz77.window out distance.toNat length.toNat, ?_, Lz77.copyBackWindow _ positive inside⟩
    simp only [emit, if_neg proper, Outcome.subFits inside, Outcome.okBind]
    exact copyWindowCopies _ positive inside

theorem detokeniseReference {tokens : List Token} (reaching : Reaching tokens) {out : Bytes}
    (run : tokens.foldlM emit [] = .ok out) : referenceDecode tokens = some out := by
  induction tokens using List.reverseRecOn generalizing out with
  | nil =>
    cases Outcome.ok.inj run
    rfl
  | append_singleton done tok ih =>
    rw [Outcome.foldlMAppend, Outcome.bindOk] at run
    obtain ⟨before, front, last⟩ := run
    rw [Outcome.foldlMCons, Outcome.bindOk] at last
    obtain ⟨after, step, stop⟩ := last
    cases Outcome.ok.inj stop
    have earlier : Reaching done := fun first distance length rest split =>
      reaching first distance length (rest ++ [tok]) (by rw [split, List.append_assoc, List.cons_append])
    obtain ⟨produced, decoded, length⟩ := detokeniseLength done 0
    cases Outcome.ok.inj (decoded.symm.trans front)
    obtain ⟨grown, code, reference⟩ := emitReference before tok fun distance len matched => by
      rw [length]
      exact reaching done distance len [] (by rw [matched])
    cases Outcome.ok.inj (code.symm.trans step)
    have known : done.foldlM referenceStep [] = some before := ih earlier front
    rw [referenceDecode, List.foldlM_append, known, Option.bind_eq_bind, Option.bind_some, List.foldlM_cons,
      reference]
    rfl

theorem detokeniseRefines (tokens : List Token) (hint : Nat) :
    ∃ out, detokenise tokens hint = .ok out ∧ out.length = (tokens.map Token.span).sum ∧
      (Reaching tokens → referenceDecode tokens = some out) := by
  obtain ⟨out, run, length⟩ := detokeniseLength tokens hint
  exact ⟨out, run, length, fun reaching => detokeniseReference reaching run⟩

theorem detokeniseRefinesOverlap :
    detokenise [.literal 1, .literal 2, .matched 2 5] 7 = .ok [1, 2, 1, 2, 1, 2, 1] ∧
    referenceDecode [.literal 1, .literal 2, .matched 2 5] = some [1, 2, 1, 2, 1, 2, 1] := by
  have code : detokenise [.literal 1, .literal 2, .matched 2 5] 7 = .ok [1, 2, 1, 2, 1, 2, 1] := by decide
  obtain ⟨out, run, _, same⟩ := detokeniseRefines [.literal 1, .literal 2, .matched 2 5] 7
  cases Outcome.ok.inj (run.symm.trans code)
  refine ⟨code, same ?_⟩
  intro done distance length rest split
  rcases done with _ | ⟨a, _ | ⟨b, _ | ⟨c, done⟩⟩⟩ <;> simp at split
  obtain ⟨rfl, rfl, ⟨rfl, rfl⟩, rfl⟩ := split
  decide

end Openpresser.Lz
