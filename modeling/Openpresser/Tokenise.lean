import Openpresser.HashChain

/-! The greedy loop and its decoder. A token stream is judged by the data it
parses, position by position; only then does it decode to that data. -/
namespace Openpresser.Lz

/-- `tokens` covers `data` from `pos` to its end, every copy being a match there. -/
inductive Parse (data : Bytes) : Nat → List Token → Prop where
  | stop : Parse data data.length []
  | literal {pos : Nat} {b : UInt8} {rest : List Token} (byte : data[pos]? = some b)
      (tail : Parse data (pos + 1) rest) : Parse data pos (.literal b :: rest)
  | matched {pos : Nat} {dist len : UInt16} {rest : List Token}
      (copy : HashChain.IsMatch data pos dist.toNat len.toNat)
      (tail : Parse data (pos + len.toNat) rest) : Parse data pos (.matched dist len :: rest)

/-- What every insertion carries on to the next position holds behind the skipped ones. -/
theorem insertSkippedCarries {data : Bytes} {I : Nat → HashChain → Prop}
    (step : ∀ p < data.length, ∀ chain, I p chain → ∃ chain', chain.insert data p = .ok chain' ∧ I (p + 1) chain')
    {chain : HashChain} {pos len : Nat} (long : 1 ≤ len) (start : I (pos + 1) chain)
    (inside : pos + len ≤ data.length) :
    ∃ chain', insertSkipped data pos len chain = .ok chain' ∧ I (pos + len) chain' := by
  obtain ⟨chain', run, last⟩ := Outcome.foldlMInvariant (ε := EngineError)
    (f := fun (chain : HashChain) i =>
      if pos + i < data.length then chain.insert data (pos + i) else .ok chain)
    (I := fun done chain => I (pos + 1 + done.length) chain)
    (List.range' 1 (len - 1)) (b := chain) start (by
      intro done i rest c split inv
      have size := congrArg List.length split
      have place : i = 1 + done.length := by
        have nth := congrArg (fun xs : List Nat => xs[done.length]?) split
        simp at size nth
        rw [List.getElem?_range' (by omega)] at nth
        simpa using nth.symm
      simp at size
      have here : pos + 1 + done.length = pos + i := by omega
      obtain ⟨d, hd, next⟩ := step (pos + i) (by omega) c (here ▸ inv)
      refine ⟨d, by rw [if_pos (by omega)]; exact hd, ?_⟩
      have same : pos + 1 + (done ++ [i]).length = pos + i + 1 := by simp; omega
      rwa [same])
  refine ⟨chain', run, ?_⟩
  have same : pos + 1 + (List.range' 1 (len - 1)).length = pos + len := by simp; omega
  rwa [same] at last

theorem insertSkippedOrdered {chain : HashChain} {data : Bytes} {pos len : Nat} (long : 1 ≤ len)
    (ordered : chain.Ordered data.length (pos + 1)) (inside : pos + len ≤ data.length) :
    ∃ chain', insertSkipped data pos len chain = .ok chain' ∧ chain'.Ordered data.length (pos + len) := by
  refine insertSkippedCarries (I := fun p chain => chain.Ordered data.length p) ?_ long ordered inside
  intro p room chain ordered
  obtain ⟨chain', run, next, _⟩ := HashChain.insertOrdered p ordered (Nat.le_refl _) room
  exact ⟨chain', run, next⟩

theorem tokeniseFromParses {data : Bytes} (fuel : Nat) {chain : HashChain} {pos : Nat}
    (ordered : chain.Ordered data.length pos) (inside : pos ≤ data.length) (enough : data.length < pos + fuel) :
    ∃ tokens, tokeniseFrom data fuel chain pos = .ok tokens ∧ Parse data pos tokens := by
  induction fuel generalizing chain pos with
  | zero => omega
  | succ fuel ih =>
    unfold tokeniseFrom
    by_cases more : pos < data.length
    case neg =>
      have finished : pos = data.length := by omega
      exact ⟨[], if_neg more, finished ▸ Parse.stop⟩
    obtain ⟨inserted, hi, onto, _⟩ := HashChain.insertOrdered pos ordered (Nat.le_refl pos) more
    obtain ⟨found, hf, real⟩ := HashChain.findReturns onto more
    rw [if_pos more, hi, Outcome.okBind, hf, Outcome.okBind]
    cases found with
    | none =>
      obtain ⟨rest, hr, parse⟩ := ih onto more (by omega)
      exact ⟨.literal data[pos] :: rest, by simp [Outcome.getInside more, hr],
        .literal (List.getElem?_eq_getElem more) parse⟩
    | some pair =>
      obtain ⟨dist, len⟩ := pair
      have copy := real dist len rfl
      have reach := copy.repeats.inside
      have long : 4 ≤ len.toNat := copy.long
      obtain ⟨skipped, hs, beyond⟩ := insertSkippedOrdered (by omega) onto reach
      obtain ⟨rest, hr, parse⟩ := ih beyond reach (by omega)
      exact ⟨.matched dist len :: rest, by simp [hs, hr], .matched copy parse⟩

theorem tokeniseParses (data : Bytes) (maxDepth : Nat) :
    ∃ tokens, tokenise data maxDepth = .ok tokens ∧ Parse data 0 tokens :=
  tokeniseFromParses (data.length + 1) (HashChain.newOrdered data.length maxDepth) (Nat.zero_le _) (by omega)

theorem copyWindowCopies {out : Bytes} {dist : Nat} (len : Nat) (positive : 1 ≤ dist)
    (inside : dist ≤ out.length) :
    copyWindow (out.length - dist) dist len out = .ok (out ++ Lz77.window out dist len) := by
  induction len with
  | zero => simp [copyWindow, Lz77.window]
  | succ len ih =>
    have small : len % dist < dist := Nat.mod_lt len positive
    have slot : out.length - dist + len % dist < out.length := by omega
    have found : out[out.length - dist + len % dist]? = some out[out.length - dist + len % dist] :=
      List.getElem?_eq_getElem slot
    -- the byte is read from the buffer that has grown, at a place the growth did not move
    have kept : (out ++ Lz77.window out dist len)[out.length - dist + len % dist]? =
        some out[out.length - dist + len % dist] := by
      rw [List.getElem?_append_left slot, found]
    unfold copyWindow at ih ⊢
    rw [List.range_succ, Outcome.foldlMAppend, ih, Outcome.okBind, Lz77.windowSucc out dist len found,
      Outcome.foldlMCons, Outcome.remFits (by omega), Outcome.okBind, Outcome.getFound kept, Outcome.okBind,
      List.append_assoc]
    rfl

theorem emitMatch {data : Bytes} {pos : Nat} {dist len : UInt16}
    (copy : HashChain.IsMatch data pos dist.toNat len.toNat) :
    emit (data.take pos) (.matched dist len) = .ok (data.take (pos + len.toNat)) := by
  have positive := copy.repeats.positive
  have behind := copy.repeats.behind
  have reach := copy.repeats.inside
  have length : (data.take pos).length = pos := by simp; omega
  have proper : ¬ (dist.toNat = 0 ∨ dist.toNat > (data.take pos).length) := by omega
  have start : (Outcome.sub (data.take pos).length dist.toNat : Result Nat) =
      .ok ((data.take pos).length - dist.toNat) := Outcome.subFits (by omega)
  simp only [emit, if_neg proper, start, Outcome.okBind]
  rw [copyWindowCopies _ positive (by omega), Lz77.windowExtends copy.repeats]

theorem parseDecodes {data : Bytes} {pos : Nat} {tokens : List Token} (parse : Parse data pos tokens) :
    tokens.foldlM emit (data.take pos) = .ok data := by
  induction parse with
  | stop => simp
  | @literal pos b rest byte tail ih =>
    obtain ⟨inside, same⟩ := List.getElem?_eq_some_iff.mp byte
    rw [Outcome.foldlMCons]
    change (Outcome.ok (data.take pos ++ [b]) >>= fun out => rest.foldlM emit out) = _
    rw [Outcome.okBind, ← same, ← List.take_succ_eq_append_getElem inside]
    exact ih
  | @matched pos dist len rest copy tail ih =>
    rw [Outcome.foldlMCons, emitMatch copy, Outcome.okBind]
    exact ih

theorem detokeniseParse {data : Bytes} {tokens : List Token} (parse : Parse data 0 tokens) (hint : Nat) :
    detokenise tokens hint = .ok data := parseDecodes parse

theorem tokeniseInverse (data : Bytes) (maxDepth : Nat) :
    ∃ tokens, tokenise data maxDepth = .ok tokens ∧ ∀ hint, detokenise tokens hint = .ok data := by
  obtain ⟨tokens, run, parse⟩ := tokeniseParses data maxDepth
  exact ⟨tokens, run, detokeniseParse parse⟩

/-! Every token stream decodes, to as many bytes as its tokens say. -/
def Token.span : Token → Nat
  | .literal _ => 1
  | .matched _ length => length.toNat

def matchOf : Token → Option (UInt16 × UInt16)
  | .literal _ => none
  | .matched distance length => some (distance, length)

theorem copyDegenerateLength (out : Bytes) {safeDist : Nat} (len : Nat) (positive : 1 ≤ safeDist)
    (inside : safeDist ≤ max out.length 1) :
    ∃ out', copyDegenerate (out.length - safeDist) safeDist len out = .ok out' ∧
      out'.length = out.length + len := by
  refine Outcome.foldlMRange (I := fun i copied => List.length copied = out.length + i) len rfl ?_
  intro i _ copied length
  by_cases empty : copied = []
  · exact ⟨copied ++ [0], if_pos empty, by rw [List.length_append, length]; rfl⟩
  · have written := List.length_pos_iff.mpr empty
    have small : i % safeDist < safeDist := Nat.mod_lt i positive
    have slot : out.length - safeDist + i % safeDist < copied.length := by omega
    refine ⟨copied ++ [copied[out.length - safeDist + i % safeDist]], ?_, by
      rw [List.length_append, length]; rfl⟩
    simp only [if_neg empty, Outcome.remFits (by omega : safeDist ≠ 0), Outcome.okBind, Outcome.getInside slot]

theorem emitLength (out : Bytes) (tok : Token) :
    ∃ out', emit out tok = .ok out' ∧ out'.length = out.length + tok.span := by
  cases tok with
  | literal b => exact ⟨out ++ [b], rfl, by simp [Token.span]⟩
  | matched distance length =>
    by_cases degenerate : distance.toNat = 0 ∨ distance.toNat > out.length
    · simp only [emit, if_pos degenerate]
      exact copyDegenerateLength out length.toNat (by omega) (by omega)
    · have start : (Outcome.sub out.length distance.toNat : Result Nat) = .ok (out.length - distance.toNat) :=
        Outcome.subFits (by omega)
      simp only [emit, if_neg degenerate, start, Outcome.okBind]
      refine ⟨_, copyWindowCopies _ (by omega) (by omega), ?_⟩
      rw [List.length_append, Lz77.lengthWindow out _ (by omega) (by omega), Token.span]

theorem detokeniseLength (tokens : List Token) (hint : Nat) :
    ∃ out, detokenise tokens hint = .ok out ∧ out.length = (tokens.map Token.span).sum := by
  refine Outcome.foldlMInvariant (I := fun done out => List.length out = (done.map Token.span).sum) tokens rfl ?_
  intro done tok rest out split length
  obtain ⟨out', run, length'⟩ := emitLength out tok
  exact ⟨out', run, by rw [length', length, List.map_append, List.sum_append]; rfl⟩

end Openpresser.Lz
