import Openpresser.Tokenise

/-! `middle_out.rs`: the density scan, and the two halves it separates. -/
namespace Openpresser.MiddleOut
open Lz

def stride : Nat := 64
def windowSize : Nat := 512
def scoreDepth : Nat := 8

def scoreFrom (window : Bytes) : Nat → HashChain → Nat → Nat → Result Nat
  | 0, _, _, _ => .diverge
  | fuel+1, chain, score, pos =>
    if pos < window.length then do
      let chain ← chain.insert window pos
      match ← chain.findLongestMatchForward window pos with
      | some (_, l) => scoreFrom window fuel chain (score + l.toNat) (pos + l.toNat)
      | none => scoreFrom window fuel chain score (pos + 1)
    else .ok score

def scoreWindow (window : Bytes) : Result Nat :=
  scoreFrom window (window.length + 1) (HashChain.new window.length scoreDepth) 0 0

def considerCandidate (block : Bytes) (best : Nat × Nat) (candidate : Nat) : Result (Nat × Nat) := do
  let winStart := if candidate > windowSize / 2 then candidate - windowSize / 2 else 0
  let winEnd := min (candidate + windowSize / 2) block.length
  let window ← Outcome.slice block winStart winEnd
  let score ← scoreWindow window
  if score > best.1 then .ok (score, candidate) else .ok best

def candidates (b : Nat) : List Nat := List.range' 0 ((b + stride - 1) / stride) stride

def clamp (x lo hi : Nat) : Result Nat := do
  Outcome.assert (lo ≤ hi)
  .ok (if x < lo then lo else if x > hi then hi else x)

def findPivot (block : Bytes) : Result Nat :=
  let b := block.length
  if b ≤ minMatch * 2 then .ok (b / 2) else do
    let best ← (candidates b).foldlM (considerCandidate block) (0, b / 2)
    let lo := min minMatch b
    let hi := max (b - minMatch) lo
    clamp best.2 lo hi

def encodeBidirectional (block : Bytes) (maxDepth : Nat) : Result (Nat × List Token × List Token) := do
  let pivot ← findPivot block
  let left ← Outcome.slice block 0 pivot
  let leftTokens ← tokenise left maxDepth
  let right ← Outcome.slice block pivot block.length
  let rightTokens ← tokenise right maxDepth
  .ok (pivot, leftTokens, rightTokens)

def decodeBidirectional (pivot : Nat) (leftTokens rightTokens : List Token) (originalLen : Nat) :
    Result Bytes := do
  let left ← detokenise leftTokens pivot
  let room ← Outcome.sub originalLen pivot
  let right ← detokenise rightTokens room
  .ok (left ++ right)

theorem scoreFromReturns {window : Bytes} (fuel score : Nat) {chain : HashChain} {pos : Nat}
    (ordered : chain.Ordered window.length pos) (inside : pos ≤ window.length)
    (enough : window.length < pos + fuel) :
    ∃ total, scoreFrom window fuel chain score pos = .ok total ∧ score ≤ total ∧
      total + pos ≤ score + window.length := by
  induction fuel generalizing chain score pos with
  | zero => omega
  | succ fuel ih =>
    unfold scoreFrom
    by_cases more : pos < window.length
    case neg => exact ⟨score, if_neg more, Nat.le_refl _, by omega⟩
    obtain ⟨inserted, hi, onto, _⟩ := HashChain.insertOrdered pos ordered (Nat.le_refl pos) more
    obtain ⟨found, hf, real⟩ := HashChain.findReturns onto more
    rw [if_pos more, hi, Outcome.okBind, hf, Outcome.okBind]
    cases found with
    | none =>
      obtain ⟨total, ht, low, high⟩ := ih score onto more (by omega)
      exact ⟨total, ht, low, by omega⟩
    | some pair =>
      obtain ⟨dist, l⟩ := pair
      have copy := real dist l rfl
      have long : 4 ≤ l.toNat := copy.long
      obtain ⟨total, ht, low, high⟩ := ih (score + l.toNat)
        (HashChain.orderedHigher onto (by omega)) copy.repeats.inside (by omega)
      exact ⟨total, ht, by omega, by omega⟩

theorem scoreBounded (window : Bytes) : ∃ score, scoreWindow window = .ok score ∧ score ≤ window.length := by
  obtain ⟨score, found, _, bound⟩ := scoreFromReturns (window.length + 1) 0
    (HashChain.newOrdered window.length scoreDepth) (Nat.zero_le _) (by omega)
  exact ⟨score, found, by omega⟩

theorem candidateBelow {b candidate : Nat} (member : candidate ∈ candidates b) : candidate < b := by
  obtain ⟨i, below, rfl⟩ := List.mem_range'.mp member
  simp only [stride] at below ⊢
  omega

/-- The 512 bytes around `candidate`, cut at both ends of the block. -/
def windowAt (block : Bytes) (candidate : Nat) : Bytes := (block.take (candidate + 256)).drop (candidate - 256)

theorem considerScored {block : Bytes} {candidate score : Nat} (best : Nat × Nat) (below : candidate < block.length)
    (found : scoreWindow (windowAt block candidate) = .ok score) :
    considerCandidate block best candidate = .ok (if score > best.1 then (score, candidate) else best) := by
  have half : windowSize / 2 = 256 := rfl
  have start : (if candidate > 256 then candidate - 256 else 0) = candidate - 256 := by
    split <;> omega
  have order : candidate - 256 ≤ min (candidate + 256) block.length := by omega
  have cut : (block.drop (candidate - 256)).take (min (candidate + 256) block.length - (candidate - 256)) =
      windowAt block candidate := by
    rw [windowAt, List.drop_take, List.take_eq_take_iff, List.length_drop]
    omega
  simp only [considerCandidate, half, start, Outcome.sliceInside order (Nat.min_le_right _ _), cut,
    found, Outcome.okBind]
  exact (apply_ite (Outcome.ok (ε := EngineError)) (score > best.1) _ _).symm

theorem scanReturns (block : Bytes) (best : Nat × Nat) :
    ∃ last, (candidates block.length).foldlM (considerCandidate block) best = .ok last := by
  obtain ⟨last, run, _⟩ := Outcome.foldlMInvariant (ε := EngineError) (f := considerCandidate block)
    (I := fun _ _ => True) (candidates block.length) (b := best) trivial (by
      intro done candidate rest c split _
      have member : candidate ∈ candidates block.length := by rw [split]; simp
      obtain ⟨score, found, _⟩ := scoreBounded (windowAt block candidate)
      exact ⟨_, considerScored c (candidateBelow member) found, trivial⟩)
  exact ⟨last, run⟩

theorem pivotInside (block : Bytes) :
    ∃ pivot, findPivot block = .ok pivot ∧ pivot ≤ block.length ∧
      (9 ≤ block.length → 4 ≤ pivot ∧ pivot + 4 ≤ block.length) := by
  unfold findPivot
  have four : minMatch = 4 := rfl
  by_cases small : block.length ≤ minMatch * 2
  · exact ⟨block.length / 2, if_pos small, by omega, by omega⟩
  obtain ⟨last, scanned⟩ := scanReturns block (0, block.length / 2)
  have order : min minMatch block.length ≤ max (block.length - minMatch) (min minMatch block.length) :=
    Nat.le_max_right _ _
  simp only [if_neg small, scanned, Outcome.okBind, clamp, Outcome.assertPass order]
  refine ⟨_, rfl, ?_, ?_⟩
  · split
    · omega
    · split <;> omega
  · intro _
    split
    · omega
    · split <;> omega

theorem encodeParses (block : Bytes) (maxDepth : Nat) :
    ∃ pivot left right, encodeBidirectional block maxDepth = .ok (pivot, left, right) ∧
      pivot ≤ block.length ∧ Parse (block.take pivot) 0 left ∧ Parse (block.drop pivot) 0 right := by
  obtain ⟨pivot, found, inside, _⟩ := pivotInside block
  obtain ⟨left, hl, parseLeft⟩ := tokeniseParses (block.take pivot) maxDepth
  obtain ⟨right, hr, parseRight⟩ := tokeniseParses (block.drop pivot) maxDepth
  have front : (Outcome.slice block 0 pivot : Result Bytes) = .ok (block.take pivot) := by
    simpa using Outcome.sliceInside (ε := EngineError) (Nat.zero_le pivot) inside
  have back : (Outcome.slice block pivot block.length : Result Bytes) = .ok (block.drop pivot) := by
    rw [Outcome.sliceInside inside (Nat.le_refl _), List.take_of_length_le (by simp)]
  exact ⟨pivot, left, right, by
    rw [encodeBidirectional, found, Outcome.okBind, front, Outcome.okBind, hl, Outcome.okBind, back,
      Outcome.okBind, hr, Outcome.okBind], inside, parseLeft, parseRight⟩

theorem encodeSides {block : Bytes} {maxDepth pivot : Nat} {left right : List Token}
    (run : encodeBidirectional block maxDepth = .ok (pivot, left, right)) :
    findPivot block = .ok pivot ∧ tokenise (block.take pivot) maxDepth = .ok left ∧
      tokenise (block.drop pivot) maxDepth = .ok right := by
  simp only [encodeBidirectional, Outcome.bindOk] at run
  obtain ⟨_, found, front, sliced, _, runLeft, back, sliced', _, runRight, last⟩ := run
  cases Outcome.ok.inj last
  have left := (Outcome.sliceOk.mp sliced).2
  have right := (Outcome.sliceOk.mp sliced').2
  rw [List.drop_zero, Nat.sub_zero] at left
  rw [List.take_of_length_le (by rw [List.length_drop])] at right
  exact ⟨found, left ▸ runLeft, right ▸ runRight⟩

theorem decodeSides {pivot declared : Nat} (inside : pivot ≤ declared) (left right : List Token) :
    ∃ front back, detokenise left pivot = .ok front ∧ detokenise right (declared - pivot) = .ok back ∧
      front.length = (left.map Token.span).sum ∧ back.length = (right.map Token.span).sum ∧
      decodeBidirectional pivot left right declared = .ok (front ++ back) := by
  obtain ⟨front, decodedLeft, lengthLeft⟩ := Lz.detokeniseLength left pivot
  obtain ⟨back, decodedRight, lengthRight⟩ := Lz.detokeniseLength right (declared - pivot)
  refine ⟨front, back, decodedLeft, decodedRight, lengthLeft, lengthRight, ?_⟩
  rw [decodeBidirectional, decodedLeft, Outcome.okBind, Outcome.subFits inside, Outcome.okBind, decodedRight,
    Outcome.okBind]

theorem decodeParses {block : Bytes} {pivot : Nat} {left right : List Token} (inside : pivot ≤ block.length)
    (parseLeft : Parse (block.take pivot) 0 left) (parseRight : Parse (block.drop pivot) 0 right) :
    decodeBidirectional pivot left right block.length = .ok block := by
  rw [decodeBidirectional, detokeniseParse parseLeft, Outcome.okBind, Outcome.subFits inside, Outcome.okBind,
    detokeniseParse parseRight, Outcome.okBind, List.take_append_drop]

end Openpresser.MiddleOut
