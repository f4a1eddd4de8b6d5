import Openpresser.BruteForce
import Openpresser.MiddleOut

/-! The two loops over the match finder as greedy parses. `tokenise` knows every earlier
position; the density scan only those it stopped at, and so sees less of what repeats. -/
namespace Openpresser.Lz
open HashChain (widen)

/-- At each position the match the finder prefers, or the byte itself where it prefers none. What
is known at the next one is up to `remember`, given the position and the bytes covered. -/
inductive Greedy (data : Bytes) (find : List Nat → Nat → Option (Nat × Nat))
    (remember : Nat → Nat → List Nat → List Nat) : List Nat → Nat → List Token → Prop where
  | stop {known : List Nat} : Greedy data find remember known data.length []
  | literal {known : List Nat} {pos : Nat} {b : UInt8} {rest : List Token} (byte : data[pos]? = some b)
      (unmatched : find known pos = none) (tail : Greedy data find remember (remember pos 1 known) (pos + 1) rest) :
      Greedy data find remember known pos (.literal b :: rest)
  | matched {known : List Nat} {pos : Nat} {dist len : UInt16} {rest : List Token} (more : pos < data.length)
      (found : find known pos = some (dist.toNat, len.toNat))
      (tail : Greedy data find remember (remember pos len.toNat known) (pos + len.toNat) rest) :
      Greedy data find remember known pos (.matched dist len :: rest)

def bestMatch (data : Bytes) (maxDepth : Nat) (known : List Nat) (pos : Nat) : Option (Nat × Nat) :=
  select data pos (near pos ((sameBucket data pos known).take (maxDepth - 1)))

def everything (pos covered : Nat) (_known : List Nat) : List Nat := earlier (pos + covered)

def stops (pos _covered : Nat) (known : List Nat) : List Nat := pos :: known

theorem widenInjective {a b : UInt16 × UInt16} (same : widen a = widen b) : a = b := by
  obtain ⟨first, second⟩ := Prod.mk.inj same
  exact Prod.ext (UInt16.toNat_inj.mp first) (UInt16.toNat_inj.mp second)

theorem greedyUnique {data : Bytes} {find : List Nat → Nat → Option (Nat × Nat)}
    {remember : Nat → Nat → List Nat → List Nat} {known : List Nat} {pos : Nat} {a b : List Token}
    (first : Greedy data find remember known pos a) (second : Greedy data find remember known pos b) : a = b := by
  induction first generalizing b with
  | stop =>
    cases second with
    | stop => rfl
    | literal byte unmatched tail => simp at byte
    | matched more found tail => exact absurd more (Nat.lt_irrefl _)
  | @literal known pos x rest byte unmatched tail ih =>
    cases second with
    | stop => simp at byte
    | literal byte' _ tail' => rw [Option.some.inj (byte.symm.trans byte'), ih tail']
    | matched more found tail' => simp [unmatched] at found
  | @matched known pos dist len rest more found tail ih =>
    cases second with
    | stop => exact absurd more (Nat.lt_irrefl _)
    | literal byte unmatched tail' => simp [found] at unmatched
    | @matched _ _ dist' len' _ more' found' tail' =>
      have same : widen (dist, len) = widen (dist', len') := Option.some.inj (found.symm.trans found')
      cases widenInjective same
      rw [ih tail']

theorem selectInside {data : Bytes} {pos dist len : Nat} {candidates : List Nat}
    (found : select data pos candidates = some (dist, len)) : minMatch ≤ len ∧ pos + len ≤ data.length := by
  obtain ⟨picked, long⟩ := Option.filter_eq_some_iff.mp found
  obtain ⟨p, _, same⟩ := Option.map_eq_some_iff.mp picked
  have short := Lz77.commonShort (data.drop pos) (data.drop p)
  have reach : len ≤ Lz77.common (data.drop pos) (data.drop p) := by
    rw [← (Prod.mk.inj same).2]
    exact Nat.min_le_right _ _
  have four : minMatch = 4 := rfl
  simp only [decide_eq_true_eq] at long
  rw [List.length_drop] at short
  omega

/-! `tokenise`. -/
theorem turnFinds {data : Bytes} {maxDepth : Nat} (small : data.length < 2 ^ 32 - 1) {chain inserted : HashChain}
    {pos : Nat} (head : LoopHead data maxDepth chain pos) (more : pos < data.length)
    (insert : chain.insert data pos = .ok inserted) {found : Option (UInt16 × UInt16)}
    (search : inserted.findLongestMatchForward data pos = .ok found) :
    found.map widen = bruteForce data maxDepth pos := by
  obtain ⟨inserted', found', insert', search', same⟩ := headFinds small head more
  cases Outcome.ok.inj (insert.symm.trans insert')
  cases Outcome.ok.inj (search.symm.trans search')
  exact same

theorem runGreedy {data : Bytes} {maxDepth : Nat} (small : data.length < 2 ^ 32 - 1) {tokens : List Token} {pos : Nat}
    (parse : Parse data pos tokens) {fuel : Nat} {chain : HashChain} (head : LoopHead data maxDepth chain pos)
    (run : tokeniseFrom data fuel chain pos = .ok tokens) :
    Greedy data (bestMatch data maxDepth) everything (earlier pos) pos tokens := by
  induction parse generalizing fuel chain with
  | stop => exact .stop
  | @literal pos b rest byte tail ih =>
    obtain ⟨inserted, after, fuel', more, insert, search, next, onward⟩ := tokeniseTurn head run
    exact .literal byte (turnFinds small head more insert search).symm (ih next onward)
  | @matched pos dist len rest copy tail ih =>
    obtain ⟨inserted, after, fuel', more, insert, search, next, onward⟩ := tokeniseTurn head run
    exact .matched more (turnFinds small head more insert search).symm (ih next onward)

theorem greedyFinders {data : Bytes} {find find' : List Nat → Nat → Option (Nat × Nat)} {known : List Nat} {pos : Nat}
    {tokens : List Token} (same : ∀ p < data.length, find (earlier p) p = find' (earlier p) p)
    (here : known = earlier pos) (greedy : Greedy data find everything known pos tokens) :
    Greedy data find' everything known pos tokens := by
  induction greedy with
  | stop => exact .stop
  | @literal known pos b rest byte unmatched tail ih =>
    have more := (List.getElem?_eq_some_iff.mp byte).1
    subst here
    exact .literal byte (same pos more ▸ unmatched) (ih rfl)
  | @matched known pos dist len rest more found tail ih =>
    subst here
    exact .matched more (same pos more ▸ found) (ih rfl)

theorem tokeniseFinder {data : Bytes} {maxDepth : Nat} (small : data.length < 2 ^ 32 - 1)
    (find : List Nat → Nat → Option (Nat × Nat))
    (same : ∀ p < data.length, bestMatch data maxDepth (earlier p) p = find (earlier p) p) {tokens : List Token} :
    tokenise data maxDepth = .ok tokens ↔ Greedy data find everything [] 0 tokens := by
  obtain ⟨tokens', run, parse⟩ := tokeniseParses data maxDepth
  have parsed : Greedy data find everything [] 0 tokens' := greedyFinders same rfl (runGreedy small parse .start run)
  rw [run]
  exact ⟨fun this => Outcome.ok.inj this ▸ parsed, fun other => congrArg _ (greedyUnique parsed other)⟩

/-- The tokens are those of the one greedy parse with the brute-force finder; with depth to
spare, of the one that looks at every earlier position. -/
theorem tokeniseGreedy (data : Bytes) (maxDepth : Nat) (small : data.length < 2 ^ 32 - 1) (tokens : List Token) :
    (tokenise data maxDepth = .ok tokens ↔
      Greedy data (fun _ pos => bruteForce data maxDepth pos) everything [] 0 tokens) ∧
    (data.length < maxDepth → (tokenise data maxDepth = .ok tokens ↔
      Greedy data (fun _ pos => exhaustive data pos) everything [] 0 tokens)) := by
  refine ⟨?_, fun deep => ?_⟩
  · exact tokeniseFinder small (fun _ pos => bruteForce data maxDepth pos) fun _ _ => rfl
  · exact tokeniseFinder small (fun _ pos => exhaustive data pos) fun _ more => deepEnough deep more

theorem tokeniseGreedySevens :
    (tokenise [7, 7, 7, 7, 7] 9 = .ok [.literal 7, .matched 1 4] ↔
      Greedy [7, 7, 7, 7, 7] (fun _ pos => bruteForce [7, 7, 7, 7, 7] 9 pos) everything [] 0
        [.literal 7, .matched 1 4]) ∧
    (([7, 7, 7, 7, 7] : Bytes).length < 9 → (tokenise [7, 7, 7, 7, 7] 9 = .ok [.literal 7, .matched 1 4] ↔
      Greedy [7, 7, 7, 7, 7] (fun _ pos => exhaustive [7, 7, 7, 7, 7] pos) everything [] 0
        [.literal 7, .matched 1 4])) :=
  tokeniseGreedy [7, 7, 7, 7, 7] 9 (by decide) [.literal 7, .matched 1 4]

end Openpresser.Lz

namespace Openpresser.MiddleOut
open Lz

def repeated : Token → Nat
  | .literal _ => 0
  | .matched _ length => length.toNat

theorem scoreFromGreedy {window : Bytes} (small : window.length < 2 ^ 32 - 1) (fuel score : Nat) {chain : HashChain}
    {known : List Nat} {pos : Nat} (chained : HashChain.Chained chain window known) (fresh : ∀ p ∈ known, p < pos)
    (depth : chain.maxDepth = scoreDepth) (inside : pos ≤ window.length) (enough : window.length < pos + fuel) :
    ∃ tokens, Greedy window (bestMatch window scoreDepth) stops known pos tokens ∧
      scoreFrom window fuel chain score pos = .ok (score + (tokens.map repeated).sum) := by
  induction fuel generalizing chain known pos score with
  | zero => omega
  | succ fuel ih =>
    unfold scoreFrom
    by_cases more : pos < window.length
    case neg =>
      have finished : pos = window.length := by omega
      exact ⟨[], finished ▸ .stop, if_neg more⟩
    obtain ⟨inserted, insert, onto, depth'⟩ := HashChain.insertChained small chained more fresh
    have searched := findSelects onto
    rw [depth', depth] at searched
    obtain ⟨found, search, same⟩ := HashChain.findKeeps searched
    have later (n : Nat) (positive : 1 ≤ n) : ∀ p ∈ pos :: known, p < pos + n := by
      intro p member
      rcases List.mem_cons.mp member with rfl | before
      · omega
      · have := fresh p before
        omega
    rw [if_pos more, insert, Outcome.okBind, search, Outcome.okBind]
    cases found with
    | none =>
      obtain ⟨tokens, greedy, run⟩ := ih score onto (later 1 (Nat.le_refl 1)) (depth'.trans depth) more (by omega)
      refine ⟨.literal window[pos] :: tokens, .literal (List.getElem?_eq_getElem more) same.symm greedy, run.trans ?_⟩
      rw [List.map_cons, List.sum_cons, repeated, Nat.zero_add]
    | some pair =>
      obtain ⟨dist, len⟩ := pair
      obtain ⟨long, reach⟩ : 4 ≤ len.toNat ∧ pos + len.toNat ≤ window.length := selectInside same.symm
      obtain ⟨tokens, greedy, run⟩ := ih (score + len.toNat) onto (later len.toNat (by omega)) (depth'.trans depth)
        reach (by omega)
      refine ⟨.matched dist len :: tokens, .matched more same.symm greedy, run.trans ?_⟩
      rw [List.map_cons, List.sum_cons, repeated, Nat.add_assoc]

theorem windowParse {window : Bytes} (small : window.length < 2 ^ 32 - 1) :
    ∃ tokens, Greedy window (bestMatch window scoreDepth) stops [] 0 tokens ∧
      scoreWindow window = .ok (tokens.map repeated).sum := by
  obtain ⟨tokens, greedy, run⟩ := scoreFromGreedy small (window.length + 1) 0 (HashChain.newChained window scoreDepth)
    (by simp) rfl (Nat.zero_le _) (by omega)
  exact ⟨tokens, greedy, by rw [scoreWindow, run, Nat.zero_add]⟩

theorem scoreWindowGreedy (window : Bytes) (small : window.length < 2 ^ 32 - 1) (score : Nat) :
    scoreWindow window = .ok score ↔
      ∃ tokens, Greedy window (bestMatch window scoreDepth) stops [] 0 tokens ∧ score = (tokens.map repeated).sum := by
  obtain ⟨tokens, greedy, run⟩ := windowParse small
  rw [run]
  constructor
  · intro same
    exact ⟨tokens, greedy, (Outcome.ok.inj same).symm⟩
  · rintro ⟨other, parse, rfl⟩
    rw [greedyUnique greedy parse]

theorem scoreWindowGreedySevens : scoreWindow [7, 7, 7, 7, 7] = .ok 4 ↔
    ∃ tokens, Greedy [7, 7, 7, 7, 7] (bestMatch [7, 7, 7, 7, 7] scoreDepth) stops [] 0 tokens ∧
      4 = (tokens.map repeated).sum :=
  scoreWindowGreedy [7, 7, 7, 7, 7] (by decide) 4

end Openpresser.MiddleOut
