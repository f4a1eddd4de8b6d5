import Openpresser.BlockRoundTrip
import Openpresser.BruteForce

/-! What the match finder promises the Huffman coder: every match has a symbol below
the end of block and a distance that reaches into what is already decoded. -/
namespace Openpresser.Block
open Lz.HashChain (findWide)
open Huffman (countToken eob symbolOf)
open Lz (HashChain LoopHead Parse Token detokenise detokeniseLength tokenise)
open MiddleOut (encodeBidirectional)

def covered (done : List Token) : Nat := (done.map Token.span).sum

theorem parseSplit {data : Bytes} {pos : Nat} {done rest : List Token} (parse : Parse data pos (done ++ rest)) :
    Parse data (pos + covered done) rest := by
  induction done generalizing pos with
  | nil => exact parse
  | cons tok done ih =>
    have step : covered (tok :: done) = tok.span + covered done := by
      rw [covered, List.map_cons, List.sum_cons, covered]
    rw [step, ← Nat.add_assoc]
    cases parse with
    | literal byte tail => exact ih tail
    | matched copy tail => exact ih tail

theorem parseCopy {data : Bytes} {pos : Nat} {rest : List Token} {distance length : UInt16}
    (parse : Parse data pos (.matched distance length :: rest)) :
    HashChain.IsMatch data pos distance.toNat length.toNat := by
  cases parse with
  | matched copy tail => exact copy

theorem parseMatch {data : Bytes} {done rest : List Token} {distance length : UInt16}
    (parse : Parse data 0 (done ++ .matched distance length :: rest)) :
    HashChain.IsMatch data (covered done) distance.toNat length.toNat := by
  have here := parseCopy (parseSplit parse)
  rwa [Nat.zero_add] at here

/-- A match behind `done`, and the search that found it with nothing cast. -/
structure ProperMatch (data : Bytes) (maxDepth : Nat) (done : List Token) (distance length : UInt16) : Prop where
  long : 4 ≤ length.toNat
  short : length.toNat ≤ 258
  positive : 1 ≤ distance.toNat
  near : distance.toNat ≤ 32768
  behind : distance.toNat ≤ covered done
  uncast : ∃ chain inserted, LoopHead data maxDepth chain (covered done) ∧
    chain.insert data (covered done) = .ok inserted ∧
    findWide inserted data (covered done) = .ok (some (distance.toNat, length.toNat))

theorem foundUncast {chain : HashChain} {data : Bytes} {pos : Nat} {distance length : UInt16}
    (search : chain.findLongestMatchForward data pos = .ok (some (distance, length))) :
    findWide chain data pos = .ok (some (distance.toNat, length.toNat)) := by
  rw [HashChain.findNarrows, Outcome.bindOk] at search
  obtain ⟨found, wide, cast⟩ := search
  obtain ⟨kept, same, widened⟩ := HashChain.findKeeps wide
  rw [HashChain.findNarrows, wide, Outcome.okBind, cast] at same
  cases Outcome.ok.inj same
  rw [wide, ← widened]
  rfl

theorem tokenisedMatch {data : Bytes} {maxDepth : Nat} {tokens done rest : List Token} {distance length : UInt16}
    (run : tokenise data maxDepth = .ok tokens) (parse : Parse data 0 tokens)
    (split : tokens = done ++ .matched distance length :: rest) : ProperMatch data maxDepth done distance length := by
  rw [split] at run parse
  have copy := parseMatch parse
  refine ⟨copy.long, copy.short, copy.repeats.positive, copy.near, copy.repeats.behind, ?_⟩
  obtain ⟨chain, inserted, head, _, insert, search⟩ := Lz.tokenTurns .start run
  rw [Nat.zero_add] at head insert search
  exact ⟨chain, inserted, head, insert, foundUncast search⟩

def Ordinary (stream : List Token) : Prop :=
  ∀ done distance length rest, stream = done ++ .matched distance length :: rest → ∀ hint, ∃ out,
    detokenise done hint = .ok out ∧ ¬ (distance.toNat = 0 ∨ distance.toNat > out.length)

theorem parseOrdinary {data : Bytes} {stream : List Token} (parse : Parse data 0 stream) : Ordinary stream := by
  intro done distance length rest split hint
  rw [split] at parse
  have copy := (parseMatch parse).repeats
  have positive := copy.positive
  have behind := copy.behind
  obtain ⟨out, decoded, size⟩ := detokeniseLength done hint
  rw [← covered] at size
  exact ⟨out, decoded, by omega⟩

theorem tokensInSymbolSpace :
    (∀ (data : Bytes) (maxDepth : Nat), ∃ tokens, tokenise data maxDepth = .ok tokens ∧
      ∀ done distance length rest, tokens = done ++ .matched distance length :: rest →
        ProperMatch data maxDepth done distance length) ∧
    (∀ (block : Bytes) (maxDepth : Nat), ∃ pivot left right,
      encodeBidirectional block maxDepth = .ok (pivot, left, right) ∧
      (∃ freqs, (left ++ right).foldlM countToken (Array.replicate (eob + 1) 0) = .ok freqs ∧
        freqs.size = eob + 1) ∧
      (∀ tok ∈ left ++ right, symbolOf tok < eob) ∧ Ordinary left ∧ Ordinary right) := by
  constructor
  · intro data maxDepth
    obtain ⟨tokens, run, parse⟩ := Lz.tokeniseParses data maxDepth
    exact ⟨tokens, run, fun done distance length rest split => tokenisedMatch run parse split⟩
  · intro block maxDepth
    obtain ⟨pivot, left, right, run, _, parseLeft, parseRight⟩ := MiddleOut.encodeParses block maxDepth
    have small := parsesSymbols parseLeft parseRight
    obtain ⟨freqs, count, counted⟩ := Huffman.countTokensCounted small
    exact ⟨pivot, left, right, run, ⟨freqs, count, counted.1⟩, small, parseOrdinary parseLeft,
      parseOrdinary parseRight⟩

end Openpresser.Block
