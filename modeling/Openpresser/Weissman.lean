import Openpresser.RoundTrip

/-! The `weissman` crate: the engine against two libraries, by size and by the clock. What
it prints is numbers; whether it gets there depends on neither. -/
namespace Openpresser.Weissman
open Archive (Roomy compress decompress)
open Block (CompressOptions Rayon)
open Chunks (count)

/-- `GzEncoder` and `zstd::encode_all`, which may refuse. -/
structure Rivals where
  gzEncoder : Bytes → Outcome String Bytes
  encodeAll : Bytes → Nat → Outcome String Bytes
  gzAnswers : ∀ data, (gzEncoder data).Returns
  zstdAnswers : ∀ data level, (encodeAll data level).Returns

/-- What the two make of the bytes 7, 8 and 9, whatever the input. -/
def sampleRivals : Rivals where
  gzEncoder _ := .ok [0x1f, 0x8b, 8, 0, 0, 0, 0, 0, 0, 0xff, 0x63, 0xe7, 0xe0, 4, 0, 0x3b, 0xfd, 0x0b, 0x4b, 3, 0, 0, 0]
  encodeAll _ _ := .ok [0x28, 0xb5, 0x2f, 0xfd, 0, 0x58, 0x19, 0, 0, 7, 8, 9]
  gzAnswers _ := trivial
  zstdAnswers _ _ := trivial

/-- What the clock shows for all the runs of one engine, in nanoseconds. -/
structure Clock where
  ppmo : Nat
  gzip : Nat
  zstd : Nat

structure BenchResult where
  name : String
  originalBytes : Nat
  compressedBytes : Nat
  ratio : Float
  speedMbs : Float

structure WeissmanScore where
  ppmo : BenchResult
  gzip : BenchResult
  zstd : BenchResult
  score : Float

def alpha : Float := 1.0

def weissman (r s rGzip sGzip : Float) : Float :=
  if rGzip == 0.0 || sGzip == 0.0 then 0.0 else alpha * (r / rGzip) * (Float.log (s / sGzip) + 1.0)

/-- The number of runs is cut to 32 bits before the time is divided by it. -/
def timeAverage (iters : Nat) (f : Outcome String Unit) (elapsed : Nat) : Outcome String Nat := do
  let n := max iters 1
  (List.range n).forM fun _ => f
  Outcome.div elapsed (n % 2 ^ 32)

def asSecsF64 (elapsed : Nat) : Float := Float.ofNat (elapsed / 10 ^ 9) + Float.ofNat (elapsed % 10 ^ 9) / 1000000000.0

def throughputMbs (bytes elapsed : Nat) : Float :=
  if elapsed = 0 then 1.0 / 0.0 else Float.ofNat bytes / 1048576.0 / asSecsF64 elapsed

def ratio (data compressed : Bytes) : Float :=
  if compressed = [] then 1.0 else Float.ofNat data.length / Float.ofNat compressed.length

def bench (name : String) (engine : Outcome String Bytes) (data : Bytes) (iters elapsed : Nat) :
    Outcome String BenchResult := do
  let compressed ← engine
  let average ← timeAverage iters (engine.unwrap >>= fun _ => .ok ()) elapsed
  .ok ⟨name, data.length, compressed.length, ratio data compressed, throughputMbs data.length average⟩

def benchPpmo (rayon : Rayon) (data : Bytes) (iters elapsed : Nat) : Outcome String BenchResult :=
  bench "PPMO" ((compress rayon data CompressOptions.default).mapErr EngineError.display) data iters elapsed

def gzipCompress (rivals : Rivals) (data : Bytes) : Outcome String Bytes := rivals.gzEncoder data

def benchGzip (rivals : Rivals) (data : Bytes) (iters elapsed : Nat) : Outcome String BenchResult :=
  bench "gzip" (gzipCompress rivals data) data iters elapsed

def benchZstd (rivals : Rivals) (data : Bytes) (iters elapsed : Nat) : Outcome String BenchResult :=
  bench "zstd" (rivals.encodeAll data 3) data iters elapsed

def computeScore (rayon : Rayon) (rivals : Rivals) (clock : Clock) (data : Bytes) (iters : Nat) :
    Outcome String WeissmanScore := do
  let ppmo ← (benchPpmo rayon data iters clock.ppmo).mapErr fun _ => "PPMO bench"
  let gzip ← (benchGzip rivals data iters clock.gzip).mapErr fun _ => "gzip bench"
  let zstd ← (benchZstd rivals data iters clock.zstd).mapErr fun _ => "zstd bench"
  .ok ⟨ppmo, gzip, zstd, weissman ppmo.ratio ppmo.speedMbs gzip.ratio gzip.speedMbs⟩

/-! One bench. -/
section
variable {name : String} {engine : Outcome String Bytes} {data : Bytes} {iters elapsed : Nat}

theorem averageRuns {a : Bytes} (made : engine = .ok a) :
    timeAverage iters (engine.unwrap >>= fun _ => .ok ()) elapsed = Outcome.div elapsed (max iters 1 % 2 ^ 32) := by
  have runs : (engine.unwrap >>= fun _ => .ok () : Outcome String Unit) = .ok () := by rw [made]; rfl
  rw [timeAverage, runs, Outcome.forMOk fun _ _ => rfl, Outcome.okBind]

theorem benchStops {a : Bytes} (made : engine = .ok a) (many : 2 ^ 32 ∣ max iters 1) :
    bench name engine data iters elapsed = .panic := by
  have average : timeAverage iters (engine.unwrap >>= fun _ => .ok ()) elapsed = .panic :=
    (averageRuns made).trans (Outcome.divZero (Nat.mod_eq_zero_of_dvd many))
  rw [bench, average, made, Outcome.okBind, Outcome.panicBind]

theorem benchRuns {a : Bytes} (made : engine = .ok a) (few : ¬ 2 ^ 32 ∣ max iters 1) :
    ∃ result, bench name engine data iters elapsed = .ok result := by
  have left : max iters 1 % 2 ^ 32 ≠ 0 := fun zero => few (Nat.dvd_of_mod_eq_zero zero)
  have average : timeAverage iters (engine.unwrap >>= fun _ => .ok ()) elapsed =
      .ok (elapsed / (max iters 1 % 2 ^ 32)) :=
    (averageRuns made).trans (Outcome.divFits left)
  rw [bench, average, made, Outcome.okBind, Outcome.okBind]
  exact ⟨_, rfl⟩

theorem benchReturns (returns : engine.Returns) (few : ¬ 2 ^ 32 ∣ max iters 1) :
    (bench name engine data iters elapsed).Returns := by
  cases made : engine with
  | ok a =>
    obtain ⟨result, run⟩ : ∃ result, bench name engine data iters elapsed = .ok result := benchRuns made few
    rw [← made, run]
    trivial
  | err e => trivial
  | panic =>
    rw [made] at returns
    exact absurd returns id
  | diverge =>
    rw [made] at returns
    exact absurd returns id

theorem benchMeasures {result : BenchResult} (run : bench name engine data iters elapsed = .ok result) :
    ¬ 2 ^ 32 ∣ max iters 1 ∧ result.originalBytes = data.length ∧
      ∃ a, engine = .ok a ∧ result.compressedBytes = a.length := by
  have parts := run
  simp only [bench, Outcome.bindOk] at parts
  obtain ⟨a, made, average, _, same⟩ := parts
  cases Outcome.ok.inj same
  refine ⟨fun many => ?_, rfl, a, made, rfl⟩
  rw [benchStops made many] at run
  contradiction

end

structure Measured (rivals : Rivals) (data archive : Bytes) (ws : WeissmanScore) : Prop where
  original : ws.ppmo.originalBytes = data.length ∧ ws.gzip.originalBytes = data.length ∧
    ws.zstd.originalBytes = data.length
  ppmo : ws.ppmo.compressedBytes = archive.length
  gzip : ∃ g, gzipCompress rivals data = .ok g ∧ ws.gzip.compressedBytes = g.length
  zstd : ∃ z, rivals.encodeAll data 3 = .ok z ∧ ws.zstd.compressedBytes = z.length

/-! The score. -/
theorem boundedCompresses (rayon : Rayon) (x : Bytes) (opts : CompressOptions) (positive : 1 ≤ opts.blockSize)
    (bound : opts.blockSize ≤ 2 ^ 31) : ∃ a, compress rayon x opts = .ok a := by
  obtain ⟨compressed, mapped, pieces⟩ := Outcome.mapMEach (f := fun b => Block.compressBlock b opts)
    (R := Archive.Piece opts) (Chunks.chunks opts.blockSize x) (by
      intro b member
      have small := Nat.le_trans (Chunks.chunksBounded x b member) bound
      obtain ⟨c, run, laidOut⟩ := Block.compressBlockFits b opts (by omega)
      exact ⟨c, run, run, laidOut⟩)
  exact ⟨_, Archive.compressPieces rayon (.inr positive) pieces mapped⟩

section
variable {rayon : Rayon} {rivals : Rivals} {clock : Clock} {data : Bytes} {iters : Nat}

theorem ppmoMade (rayon : Rayon) (data : Bytes) :
    ∃ a, (compress rayon data CompressOptions.default).mapErr EngineError.display = .ok a := by
  obtain ⟨a, run⟩ := boundedCompresses rayon data CompressOptions.default (by decide) (by decide)
  exact ⟨a, Outcome.mapErrOk.mpr run⟩

theorem scoreStops (many : 2 ^ 32 ∣ max iters 1) : computeScore rayon rivals clock data iters = .panic := by
  obtain ⟨a, made⟩ := ppmoMade rayon data
  rw [computeScore, benchPpmo, benchStops made many]
  rfl

theorem scoreReturns (few : ¬ 2 ^ 32 ∣ max iters 1) : (computeScore rayon rivals clock data iters).Returns := by
  obtain ⟨a, made⟩ := ppmoMade rayon data
  have ppmo : ((compress rayon data CompressOptions.default).mapErr EngineError.display).Returns := by
    rw [made]
    trivial
  refine Outcome.returnsBind (Outcome.mapErrReturns.mpr (benchReturns ppmo few)) fun _ => ?_
  refine Outcome.returnsBind (Outcome.mapErrReturns.mpr (benchReturns (rivals.gzAnswers data) few)) fun _ => ?_
  exact Outcome.returnsBind (Outcome.mapErrReturns.mpr (benchReturns (rivals.zstdAnswers data 3) few)) fun _ => trivial

theorem scoreMeasures {ws : WeissmanScore} (run : computeScore rayon rivals clock data iters = .ok ws) :
    ¬ 2 ^ 32 ∣ max iters 1 ∧ ∃ archive, compress rayon data CompressOptions.default = .ok archive ∧
      Measured rivals data archive ws := by
  simp only [computeScore, Outcome.bindOk, Outcome.mapErrOk] at run
  obtain ⟨ppmo, first, gzip, second, zstd, third, same⟩ := run
  cases Outcome.ok.inj same
  obtain ⟨few, ppmoOriginal, a, made, ppmoSize⟩ := benchMeasures first
  obtain ⟨_, gzipOriginal, g, packed, gzipSize⟩ := benchMeasures second
  obtain ⟨_, zstdOriginal, z, packed', zstdSize⟩ := benchMeasures third
  exact ⟨few, a, Outcome.mapErrOk.mp made, ⟨ppmoOriginal, gzipOriginal, zstdOriginal⟩, ppmoSize,
    ⟨g, packed, gzipSize⟩, ⟨z, packed', zstdSize⟩⟩

theorem scoreOk : (∃ ws, computeScore rayon rivals clock data iters = .ok ws) ↔
    ¬ 2 ^ 32 ∣ max iters 1 ∧ (∃ g, gzipCompress rivals data = .ok g) ∧ ∃ z, rivals.encodeAll data 3 = .ok z := by
  constructor
  · rintro ⟨ws, run⟩
    obtain ⟨few, _, _, measured⟩ := scoreMeasures run
    obtain ⟨g, packed, _⟩ := measured.gzip
    obtain ⟨z, packed', _⟩ := measured.zstd
    exact ⟨few, ⟨g, packed⟩, ⟨z, packed'⟩⟩
  · rintro ⟨few, ⟨g, packed⟩, ⟨z, packed'⟩⟩
    obtain ⟨a, made⟩ := ppmoMade rayon data
    obtain ⟨ppmo, first⟩ := benchRuns made few
    obtain ⟨gzip, second⟩ := benchRuns packed few
    obtain ⟨zstd, third⟩ := benchRuns packed' few
    rw [computeScore, benchPpmo, first, benchGzip, second, benchZstd, third]
    exact ⟨_, rfl⟩

end

/-- The engine never spoils a score. The rivals may refuse, and a number of runs that is zero in
32 bits stops the program behind the first of its benches. -/
theorem computeScoreEnds (rayon : Rayon) (rivals : Rivals) (clock : Clock) (data : Bytes) (iters : Nat)
    (few : count 65536 data.length < 2 ^ 32) :
    ∃ archive, compress rayon data CompressOptions.default = .ok archive ∧ decompress archive = .ok data ∧
      (computeScore rayon rivals clock data iters = .panic ↔ 2 ^ 32 ∣ max iters 1) ∧
      (¬ 2 ^ 32 ∣ max iters 1 →
        (computeScore rayon rivals clock data iters).Returns ∧
        ((∃ ws, computeScore rayon rivals clock data iters = .ok ws) ↔
          (∃ g, gzipCompress rivals data = .ok g) ∧ ∃ z, rivals.encodeAll data 3 = .ok z)) ∧
      ∀ ws, computeScore rayon rivals clock data iters = .ok ws → Measured rivals data archive ws := by
  have roomy : Roomy data CompressOptions.default := ⟨by decide, by decide, few⟩
  obtain ⟨compressed, run, pieces⟩ := Archive.compressRoomy rayon roomy
  refine ⟨_, run, Archive.roomyDecompresses roomy pieces, ⟨fun stopped => ?_, scoreStops⟩, fun odd => ?_, ?_⟩
  · by_contra odd
    have returns : (computeScore rayon rivals clock data iters).Returns := scoreReturns odd
    rw [stopped] at returns
    exact returns
  · exact ⟨scoreReturns odd, scoreOk.trans (and_iff_right odd)⟩
  · intro ws found
    obtain ⟨_, archive, run', measured⟩ := scoreMeasures found
    cases Outcome.ok.inj (run.symm.trans run')
    exact measured

theorem computeScoreEndsThree : ∃ archive ws, compress Rayon.sequential [7, 8, 9] CompressOptions.default = .ok archive ∧
    decompress archive = .ok [7, 8, 9] ∧
    computeScore Rayon.sequential sampleRivals ⟨900, 300, 400⟩ [7, 8, 9] 3 = .ok ws ∧
    Measured sampleRivals [7, 8, 9] archive ws ∧
    computeScore Rayon.sequential sampleRivals ⟨900, 300, 400⟩ [7, 8, 9] (2 ^ 32) = .panic := by
  obtain ⟨archive, run, back, _, ends, measured⟩ :=
    computeScoreEnds Rayon.sequential sampleRivals ⟨900, 300, 400⟩ [7, 8, 9] 3 (by decide)
  obtain ⟨ws, found⟩ := (ends (by decide)).2.mpr ⟨⟨_, rfl⟩, _, rfl⟩
  obtain ⟨_, _, _, stops, _⟩ :=
    computeScoreEnds Rayon.sequential sampleRivals ⟨900, 300, 400⟩ [7, 8, 9] (2 ^ 32) (by decide)
  exact ⟨archive, ws, run, back, found, measured ws found, stops.mpr (by decide)⟩

end Openpresser.Weissman
