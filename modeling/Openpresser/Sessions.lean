import Openpresser.Amplification
import Openpresser.Cli

/-! What is true of files after any number of commands, whatever the system does to each. -/
namespace Openpresser.Cli
open Archive (Image Means Roomy compress decompress verify)
open Block (Rayon)
open Chunks (count)
open Weissman (Rivals boundedCompresses sampleRivals gzipCompress scoreOk)

section
variable {File : Type} (resolve : PathBuf → File) (rayon : Rayon) (rivals : Rivals)

/-- The contents a command can leave in a file: an archive of its input, what its input means,
or what a failed write left. -/
inductive Writes (disk : Disk File) : Commands × Fate → File → Option Bytes → Prop where
  | compress {input output : PathBuf} {blockKb depth : Nat} {noParallel : Bool} {fate : Fate} {data a : Bytes}
      (found : disk (resolve input) = some data)
      (made : compress rayon data ⟨blockKb * 1024, depth, !noParallel⟩ = .ok a) (whole : fate.spoilt = none) :
      Writes disk (.compress input output blockKb depth noParallel, fate) (resolve output) (some a)
  | decompress {input output : PathBuf} {fate : Fate} {data out : Bytes} (found : disk (resolve input) = some data)
      (means : Means data out) (whole : fate.spoilt = none) :
      Writes disk (.decompress input output, fate) (resolve output) (some out)
  | spoilt {command : Commands} {output : PathBuf} {fate : Fate} {left : Option Bytes}
      (target : command.output = some output) (failed : fate.spoilt = some left) :
      Writes disk (command, fate) (resolve output) left

variable {resolve rayon rivals}

/-! One command. -/
theorem readOk {fate : Fate} {disk : Disk File} {input : PathBuf} {data : Bytes} :
    read resolve fate disk input = .ok data ↔ fate.readable = true ∧ disk (resolve input) = some data := by
  unfold read
  cases fate.readable <;> cases disk (resolve input) <;> simp

theorem decompressedOk {fate : Fate} {disk : Disk File} {input : PathBuf} {out : Bytes} :
    decompressed resolve fate disk input = .ok out ↔ fate.readable = true ∧
      ∃ data, disk (resolve input) = some data ∧ Means data out ∧ out.length ≤ isizeMax := by
  simp only [decompressed, Outcome.bindOk, Outcome.mapErrOk, readOk, Archive.decompressedMeans]
  constructor
  · rintro ⟨data, ⟨readable, found⟩, means⟩
    exact ⟨readable, data, found, means⟩
  · rintro ⟨readable, data, found, means⟩
    exact ⟨data, ⟨readable, found⟩, means⟩

theorem compressedOk {fate : Fate} {disk : Disk File} {input : PathBuf} {blockKb depth : Nat} {parallel : Bool}
    {a : Bytes} : compressed resolve rayon fate disk input blockKb depth parallel = .ok a ↔
      fate.readable = true ∧ blockKb * 1024 < 2 ^ 64 ∧ ∃ data, disk (resolve input) = some data ∧
        compress rayon data ⟨blockKb * 1024, depth, parallel⟩ = .ok a := by
  simp only [compressed, Outcome.bindOk, Outcome.mapErrOk, readOk, Outcome.mulOk]
  constructor
  · rintro ⟨data, ⟨readable, found⟩, blockSize, ⟨fits, rfl⟩, made⟩
    exact ⟨readable, fits, data, found, made⟩
  · rintro ⟨readable, fits, data, found, made⟩
    exact ⟨data, ⟨readable, found⟩, _, ⟨fits, rfl⟩, made⟩

theorem readMissing {fate : Fate} {disk : Disk File} {input : PathBuf}
    (missing : ¬ (fate.readable = true ∧ ∃ data, disk (resolve input) = some data)) :
    read resolve fate disk input = .err ("reading " ++ input) := by
  unfold read
  cases readable : fate.readable with
  | false => rfl
  | true =>
    cases found : disk (resolve input) with
    | none => rfl
    | some data => exact absurd ⟨readable, data, found⟩ missing

/-! The commands that write nothing. -/
theorem reportsOk {ε α : Type} {fate : Fate} {disk : Disk File} {input : PathBuf} {examine : Bytes → Outcome ε α}
    {text : ε → String} : (do
      let data ← read resolve fate disk input
      let _report ← (examine data).mapErr text
      .ok ()) = (.ok () : Outcome String Unit) ↔
      fate.readable = true ∧ ∃ data, disk (resolve input) = some data ∧ ∃ report, examine data = .ok report := by
  simp only [Outcome.bindOk, Outcome.mapErrOk, readOk]
  constructor
  · rintro ⟨data, ⟨readable, found⟩, report, examined, _⟩
    exact ⟨readable, data, found, report, examined⟩
  · rintro ⟨readable, data, found, report, examined⟩
    exact ⟨data, ⟨readable, found⟩, report, examined, trivial⟩

theorem infoOk {fate : Fate} {disk : Disk File} {input : PathBuf} :
    cmdInfo resolve fate disk input = .ok () ↔ fate.readable = true ∧
      ∃ data, disk (resolve input) = some data ∧ ∃ header directory rest, Image data header directory rest := by
  rw [cmdInfo, reportsOk]
  simp only [Archive.inspectedImage]

theorem verifyOk {fate : Fate} {disk : Disk File} {input : PathBuf} :
    cmdVerify resolve fate disk input = .ok () ↔
      fate.readable = true ∧ ∃ data, disk (resolve input) = some data ∧ ∃ out, Means data out := by
  rw [cmdVerify, reportsOk]
  simp only [Archive.verifiedMeans]

theorem benchOk {fate : Fate} {disk : Disk File} {input : PathBuf} {iters : Nat} :
    cmdBench resolve rayon rivals fate disk input iters = .ok () ↔
      fate.readable = true ∧ ∃ data, disk (resolve input) = some data ∧ ¬ 2 ^ 32 ∣ max iters 1 ∧
        (∃ g, gzipCompress rivals data = .ok g) ∧ ∃ z, rivals.encodeAll data 3 = .ok z := by
  rw [cmdBench, reportsOk]
  simp only [scoreOk]

theorem scoreCommandOk {fate : Fate} {disk : Disk File} {input : PathBuf} :
    cmdScore resolve rayon rivals fate disk input = .ok () ↔
      fate.readable = true ∧ ∃ data, disk (resolve input) = some data ∧
        (∃ g, gzipCompress rivals data = .ok g) ∧ ∃ z, rivals.encodeAll data 3 = .ok z := by
  have once : ¬ 2 ^ 32 ∣ max 1 1 := by decide
  rw [cmdScore, reportsOk]
  simp only [scoreOk, once, not_false_eq_true, true_and]

variable [DecidableEq File]

theorem writeMadeEnds {fate : Fate} {disk : Disk File} {output : PathBuf} {made : Outcome String Bytes} :
    (writeMade resolve fate disk output made).2 = .ok () ↔ (∃ bytes, made = .ok bytes) ∧ fate.spoilt = none := by
  cases made with
  | ok bytes =>
    unfold writeMade write
    cases fate.spoilt <;> simp
  | err text => simp [writeMade]
  | panic => simp [writeMade]
  | diverge => simp [writeMade]

variable (resolve) in
theorem writeMadeCases (fate : Fate) (disk : Disk File) (output : PathBuf) (made : Outcome String Bytes) :
    (writeMade resolve fate disk output made).1 = disk ∨ ∃ bytes, made = .ok bytes ∧
      (writeMade resolve fate disk output made).1 =
        Function.update disk (resolve output) (fate.spoilt.getD (some bytes)) ∧
      (fate.spoilt = none → (writeMade resolve fate disk output made).2 = .ok ()) := by
  cases made with
  | ok bytes =>
    refine .inr ⟨bytes, rfl, ?_⟩
    unfold writeMade write
    cases fate.spoilt <;> simp
  | err text => exact .inl rfl
  | panic => exact .inl rfl
  | diverge => exact .inl rfl

theorem writeMadeOk {fate : Fate} {disk : Disk File} {output : PathBuf} {bytes : Bytes} (whole : fate.spoilt = none) :
    writeMade resolve fate disk output (.ok bytes) = (Function.update disk (resolve output) (some bytes), .ok ()) := by
  simp only [writeMade, write, whole]

variable (rayon rivals) in
theorem mainWrites (fate : Fate) (disk : Disk File) (command : Commands) :
    (main resolve rayon rivals fate disk command).1 = disk ∨
    ∃ file contents, Writes resolve rayon disk (command, fate) file contents ∧
      (main resolve rayon rivals fate disk command).1 = Function.update disk file contents ∧
      (fate.spoilt = none → (main resolve rayon rivals fate disk command).2 = .ok ()) := by
  cases command with
  | compress input output blockKb depth noParallel =>
    rcases writeMadeCases resolve fate disk output
      (compressed resolve rayon fate disk input blockKb depth !noParallel) with same | ⟨a, made, written, ends⟩
    · exact .inl same
    · refine .inr ⟨resolve output, fate.spoilt.getD (some a), ?_, written, ends⟩
      obtain ⟨_, _, data, found, run⟩ := compressedOk.mp made
      cases fails : fate.spoilt with
      | none => exact .compress found run fails
      | some left => exact .spoilt rfl fails
  | decompress input output =>
    rcases writeMadeCases resolve fate disk output (decompressed resolve fate disk input) with
      same | ⟨out, made, written, ends⟩
    · exact .inl same
    · refine .inr ⟨resolve output, fate.spoilt.getD (some out), ?_, written, ends⟩
      obtain ⟨_, data, found, means, _⟩ := decompressedOk.mp made
      cases fails : fate.spoilt with
      | none => exact .decompress found means fails
      | some left => exact .spoilt rfl fails
  | bench input iters => exact .inl rfl
  | score input => exact .inl rfl
  | info input => exact .inl rfl
  | verify input => exact .inl rfl

omit [DecidableEq File] in
theorem writesOutput {disk : Disk File} {step : Commands × Fate} {file : File} {contents : Option Bytes}
    (writes : Writes resolve rayon disk step file contents) :
    ∃ output, step.1.output = some output ∧ resolve output = file := by
  cases writes with
  | compress found made whole => exact ⟨_, rfl, rfl⟩
  | decompress found means whole => exact ⟨_, rfl, rfl⟩
  | spoilt target failed => exact ⟨_, target, rfl⟩

def Succeeds (rayon : Rayon) (rivals : Rivals) (data : Bytes) : Commands → Prop
  | .compress _ _ blockKb depth noParallel =>
    blockKb * 1024 < 2 ^ 64 ∧ ∃ a, compress rayon data ⟨blockKb * 1024, depth, !noParallel⟩ = .ok a
  | .decompress _ _ => ∃ out, Means data out ∧ out.length ≤ isizeMax
  | .bench _ iters => ¬ 2 ^ 32 ∣ max iters 1 ∧
    (∃ g, gzipCompress rivals data = .ok g) ∧ ∃ z, rivals.encodeAll data 3 = .ok z
  | .score _ => (∃ g, gzipCompress rivals data = .ok g) ∧ ∃ z, rivals.encodeAll data 3 = .ok z
  | .info _ => ∃ header directory rest, Image data header directory rest
  | .verify _ => ∃ out, Means data out

variable (resolve rayon rivals) in
/-- When a command ends well, and how it ends when there is nothing to read. -/
theorem mainEnds (fate : Fate) (disk : Disk File) (command : Commands) :
    ((main resolve rayon rivals fate disk command).2 = .ok () ↔ fate.readable = true ∧
      (∃ data, disk (resolve command.input) = some data ∧ Succeeds rayon rivals data command) ∧
      (fate.spoilt = none ∨ command.output = none)) ∧
    (¬ (fate.readable = true ∧ ∃ data, disk (resolve command.input) = some data) →
      main resolve rayon rivals fate disk command = (disk, .err ("reading " ++ command.input))) ∧
    ∀ data input output blockKb depth noParallel, 1 ≤ blockKb → blockKb ≤ 2 ^ 21 →
      Succeeds rayon rivals data (.compress input output blockKb depth noParallel) := by
  refine ⟨?_, fun missing => ?_, fun data input output blockKb depth noParallel positive bound => ?_⟩
  · have silent (reads : Prop) : (fate.readable = true ∧ reads) ↔
        fate.readable = true ∧ reads ∧ (fate.spoilt = none ∨ (none : Option PathBuf) = none) := by simp
    cases command with
    | compress input output blockKb depth noParallel =>
      rw [main, cmdCompress, writeMadeEnds]
      simp only [compressedOk, Commands.input, Commands.output, Succeeds, reduceCtorEq, or_false]
      constructor
      · rintro ⟨⟨a, readable, fits, data, found, made⟩, whole⟩
        exact ⟨readable, ⟨data, found, fits, a, made⟩, whole⟩
      · rintro ⟨readable, ⟨data, found, fits, a, made⟩, whole⟩
        exact ⟨⟨a, readable, fits, data, found, made⟩, whole⟩
    | decompress input output =>
      rw [main, cmdDecompress, writeMadeEnds]
      simp only [decompressedOk, Commands.input, Commands.output, Succeeds, reduceCtorEq, or_false]
      constructor
      · rintro ⟨⟨out, readable, data, found, means⟩, whole⟩
        exact ⟨readable, ⟨data, found, out, means⟩, whole⟩
      · rintro ⟨readable, ⟨data, found, out, means⟩, whole⟩
        exact ⟨⟨out, readable, data, found, means⟩, whole⟩
    | bench input iters => exact benchOk.trans (silent _)
    | score input => exact scoreCommandOk.trans (silent _)
    | info input => exact infoOk.trans (silent _)
    | verify input => exact verifyOk.trans (silent _)
  · have unread : read resolve fate disk command.input = .err ("reading " ++ command.input) := readMissing missing
    -- every command reads first
    cases command <;> simp only [Commands.input] at unread ⊢ <;>
      simp only [main, cmdCompress, cmdDecompress, cmdBench, cmdScore, cmdInfo, cmdVerify, compressed, decompressed,
        unread, Outcome.errBind, writeMade]
  · have fits : blockKb * 1024 < 2 ^ 64 := by omega
    exact ⟨fits, boundedCompresses rayon data ⟨blockKb * 1024, depth, !noParallel⟩ (by simp only; omega)
      (by simp only; omega)⟩

/-! A session. -/
theorem sessionAppend (disk : Disk File) (earlier later : List (Commands × Fate)) :
    session resolve rayon rivals disk (earlier ++ later) =
      session resolve rayon rivals (session resolve rayon rivals disk earlier) later := List.foldl_append

variable (resolve rayon rivals)

/-- A file is as it was, or as the last command left it that wrote it; and a command that
does not end well writes nothing, unless it was the writing that failed. -/
theorem sessionOrigins (disk : Disk File) (steps : List (Commands × Fate)) (file : File) :
    session resolve rayon rivals disk steps file = disk file ∨
    ∃ earlier step later, steps = earlier ++ step :: later ∧
      Writes resolve rayon (session resolve rayon rivals disk earlier) step file
        (session resolve rayon rivals disk steps file) ∧
      (step.2.spoilt = none →
        (main resolve rayon rivals step.2 (session resolve rayon rivals disk earlier) step.1).2 = .ok ()) := by
  induction steps using List.reverseRecOn with
  | nil => exact .inl rfl
  | append_singleton steps step ih =>
    have last : session resolve rayon rivals disk (steps ++ [step]) =
        (main resolve rayon rivals step.2 (session resolve rayon rivals disk steps) step.1).1 :=
      sessionAppend disk steps [step]
    have kept (same : session resolve rayon rivals disk (steps ++ [step]) file =
        session resolve rayon rivals disk steps file) :
        session resolve rayon rivals disk (steps ++ [step]) file = disk file ∨
        ∃ earlier step' later, steps ++ [step] = earlier ++ step' :: later ∧
          Writes resolve rayon (session resolve rayon rivals disk earlier) step' file
            (session resolve rayon rivals disk (steps ++ [step]) file) ∧
          (step'.2.spoilt = none →
            (main resolve rayon rivals step'.2 (session resolve rayon rivals disk earlier) step'.1).2 = .ok ()) := by
      rw [same]
      rcases ih with start | ⟨earlier, step', later, rfl, writes, ends⟩
      · exact .inl start
      · exact .inr ⟨earlier, step', later ++ [step], by simp, writes, ends⟩
    rcases mainWrites rayon rivals step.2 (session resolve rayon rivals disk steps) step.1 with
      same | ⟨target, contents, writes, written, ends⟩
    · exact kept (by rw [last, same])
    · by_cases here : target = file
      · subst here
        exact .inr ⟨steps, step, [], rfl, by rw [last, written, Function.update_self]; exact writes, ends⟩
      · exact kept (by rw [last, written, Function.update_of_ne (Ne.symm here)])

def Spares (steps : List (Commands × Fate)) (file : File) : Prop :=
  ∀ step ∈ steps, ∀ output, step.1.output = some output → resolve output ≠ file

variable {resolve rayon rivals}

omit [DecidableEq File] in
theorem sparesOne {command : Commands} {fate : Fate} {file : File}
    (apart : ∀ output, command.output = some output → resolve output ≠ file) :
    Spares resolve [(command, fate)] file := by
  intro step member
  cases List.mem_singleton.mp member
  exact apart

theorem sessionSpares {disk : Disk File} {steps : List (Commands × Fate)} {file : File}
    (spares : Spares resolve steps file) : session resolve rayon rivals disk steps file = disk file := by
  induction steps generalizing disk with
  | nil => rfl
  | cons step steps ih =>
    have later : session resolve rayon rivals disk (step :: steps) file =
        (main resolve rayon rivals step.2 disk step.1).1 file :=
      ih fun step' member => spares step' (List.mem_cons_of_mem step member)
    refine later.trans ?_
    rcases mainWrites rayon rivals step.2 disk step.1 with same | ⟨target, contents, writes, written, _⟩
    · rw [same]
    · obtain ⟨output, names, reaches⟩ := writesOutput writes
      have apart := spares step List.mem_cons_self output names
      rw [written, Function.update_of_ne fun same => apart (reaches.trans same.symm)]

theorem decompressWrites {fate : Fate} {disk : Disk File} {archive target : PathBuf} {data out : Bytes}
    (readable : fate.readable = true) (whole : fate.spoilt = none) (found : disk (resolve archive) = some data)
    (means : Means data out) (small : out.length ≤ isizeMax) :
    main resolve rayon rivals fate disk (.decompress archive target) =
      (Function.update disk (resolve target) (some out), .ok ()) := by
  rw [main, cmdDecompress, decompressedOk.mpr ⟨readable, data, found, means, small⟩, writeMadeOk whole]

theorem compressWritten {fate : Fate} {disk : Disk File} {input output : PathBuf} {blockKb depth : Nat}
    {noParallel : Bool}
    (ends : (main resolve rayon rivals fate disk (.compress input output blockKb depth noParallel)).2 = .ok ()) :
    ∃ data a, disk (resolve input) = some data ∧ compress rayon data ⟨blockKb * 1024, depth, !noParallel⟩ = .ok a ∧
      (main resolve rayon rivals fate disk (.compress input output blockKb depth noParallel)).1 =
        Function.update disk (resolve output) (some a) := by
  rw [main, cmdCompress] at ends ⊢
  cases made : compressed resolve rayon fate disk input blockKb depth !noParallel with
  | ok a =>
    obtain ⟨_, _, data, found, run⟩ := compressedOk.mp made
    refine ⟨data, a, found, run, ?_⟩
    rw [made, writeMade, write] at ends
    rw [writeMade, write]
    cases fails : fate.spoilt with
    | none => rfl
    | some left =>
      rw [fails] at ends
      contradiction
  | err text => rw [made] at ends; contradiction
  | panic => rw [made] at ends; contradiction
  | diverge => rw [made] at ends; contradiction

theorem roomyMeans {data a : Bytes} {opts : Block.CompressOptions} (roomy : Roomy data opts)
    (run : compress rayon data opts = .ok a) : Means a data ∧ data.length ≤ isizeMax := by
  obtain ⟨compressed, run', pieces⟩ := Archive.compressRoomy rayon roomy
  cases Outcome.ok.inj (run.symm.trans run')
  exact Archive.decompressedMeans.mp (Archive.roomyDecompresses roomy pieces)

variable (resolve rayon rivals)

/-- An archive that was written keeps what it was made from until another command writes to its
file, whatever happens to all the others. -/
theorem sessionKeeps (disk : Disk File) (earlier later : List (Commands × Fate)) (input output : PathBuf)
    (blockKb depth : Nat) (noParallel : Bool) (fate : Fate) (positive : 1 ≤ blockKb) (bound : blockKb ≤ 2 ^ 21)
    (few : ∀ data, session resolve rayon rivals disk earlier (resolve input) = some data →
      count (blockKb * 1024) data.length < 2 ^ 32)
    (ends : (main resolve rayon rivals fate (session resolve rayon rivals disk earlier)
      (.compress input output blockKb depth noParallel)).2 = .ok ())
    (spares : Spares resolve later (resolve output)) :
    ∃ data, session resolve rayon rivals disk earlier (resolve input) = some data ∧
      ∀ after, after = session resolve rayon rivals disk
          (earlier ++ (.compress input output blockKb depth noParallel, fate) :: later) →
        ∀ fate', fate'.readable = true →
          (main resolve rayon rivals fate' after (.verify output)).2 = .ok () ∧
          (fate'.spoilt = none → ∀ target, main resolve rayon rivals fate' after (.decompress output target) =
            (Function.update after (resolve target) (some data), .ok ())) := by
  obtain ⟨data, a, found, run, written⟩ := compressWritten ends
  have roomy : Roomy data ⟨blockKb * 1024, depth, !noParallel⟩ :=
    ⟨by simp only; omega, by simp only; omega, few data found⟩
  obtain ⟨means, small⟩ := roomyMeans roomy run
  refine ⟨data, found, fun after same fate' readable => ?_⟩
  have kept : after (resolve output) = some a := by
    rw [same, sessionAppend]
    exact (sessionSpares spares).trans ((congrFun written _).trans (Function.update_self _ _ _))
  exact ⟨verifyOk.mpr ⟨readable, a, kept, data, means⟩,
    fun whole target => decompressWrites readable whole kept means small⟩

omit [DecidableEq File] in
theorem sessionKeepsOverwritten :
    let fate : Fate := ⟨true, none, ⟨1, 1, 1⟩⟩
    let disk : Disk PathBuf := Function.update (fun _ => none) "text" (some [7, 8, 9])
    let back : List (Commands × Fate) := [(.decompress "archive" "text", fate)]
    ∃ data, disk "text" = some data ∧
      ∀ after, after = session id Rayon.sequential sampleRivals disk
          ([] ++ (.compress "text" "archive" 1 32 false, fate) :: back) →
        ∀ fate', fate'.readable = true →
          (main id Rayon.sequential sampleRivals fate' after (.verify "archive")).2 = .ok () ∧
          (fate'.spoilt = none → ∀ target,
            main id Rayon.sequential sampleRivals fate' after (.decompress "archive" target) =
              (Function.update after target (some data), .ok ())) := by
  intro fate disk back
  have found : disk "text" = some [7, 8, 9] := Function.update_self _ _ _
  have roomy : Roomy [7, 8, 9] ⟨1 * 1024, 32, !false⟩ := ⟨by decide, by decide, by decide⟩
  obtain ⟨compressed, run, _⟩ := Archive.compressRoomy Rayon.sequential roomy
  refine sessionKeeps id Rayon.sequential sampleRivals disk [] back "text" "archive" 1 32 false fate (by decide)
    (by decide) ?_ ?_ ?_
  · intro data same
    cases Option.some.inj (found.symm.trans same)
    decide
  · have made : Cli.compressed id Rayon.sequential fate disk "text" 1 32 (!false) = .ok _ :=
      compressedOk.mpr ⟨rfl, by decide, _, found, run⟩
    exact congrArg Prod.snd ((congrArg (writeMade id fate disk "archive") made).trans (writeMadeOk rfl))
  · exact sparesOne (by simp [Commands.output])

theorem verifiedDecompresses (disk : Disk File) (earlier later : List (Commands × Fate)) (archive : PathBuf)
    (fate : Fate)
    (ends : (main resolve rayon rivals fate (session resolve rayon rivals disk earlier) (.verify archive)).2 = .ok ())
    (spares : Spares resolve later (resolve archive)) :
    ∃ data out, session resolve rayon rivals disk earlier (resolve archive) = some data ∧ Means data out ∧
      (data.length < 2 ^ 48 → ∀ fate' target, fate'.readable = true → fate'.spoilt = none →
        ∀ after, after = session resolve rayon rivals disk (earlier ++ (.verify archive, fate) :: later) →
        main resolve rayon rivals fate' after (.decompress archive target) =
          (Function.update after (resolve target) (some out), .ok ())) := by
  obtain ⟨_, data, found, out, means⟩ := verifyOk.mp ends
  refine ⟨data, out, found, means, fun file fate' target readable whole after same => ?_⟩
  have kept : after (resolve archive) = some data := by
    rw [same, sessionAppend]
    exact (sessionSpares spares).trans found
  have bounded := Archive.meansBounded means
  have limit : isizeMax = 2 ^ 63 - 1 := rfl
  exact decompressWrites readable whole kept means (by omega)

end

theorem payloadBounded (directory : List Format.BlockEntry) :
    Archive.payloadLength directory ≤ 2 ^ 32 * directory.length := by
  induction directory with
  | nil => exact Nat.zero_le _
  | cons entry directory ih =>
    have bound := entry.compressedLen.toNat_lt
    rw [Archive.payloadLength] at ih ⊢
    rw [List.map_cons, List.sum_cons, List.length_cons]
    omega

/-- Two blocks, decompressed before they are verified and compressed to another file behind that. -/
theorem verifiedDecompressesThree :
    let fate : Fate := ⟨true, none, ⟨1, 1, 1⟩⟩
    let earlier : List (Commands × Fate) := [(.decompress "archive" "text", fate)]
    let later : List (Commands × Fate) := [(.compress "text" "copy" 1 32 false, fate)]
    ∃ a, compress Rayon.sequential [7, 8, 9] ⟨2, 32, true⟩ = .ok a ∧
      ∀ fate' target, fate'.readable = true → fate'.spoilt = none →
        ∀ after, after = session id Rayon.sequential sampleRivals (Function.update (fun _ => none) "archive" (some a))
          (earlier ++ (.verify "archive", fate) :: later) →
        main id Rayon.sequential sampleRivals fate' after (.decompress "archive" target) =
          (Function.update after target (some [7, 8, 9]), .ok ()) := by
  intro fate earlier later
  obtain ⟨compressed, run, pieces⟩ := Archive.compressRoomy Rayon.sequential Archive.threeRoomy
  obtain ⟨means, fits⟩ := roomyMeans Archive.threeRoomy run
  have size := Archive.archiveLength Archive.threeRoomy pieces
  have bound := payloadBounded (Archive.entriesOf [7, 8, 9] ⟨2, 32, true⟩ compressed)
  have two : (Archive.entriesOf [7, 8, 9] ⟨2, 32, true⟩ compressed).length = 2 := Archive.piecesLength pieces
  generalize Archive.archiveOf [7, 8, 9] ⟨2, 32, true⟩ compressed = a at run means size
  have spares : Spares id earlier "archive" := sparesOne (by simp [Commands.output])
  have spares' : Spares id later "archive" := sparesOne (by simp [Commands.output])
  have found : session id Rayon.sequential sampleRivals (Function.update (fun _ => none) "archive" (some a)) earlier
      "archive" = some a := (sessionSpares spares).trans (Function.update_self _ _ _)
  obtain ⟨data, out, found', means', decodes⟩ := verifiedDecompresses id Rayon.sequential sampleRivals
    (Function.update (fun _ => none) "archive" (some a)) earlier later "archive" fate
    (verifyOk.mpr ⟨rfl, a, found, _, means⟩) spares'
  cases Option.some.inj (found.symm.trans found')
  have same : out = [7, 8, 9] := by
    have whole := Archive.decompressedMeans.mpr ⟨means, fits⟩
    have length := Archive.meansBounded means'
    have limit : isizeMax = 2 ^ 63 - 1 := rfl
    exact Outcome.ok.inj ((Archive.decompressedMeans.mpr ⟨means', by omega⟩).symm.trans whole)
  subst same
  exact ⟨a, run, decodes (by omega)⟩

end Openpresser.Cli
