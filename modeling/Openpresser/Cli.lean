import Openpresser.ArchiveMeaning
import Openpresser.Weissman
import Mathlib.Logic.Function.Basic

/-! `main.rs`: the commands, run one after the other on one disk. Names reach a file by
way of the file system, so two names may reach the same one. What goes to the terminal is
left out and taken to be written; and `block_kb * 1024` stops the program where it
overflows, as it does with overflow checks on (without them it wraps). -/
namespace Openpresser.Cli
open Archive (compress decompress inspect verify)
open Block (Rayon)
open Weissman (Clock Rivals computeScore)

abbrev PathBuf := String

inductive Commands where
  | compress (input output : PathBuf) (blockKb depth : Nat) (noParallel : Bool)
  | decompress (input output : PathBuf)
  | bench (input : PathBuf) (iters : Nat)
  | score (input : PathBuf)
  | info (input : PathBuf)
  | verify (input : PathBuf)
  deriving DecidableEq, Repr

/-- What the system does to one command: whether the input can be read, what a write that
fails leaves of the file, and what the clock shows. -/
structure Fate where
  readable : Bool
  spoilt : Option (Option Bytes)
  clock : Clock

section
variable {File : Type} [DecidableEq File] (resolve : PathBuf → File)

abbrev Disk (File : Type) := File → Option Bytes

def read (fate : Fate) (disk : Disk File) (input : PathBuf) : Outcome String Bytes :=
  match fate.readable, disk (resolve input) with
  | true, some data => .ok data
  | _, _ => .err ("reading " ++ input)

def write (fate : Fate) (disk : Disk File) (output : PathBuf) (contents : Bytes) : Disk File × Outcome String Unit :=
  match fate.spoilt with
  | none => (Function.update disk (resolve output) (some contents), .ok ())
  | some left => (Function.update disk (resolve output) left, .err ("writing " ++ output))

def writeMade (fate : Fate) (disk : Disk File) (output : PathBuf) :
    Outcome String Bytes → Disk File × Outcome String Unit
  | .ok contents => write resolve fate disk output contents
  | .err text => (disk, .err text)
  | .panic => (disk, .panic)
  | .diverge => (disk, .diverge)

def compressed (rayon : Rayon) (fate : Fate) (disk : Disk File) (input : PathBuf) (blockKb depth : Nat)
    (parallel : Bool) : Outcome String Bytes := do
  let data ← read resolve fate disk input
  let blockSize ← Outcome.mul 64 blockKb 1024
  (compress rayon data ⟨blockSize, depth, parallel⟩).mapErr fun e => "compression failed: " ++ e.display

def decompressed (fate : Fate) (disk : Disk File) (input : PathBuf) : Outcome String Bytes := do
  let data ← read resolve fate disk input
  (decompress data).mapErr fun e => "decompression failed: " ++ e.display

def cmdCompress (rayon : Rayon) (fate : Fate) (disk : Disk File) (input output : PathBuf) (blockKb depth : Nat)
    (parallel : Bool) : Disk File × Outcome String Unit :=
  writeMade resolve fate disk output (compressed resolve rayon fate disk input blockKb depth parallel)

def cmdDecompress (fate : Fate) (disk : Disk File) (input output : PathBuf) : Disk File × Outcome String Unit :=
  writeMade resolve fate disk output (decompressed resolve fate disk input)

def cmdBench (rayon : Rayon) (rivals : Rivals) (fate : Fate) (disk : Disk File) (input : PathBuf) (iters : Nat) :
    Outcome String Unit := do
  let data ← read resolve fate disk input
  let _ws ← (computeScore rayon rivals fate.clock data iters).mapErr fun _ => "benchmarking"
  .ok ()

def cmdScore (rayon : Rayon) (rivals : Rivals) (fate : Fate) (disk : Disk File) (input : PathBuf) :
    Outcome String Unit := do
  let data ← read resolve fate disk input
  let _ws ← (computeScore rayon rivals fate.clock data 1).mapErr fun _ => "scoring"
  .ok ()

def cmdInfo (fate : Fate) (disk : Disk File) (input : PathBuf) : Outcome String Unit := do
  let data ← read resolve fate disk input
  let _info ← (inspect data).mapErr fun e => "not a valid PPMO archive: " ++ e.display
  .ok ()

def cmdVerify (fate : Fate) (disk : Disk File) (input : PathBuf) : Outcome String Unit := do
  let data ← read resolve fate disk input
  let _info ← (verify data).mapErr fun e => "integrity check failed: " ++ e.display
  .ok ()

def main (rayon : Rayon) (rivals : Rivals) (fate : Fate) (disk : Disk File) :
    Commands → Disk File × Outcome String Unit
  | .compress input output blockKb depth noParallel =>
    cmdCompress resolve rayon fate disk input output blockKb depth !noParallel
  | .decompress input output => cmdDecompress resolve fate disk input output
  | .bench input iters => (disk, cmdBench resolve rayon rivals fate disk input iters)
  | .score input => (disk, cmdScore resolve rayon rivals fate disk input)
  | .info input => (disk, cmdInfo resolve fate disk input)
  | .verify input => (disk, cmdVerify resolve fate disk input)

/-- The disk behind a session; a command that hangs is interrupted. -/
def session (rayon : Rayon) (rivals : Rivals) (disk : Disk File) (steps : List (Commands × Fate)) : Disk File :=
  steps.foldl (fun disk step => (main resolve rayon rivals step.2 disk step.1).1) disk

end

def Commands.input : Commands → PathBuf
  | .compress input _ _ _ _ => input
  | .decompress input _ => input
  | .bench input _ => input
  | .score input => input
  | .info input => input
  | .verify input => input

def Commands.output : Commands → Option PathBuf
  | .compress _ output _ _ _ => some output
  | .decompress _ output => some output
  | _ => none

end Openpresser.Cli
