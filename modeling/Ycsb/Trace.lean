import Ycsb.Lib.Bytes

/-!
# Trace replay

`PureInsertWorkload` takes its keys from trace files of fixed-length records.
`InsertThreadState` maps the files of one thread and reads them one after the other.
-/

namespace Ycsb

open Lib

/-- The contents of `run.w.1`, `run.w.2`, ..., as far as they exist. -/
abbrev TraceFiles := ℕ → Option Bytes

structure InsertThreadState where
  workloads : List Bytes
  curWorkload : Bytes
  workloadI : ℕ
  len : ℕ
  offset : ℕ

namespace InsertThreadState

def recordLength : ℕ := 27

def keyLength : ℕ := 24

def keyOffset : ℕ := 2

def fileNumber (i threadcount mythreadid : ℕ) : ℕ := i * threadcount + mythreadid + 1

/-- The file number is computed as an `int`. -/
def openFile (files : TraceFiles) (number : ℕ) : Option Bytes := if number < 2 ^ 31 then files number else none

/-- The loop of the constructor, `none` while it has not ended. `loadedOps` are the
32 bits of `loaded_ops`. Without the file, `status` is read uninitialised. -/
def load (files : TraceFiles) (threadcount mythreadid numOps : ℕ) :
    ℕ → ℕ → ℕ → List Bytes → ℕ → Option (Except Fault (List Bytes × ℕ))
  | 0, _, _, _, _ => none
  | fuel + 1, i, loadedOps, workloads, len =>
    if toInt loadedOps < numOps then
      match openFile files (fileNumber i threadcount mythreadid) with
      | none => some (.error .read)
      | some workload =>
        load files threadcount mythreadid numOps fuel (i + 1) ((loadedOps + workload.length / recordLength) % 2 ^ 32)
          (workloads ++ [workload]) workload.length
    else some (.ok (workloads, len))

def construct (files : TraceFiles) (threadcount mythreadid numOps fuel : ℕ) :
    Option (Except Fault InsertThreadState) :=
  (load files threadcount mythreadid numOps fuel 0 0 [] 0).map fun r => r.bind fun (workloads, len) =>
    match workloads with
    | [] => .error .read
    | workload :: _ => .ok { workloads, curWorkload := workload, workloadI := 0, len, offset := 0 }

variable (s : InsertThreadState)

def hasNextKey : Bool := decide (s.offset + recordLength ≤ s.len)

def nextWorkload : Except Fault InsertThreadState :=
  match s.workloads[s.workloadI + 1]? with
  | none => .error .read
  | some workload => .ok { s with workloadI := s.workloadI + 1, curWorkload := workload, offset := 0 }

def getNextKey : Except Fault (Bytes × InsertThreadState) := do
  let s ← if s.hasNextKey then pure s else s.nextWorkload
  let key ← readBytes s.curWorkload (s.offset + keyOffset) keyLength
  return (key, { s with offset := s.offset + recordLength })

def getKeys : ℕ → InsertThreadState → Except Fault (List Bytes × InsertThreadState)
  | 0, s => .ok ([], s)
  | n + 1, s => do
    let (key, s) ← s.getNextKey
    let (keys, s) ← getKeys n s
    return (key :: keys, s)

end InsertThreadState

def replay (files : TraceFiles) (threadcount mythreadid numOps fuel : ℕ) : Option (Except Fault (List Bytes)) :=
  (InsertThreadState.construct files threadcount mythreadid numOps fuel).map fun s =>
    s.bind fun s => (InsertThreadState.getKeys numOps s).map Prod.fst

end Ycsb
