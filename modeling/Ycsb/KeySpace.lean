import Ycsb.Lib.Trans
import Ycsb.Workload

/-!
# The key numbers of a load and a transaction phase

`main` gives each client thread its share of the operations, waits for all of
them and starts the next phase. Between two accesses to shared state a thread
is at one of the places in `Pc`.
-/

namespace Ycsb

open Lib

def threadOps (totalOps numThreads i : ℕ) : ℕ :=
  if i < totalOps % numThreads then totalOps / numThreads + 1 else totalOps / numThreads

/-- `requestdistribution`; `newKeys` is `new_keys` of the zipfian case. -/
inductive RequestDistribution where
  | uniform
  | zipfian (newKeys : ℕ)
  | latest

/-- The properties behind key numbers, each read with `stoi`. -/
structure Settings where
  recordCount : ℕ
  insertStart : ℕ
  operationCount : ℕ
  requestDist : RequestDistribution
  recordCount_int : recordCount < 2 ^ 31
  insertStart_int : insertStart < 2 ^ 31
  operationCount_int : operationCount < 2 ^ 31

/-! ## Key choosers -/

inductive KeyChooser where
  | uniform (min max : ℕ)
  | scrambledZipfian (base numItems : ℕ)
  | skewedLatest

namespace KeyChooser

def kItemCount : ℕ := 10000000000

def ofDistribution (recordCount : ℕ) : RequestDistribution → KeyChooser
  | .uniform => .uniform 0 (recordCount - 1)
  | .zipfian newKeys => .scrambledZipfian 0 (recordCount + newKeys)
  | .latest => .skewedLatest

/-- What the random source can yield: an integer of the range, or a sample of the
zipfian generator below its number of items. `last` is the `Last()` of the
transaction sequence. -/
def Yields (last sample : ℕ) : KeyChooser → Prop
  | uniform min max => min ≤ sample ∧ sample ≤ max
  | scrambledZipfian _ _ => sample < kItemCount + 1
  | skewedLatest => sample < last

instance (last sample : ℕ) : (c : KeyChooser) → Decidable (c.Yields last sample)
  | uniform min max => inferInstanceAs (Decidable (min ≤ sample ∧ sample ≤ max))
  | scrambledZipfian _ _ => inferInstanceAs (Decidable (sample < kItemCount + 1))
  | skewedLatest => inferInstanceAs (Decidable (sample < last))

/-- `Next()`. `Last()` is virtual, so `basis_` of `SkewedLatestGenerator` gives the acknowledged limit. -/
def next (last sample : ℕ) : KeyChooser → ℕ
  | uniform _ _ => sample
  | scrambledZipfian base numItems => u64 (base + utils.fnvHash64 sample % numItems)
  | skewedLatest => last - sample

end KeyChooser

/-! ## Threads -/

inductive ClientPhase where
  | load
  | transaction
  deriving DecidableEq

/-- Where a thread is: between operations; after `Next()` of a key sequence; in
`DB::Insert`; before `Acknowledge`; in the loop of `NextTransactionKeyNum`, before
and after `key_chooser_->Next()`; in the calls on the chosen key. -/
inductive Pc where
  | idle
  | drawn (keyNum : ℕ)
  | inserting (keyNum : ℕ)
  | inserted (keyNum : ℕ)
  | choosing
  | chosen (keyNum : ℕ)
  | touching (keyNum : ℕ)
  deriving DecidableEq

/-- `built` are the key numbers of the inserts in the order of their calls of
`BuildKeyName`, `completed` those whose insert has returned. -/
structure Clients (T : ℕ) where
  phase : ClientPhase
  insertKeySequence : CounterGenerator
  transactionInsertKeySequence : AckState
  left : Fin T → ℕ
  pc : Fin T → Pc
  built : List (Fin T × ℕ)
  completed : Finset ℕ

inductive ClientEvent (T : ℕ) where
  | next (t : Fin T)
  | build (t : Fin T)
  | insert (t : Fin T)
  | acknowledge (t : Fin T)
  | choose (t : Fin T) (sample : ℕ)
  | check (t : Fin T)
  | touch (t : Fin T)
  | rdidx (t : Fin T)
  | join

namespace Clients

variable {T : ℕ} (cfg : Settings) (σ : Clients T)

def init : Clients T where
  phase := .load
  insertKeySequence := ⟨cfg.insertStart⟩
  transactionInsertKeySequence := .init cfg.recordCount
  left t := threadOps cfg.recordCount T t
  pc _ := .idle
  built := []
  completed := ∅

def Returned : Prop := ∀ t, σ.pc t = .idle ∧ σ.left t = 0

instance : Decidable σ.Returned := inferInstanceAs (Decidable (∀ t, σ.pc t = .idle ∧ σ.left t = 0))

def goto (t : Fin T) (pc : Pc) : Clients T := { σ with pc := Function.update σ.pc t pc }

def start (t : Fin T) (pc : Pc) : Clients T :=
  { σ with left := Function.update σ.left t (σ.left t - 1), pc := Function.update σ.pc t pc }

def Ready (t : Fin T) : Prop := σ.pc t = .idle ∧ 0 < σ.left t

instance (t : Fin T) : Decidable (σ.Ready t) := inferInstanceAs (Decidable (σ.pc t = .idle ∧ 0 < σ.left t))

def build (t : Fin T) : Option (Clients T) :=
  match σ.pc t with
  | .drawn keyNum => some { σ.goto t (.inserting keyNum) with built := σ.built ++ [(t, keyNum)] }
  | _ => none

def insert (t : Fin T) (pc : ℕ → Pc) : Option (Clients T) :=
  match σ.pc t with
  | .inserting keyNum => some { σ.goto t (pc keyNum) with completed := Insert.insert keyNum σ.completed }
  | _ => none

/-- `DoInsert`, and `main` between the phases. -/
def loadStep : ClientEvent T → Option (Clients T)
  | .next t =>
    if σ.Ready t then
      let (keyNum, insertKeySequence) := σ.insertKeySequence.next
      some { σ.start t (.drawn keyNum) with insertKeySequence }
    else none
  | .build t => σ.build t
  | .insert t => σ.insert t fun _ => .idle
  | .join =>
    if σ.Returned then some { σ with phase := .transaction, left := fun t => threadOps cfg.operationCount T t }
    else none
  | _ => none

def keyChooser : KeyChooser := .ofDistribution cfg.recordCount cfg.requestDist

/-- `DoTransaction`. `none` for `acknowledge` if `Acknowledge` throws. -/
def transactionStep : ClientEvent T → Option (Clients T)
  | .next t =>
    if σ.Ready t then
      let (keyNum, gen) := σ.transactionInsertKeySequence.gen.next
      some { σ.start t (.drawn keyNum) with
        transactionInsertKeySequence :=
          { σ.transactionInsertKeySequence with
            gen, handed := Insert.insert keyNum σ.transactionInsertKeySequence.handed } }
    else none
  | .build t => σ.build t
  | .insert t => σ.insert t .inserted
  | .acknowledge t =>
    match σ.pc t with
    | .inserted keyNum =>
      match σ.transactionInsertKeySequence.gen.acknowledge keyNum with
      | .ok gen =>
        some { σ.goto t .idle with
          transactionInsertKeySequence :=
            { σ.transactionInsertKeySequence with
              gen, acked := Insert.insert keyNum σ.transactionInsertKeySequence.acked } }
      | .error _ => none
    | _ => none
  | .choose t sample =>
    let last := σ.transactionInsertKeySequence.gen.last
    if (keyChooser cfg).Yields last sample then
      if σ.Ready t then some (σ.start t (.chosen ((keyChooser cfg).next last sample)))
      else if σ.pc t = .choosing then some (σ.goto t (.chosen ((keyChooser cfg).next last sample)))
      else none
    else none
  | .check t =>
    match σ.pc t with
    | .chosen keyNum =>
      some (σ.goto t (if σ.transactionInsertKeySequence.gen.last < keyNum then .choosing else .touching keyNum))
    | _ => none
  | .touch t =>
    match σ.pc t with
    | .touching _ => some (σ.goto t .idle)
    | _ => none
  | .rdidx t => if σ.Ready t then some (σ.start t .idle) else none
  | .join => none

def step (e : ClientEvent T) : Option (Clients T) :=
  match σ.phase with
  | .load => loadStep cfg σ e
  | .transaction => transactionStep cfg σ e

end Clients

end Ycsb
