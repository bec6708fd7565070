import Ycsb.Client
import Ycsb.Lib.Bytes

/-!
# RPC endpoints

`RocksdbCli` and `SQLiteDB` share the code of `Init` and `Cleanup`. A `DB` object
owns an RPC object, made on the shared nexus with an id taken from a shared
counter. `Init` is atomic under the mutex; `Cleanup` does not take it.
-/

namespace Ycsb

open Lib

structure RpcObject where
  nexus : ℕ
  rpcId : Byte

/-- The static members and the objects of the threads. Nexuses are numbered in
the order they are made; `lastOut i` says that the `fetch_sub` of the `Cleanup`
that thread `i` is in returned 1. -/
structure Endpoints (T : ℕ) where
  nexus : Option ℕ
  made : ℕ
  deleted : List ℕ
  globalRpcId : Byte
  rpc : Fin T → Option RpcObject
  lastOut : Fin T → Bool

inductive EndpointAct where
  | init
  | op
  | deleteRpc
  | fetchSub
  | deleteNexus
  | resetNexus
  deriving DecidableEq

namespace Endpoints

variable {T : ℕ} (b : Endpoints T) (i : Fin T)

def static : Endpoints T := ⟨none, 0, [], 0, fun _ => none, fun _ => false⟩

def ensureNexus : ℕ × Endpoints T :=
  match b.nexus with
  | some n => (n, b)
  | none => (b.made, { b with nexus := some b.made, made := b.made + 1 })

def init : Endpoints T :=
  let rpcId := b.globalRpcId
  let (n, b) := ensureNexus { b with globalRpcId := b.globalRpcId + 1 }
  { b with rpc := Function.update b.rpc i (some ⟨n, rpcId⟩) }

def deleteRpc : Endpoints T := { b with rpc := Function.update b.rpc i none }

def fetchSub : Endpoints T :=
  { b with globalRpcId := b.globalRpcId - 1, lastOut := Function.update b.lastOut i (b.globalRpcId = 1) }

/-- The pointer keeps its value. -/
def deleteNexus : Endpoints T := if b.lastOut i then { b with deleted := b.deleted ++ b.nexus.toList } else b

def resetNexus : Endpoints T :=
  if b.lastOut i then { b with nexus := none, lastOut := Function.update b.lastOut i false } else b

def act (i : Fin T) (a : EndpointAct) (b : Endpoints T) : Endpoints T :=
  match a with
  | .init => b.init i
  | .op => b
  | .deleteRpc => b.deleteRpc i
  | .fetchSub => b.fetchSub i
  | .deleteNexus => b.deleteNexus i
  | .resetNexus => b.resetNexus i

end Endpoints

def endpointCode : DBCode EndpointAct := ⟨[.init], .op, [.deleteRpc, .fetchSub, .deleteNexus, .resetNexus]⟩

/-- `RocksdbCli` overrides it. -/
def RocksdbCli.reInitBeforeTransaction : Bool := true

/-- `SQLiteDB` does not. -/
def SQLiteDB.reInitBeforeTransaction : Bool := false

abbrev EndpointRun (T : ℕ) := Threads (Fin T) EndpointAct (Endpoints T)

namespace EndpointRun

variable {T : ℕ}

def start (reInit : Bool) (v : Invocation T) : EndpointRun T := .init (v.phases endpointCode reInit) .static

def step (s : EndpointRun T) (e : ThreadEvent (Fin T)) : Option (EndpointRun T) := Threads.step Endpoints.act s e

end EndpointRun

/-! ## Stages of a thread -/

/-- Where a thread is: its object is live from `Init` to `delete rpc_`, and counted
until `fetch_sub`. -/
inductive Stage where
  | idle
  | live
  | counted
  | released
  | resetting
  deriving DecidableEq

namespace Stage

def next : Stage → EndpointAct → Option Stage
  | .idle, .init => some .live
  | .live, .op => some .live
  | .live, .deleteRpc => some .counted
  | .counted, .fetchSub => some .released
  | .released, .deleteNexus => some .resetting
  | .resetting, .resetNexus => some .idle
  | _, _ => none

theorem next_cases {g g' : Stage} {a : EndpointAct} (h : g.next a = some g') :
    (g = .idle ∧ a = .init ∧ g' = .live) ∨ (g = .live ∧ a = .op ∧ g' = .live) ∨
      (g = .live ∧ a = .deleteRpc ∧ g' = .counted) ∨ (g = .counted ∧ a = .fetchSub ∧ g' = .released) ∨
      (g = .released ∧ a = .deleteNexus ∧ g' = .resetting) ∨ (g = .resetting ∧ a = .resetNexus ∧ g' = .idle) := by
  cases g <;> cases a <;> cases h <;> simp

theorem next_init {g g' : Stage} (h : g.next .init = some g') : g = .idle := by
  cases g <;> first | rfl | cases h

theorem released_run {l : List EndpointAct} (h : run next .released l = some .idle) :
    ∃ rest, l = .deleteNexus :: rest ∧ run next .resetting rest = some .idle := by
  cases l with
  | nil => cases h
  | cons a rest => cases a <;> first | exact ⟨rest, rfl, h⟩ | cases h

theorem resetting_run {l : List EndpointAct} (h : run next .resetting l = some .idle) :
    ∃ rest, l = .resetNexus :: rest := by
  cases l with
  | nil => cases h
  | cons a rest => cases a <;> first | exact ⟨rest, rfl⟩ | cases h

def Held (g : Stage) : Prop := g = .live ∨ g = .counted

def Leaving (g : Stage) : Prop := g = .released ∨ g = .resetting

theorem run_ops : ∀ n : ℕ, run next .live (List.replicate n .op) = some .live
  | 0 => rfl
  | n + 1 => run_ops n

theorem run_clientThread (n : ℕ) (initDb cleanupDb : Bool) :
    run next (if initDb then .idle else .live) (clientThread endpointCode n initDb cleanupDb) =
      some (if cleanupDb then .idle else .live) := by
  have hinit : run next (if initDb then .idle else .live) (if initDb then endpointCode.init else []) = some .live := by
    cases initDb <;> rfl
  have hcleanup : run next .live (if cleanupDb then endpointCode.cleanup else []) =
      some (if cleanupDb then .idle else .live) := by
    cases cleanupDb <;> rfl
  exact run_append_some next (run_append_some next hinit (run_ops n)) hcleanup

end Stage

end Ycsb
