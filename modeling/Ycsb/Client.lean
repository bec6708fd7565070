import Ycsb.Lib.Threads

/-!
# Client threads

`main` runs one or two phases, in each of which every thread runs `ClientThread`
on its own `DB` object. A phase ends when all its threads have returned.
-/

namespace Ycsb

open Lib

structure DBCode (α : Type) where
  init : List α
  op : α
  cleanup : List α

def clientThread {α : Type} (code : DBCode α) (numOps : ℕ) (initDb cleanupDb : Bool) : List α :=
  (if initDb then code.init else []) ++ List.replicate numOps code.op ++ (if cleanupDb then code.cleanup else [])

/-- What `main` is asked to do, and how many operations it gives to each thread. -/
structure Invocation (T : ℕ) where
  doLoad : Bool
  doTransaction : Bool
  loadOps : Fin T → ℕ
  runOps : Fin T → ℕ

namespace Invocation

variable {T : ℕ} {α : Type}

def phases (v : Invocation T) (code : DBCode α) (reInitBeforeTransaction : Bool) : List (Fin T → List α) :=
  (if v.doLoad then
    [fun i => clientThread code (v.loadOps i) true (!v.doTransaction || reInitBeforeTransaction)]
  else []) ++
  (if v.doTransaction then
    [fun i => clientThread code (v.runOps i) (!v.doLoad || reInitBeforeTransaction) true]
  else [])

/-- Every thread initialises before any thread cleans up: load then run, on the
same connection. -/
def InitFirst (v : Invocation T) (reInitBeforeTransaction : Bool) : Prop :=
  v.doLoad = v.doTransaction ∧ (reInitBeforeTransaction = true → v.doLoad = false)

variable {v : Invocation T} (code : DBCode α) {reInit : Bool}

theorem phases_initFirst (h : v.InitFirst reInit) : v.phases code reInit = [] ∨ v.phases code reInit =
    [fun i => clientThread code (v.loadOps i) true false, fun i => clientThread code (v.runOps i) false true] := by
  obtain ⟨doLoad, doTransaction, loadOps, runOps⟩ := v
  obtain ⟨rfl, hre⟩ : doLoad = doTransaction ∧ (reInit = true → doLoad = false) := h
  cases doLoad with
  | false => exact Or.inl rfl
  | true =>
    cases reInit with
    | false => exact Or.inr rfl
    | true => exact absurd (hre rfl) (by decide)

theorem phases_not_initFirst (h : ¬ v.InitFirst reInit) :
    ∃ (n : Fin T → ℕ) (ps : List (Fin T → List α)),
      v.phases code reInit = (fun i => clientThread code (n i) true true) :: ps := by
  obtain ⟨doLoad, doTransaction, loadOps, runOps⟩ := v
  cases doLoad <;> cases doTransaction
  · exact absurd ⟨rfl, fun _ => rfl⟩ h
  · exact ⟨runOps, _, rfl⟩
  · exact ⟨loadOps, _, rfl⟩
  · cases reInit with
    | false => exact absurd ⟨rfl, fun h => by cases h⟩ h
    | true => exact ⟨loadOps, _, rfl⟩

end Invocation

end Ycsb
