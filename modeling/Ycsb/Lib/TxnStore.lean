import Mathlib.Logic.Function.Basic
import Ycsb.Lib.OrdMap

/-!
# Stores with transactions

The calls of a store on behalf of a transaction, and programs that make them.
`Isolated` says what the store promises: a transaction sees what was committed when
it began and what it wrote itself, a commit publishes that as a whole, and one
write transaction is live at a time.
-/

namespace Lib

/-- The calls on a transaction, which has one cursor at most. -/
inductive TxnOp (κ ν : Type) where
  | get (k : κ)
  | put (k : κ) (v : ν)
  | del (k : κ)
  | cursorOpen
  | cursorSet (k : κ)
  | cursorNext
  | cursorClose

namespace TxnOp

variable {κ ν : Type}

def Writes : TxnOp κ ν → Prop
  | .put _ _ | .del _ => True
  | _ => False

/-- Whether there may be a cursor behind the call. -/
def Opens : TxnOp κ ν → Prop → Prop
  | .cursorOpen, _ | .cursorSet _, _ | .cursorNext, _ => True
  | .cursorClose, _ => False
  | _, opened => opened

/-- The calls that can fail for reasons other than the contents of the store. -/
def Fallible : TxnOp κ ν → Prop
  | .cursorNext | .cursorClose => False
  | _ => True

end TxnOp

/-- A call that fails returns a code; one that succeeds may yield a value. `begin` is `none` while a
write transaction has to wait. -/
structure TxnStore (κ ν ε : Type) where
  State : Type
  Txn : Type
  notFound : ε
  begin : State → Bool → Option (Except ε Txn × State)
  call : State → Txn → TxnOp κ ν → Except ε (Option ν) × State
  commit : State → Txn → Except ε Unit × State
  abort : State → Txn → State

/-! ## What a transaction sees -/

inductive CursorAt (κ ν : Type) where
  | closed
  | fresh
  | at (rest : List (κ × ν))

structure TxnView (κ : Type) [LinearOrder κ] (ν : Type) where
  map : OrdMap κ ν
  cursor : CursorAt κ ν

section
variable {κ : Type} [LinearOrder κ] {ν ε : Type}

namespace TxnView

/-- Where the next entry of the cursor is. -/
def following (v : TxnView κ ν) : List (κ × ν) :=
  match v.cursor with
  | .closed | .fresh => v.map.entries
  | .at rest => rest.tail

def found (notFound : ε) : Option ν → Except ε (Option ν)
  | none => .error notFound
  | some val => .ok (some val)

def call (notFound : ε) (v : TxnView κ ν) : TxnOp κ ν → Except ε (Option ν) × TxnView κ ν
  | .get k => (found notFound (v.map.get k), v)
  | .put k val => (.ok none, { v with map := v.map.put k val })
  | .del k => if (v.map.get k).isSome then (.ok none, { v with map := v.map.del k }) else (.error notFound, v)
  | .cursorOpen => (.ok none, { v with cursor := .fresh })
  | .cursorSet k =>
    (found notFound (v.map.get k), { v with cursor := if (v.map.get k).isSome then .at (v.map.seek k) else .fresh })
  | .cursorNext => (found notFound (v.following.head?.map Prod.snd), { v with cursor := .at v.following })
  | .cursorClose => (.ok none, { v with cursor := .closed })

theorem call_cursor {notFound : ε} {v : TxnView κ ν} {opened : Prop} (h : ¬ opened → v.cursor = .closed)
    (o : TxnOp κ ν) (ho : ¬ o.Opens opened) : (v.call notFound o).2.cursor = .closed := by
  cases o with
  | get k | put k val => exact h ho
  | del k =>
    simp only [call]
    split <;> exact h ho
  | cursorOpen | cursorSet k | cursorNext => exact absurd trivial ho
  | cursorClose => rfl

end TxnView

structure TxnAccess (κ : Type) [LinearOrder κ] (ν : Type) where
  readOnly : Bool
  view : TxnView κ ν

/-- Writes take a write transaction without an open cursor. -/
def TxnAccess.Allows (a : TxnAccess κ ν) (o : TxnOp κ ν) : Prop :=
  o.Writes → a.readOnly = false ∧ a.view.cursor = .closed

namespace TxnStore

/-- What the transactions of a store promise. A failed call leaves the other transactions and what was
committed alone. -/
structure Isolated (S : TxnStore κ ν ε) where
  committed : S.State → OrdMap κ ν
  live : S.State → S.Txn → Option (TxnAccess κ ν)
  begin_ok : ∀ {s r t s'}, S.begin s r = some (.ok t, s') → live s t = none ∧ committed s' = committed s ∧
    live s' t = some ⟨r, committed s, .closed⟩ ∧ ∀ t', t' ≠ t → live s' t' = live s t'
  begin_single : ∀ {s t s'}, S.begin s false = some (.ok t, s') → ∀ t' a, live s t' = some a → a.readOnly = true
  begin_error : ∀ {s r e s'}, S.begin s r = some (.error e, s') → committed s' = committed s ∧ live s' = live s
  call_frame : ∀ {s t a}, live s t = some a → ∀ o, a.Allows o → committed (S.call s t o).2 = committed s ∧
    ∀ t', t' ≠ t → live (S.call s t o).2 t' = live s t'
  call_eq : ∀ {s t a}, live s t = some a → ∀ o, a.Allows o →
    (S.call s t o).1 = (a.view.call S.notFound o).1 ∧
        live (S.call s t o).2 t = some { a with view := (a.view.call S.notFound o).2 } ∨
      o.Fallible ∧ ∃ e, e ≠ S.notFound ∧ (S.call s t o).1 = .error e
  commit_ok : ∀ {s t a s'}, live s t = some a → S.commit s t = (.ok (), s') →
    committed s' = (if a.readOnly then committed s else a.view.map) ∧ ∀ t', t' ≠ t → live s' t' = live s t'
  commit_error : ∀ {s t a e s'}, live s t = some a → S.commit s t = (.error e, s') →
    committed s' = committed s ∧ ∀ t', t' ≠ t → live s' t' = live s t'
  abort_eq : ∀ {s t a}, live s t = some a → committed (S.abort s t) = committed s ∧
    ∀ t', t' ≠ t → live (S.abort s t) t' = live s t'

end TxnStore

/-! ## Programs -/

/-- What is done in one transaction. `throw` leaves it as it is. -/
inductive TxnProg (κ ν ε χ β : Type) where
  | call (o : TxnOp κ ν) (k : Except ε (Option ν) → TxnProg κ ν ε χ β)
  | commit (reply : β) (failed : ε → χ)
  | abort (reply : β)
  | throw (x : χ)

structure TxnEnd (κ : Type) [LinearOrder κ] (ν β : Type) where
  commits : Bool
  reply : β
  map : OrdMap κ ν

namespace TxnProg

variable {χ β : Type}

/-- What the program does if no call fails for other reasons than the contents of the view. -/
def run (notFound : ε) : TxnProg κ ν ε χ β → TxnView κ ν → Except χ (TxnEnd κ ν β)
  | .call o k, v => (k (v.call notFound o).1).run notFound (v.call notFound o).2
  | .commit reply _, v => .ok ⟨true, reply, v.map⟩
  | .abort reply, v => .ok ⟨false, reply, v.map⟩
  | .throw x, _ => .error x

/-- Calls are made where they are allowed, and a call that fails for other reasons than the contents of
the store is the last. -/
def Careful (notFound : ε) (readOnly : Bool) : Prop → TxnProg κ ν ε χ β → Prop
  | opened, .call o k => (o.Writes → readOnly = false ∧ ¬ opened) ∧
      (o.Fallible → ∀ e, e ≠ notFound → ∃ x, k (.error e) = .throw x) ∧
      ∀ r, (k r).Careful notFound readOnly (o.Opens opened)
  | _, .commit _ _ | _, .abort _ | _, .throw _ => True

end TxnProg

/-! ## A store in memory -/

/-- The committed map, the transactions that are live, and which of them may write. -/
structure MapEnv (κ : Type) [LinearOrder κ] (ν : Type) where
  committed : OrdMap κ ν
  next : ℕ
  live : ℕ → Option (TxnAccess κ ν)
  writer : Option ℕ
  fresh : ∀ t, next ≤ t → live t = none
  single : ∀ t a, live t = some a → a.readOnly = false → writer = some t

namespace MapEnv

def start (m : OrdMap κ ν) : MapEnv κ ν where
  committed := m
  next := 0
  live _ := none
  writer := none
  fresh _ _ := rfl
  single _ _ h := by cases h

variable (s : MapEnv κ ν)

def begin (readOnly : Bool) (h : readOnly = false → s.writer = none) : MapEnv κ ν where
  committed := s.committed
  next := s.next + 1
  live := Function.update s.live s.next (some ⟨readOnly, s.committed, .closed⟩)
  writer := if readOnly then s.writer else some s.next
  fresh t ht := by
    rw [Function.update_of_ne (by omega)]
    exact s.fresh t (by omega)
  single t a ha hw := by
    by_cases ht : t = s.next
    · subst ht
      rw [Function.update_self, Option.some.injEq] at ha
      subst ha
      simp only at hw
      simp [hw]
    · rw [Function.update_of_ne ht] at ha
      have hmine := s.single t a ha hw
      cases readOnly with
      | true => exact hmine
      | false =>
        rw [h rfl] at hmine
        cases hmine

/-- The transaction goes on with another view. -/
def look (t : ℕ) (a : TxnAccess κ ν) (h : s.live t = some a) (view : TxnView κ ν) : MapEnv κ ν where
  committed := s.committed
  next := s.next
  live := Function.update s.live t (some { a with view })
  writer := s.writer
  fresh t' ht' := by
    have hne : t' ≠ t := by
      rintro rfl
      rw [s.fresh t' ht'] at h
      cases h
    rw [Function.update_of_ne hne]
    exact s.fresh t' ht'
  single t' a' ha' hw := by
    by_cases ht : t' = t
    · subst ht
      rw [Function.update_self, Option.some.injEq] at ha'
      subst ha'
      exact s.single t' a h hw
    · rw [Function.update_of_ne ht] at ha'
      exact s.single t' a' ha' hw

/-- The transaction ends. -/
def drop (t : ℕ) (m : OrdMap κ ν) : MapEnv κ ν where
  committed := m
  next := s.next
  live := Function.update s.live t none
  writer := if s.writer = some t then none else s.writer
  fresh t' ht' := by
    by_cases ht : t' = t
    · rw [ht, Function.update_self]
    · rw [Function.update_of_ne ht]
      exact s.fresh t' ht'
  single t' a ha hw := by
    by_cases ht : t' = t
    · rw [ht, Function.update_self] at ha
      cases ha
    · rw [Function.update_of_ne ht] at ha
      have hmine := s.single t' a ha hw
      rw [hmine, if_neg (by simpa using ht)]

end MapEnv

variable (κ ν) in
/-- Nothing fails but what is not found. -/
def MapEnv.store (notFound : ε) : TxnStore κ ν ε where
  State := MapEnv κ ν
  Txn := ℕ
  notFound := notFound
  begin s readOnly :=
    if h : readOnly = false → s.writer = none then some (.ok s.next, s.begin readOnly h) else none
  call s t o :=
    match h : s.live t with
    | none => (.error notFound, s)
    | some a => ((a.view.call notFound o).1, s.look t a h (a.view.call notFound o).2)
  commit s t :=
    match s.live t with
    | none => (.ok (), s)
    | some a => (.ok (), s.drop t (if a.readOnly then s.committed else a.view.map))
  abort s t := s.drop t s.committed

theorem MapEnv.call_eq {notFound : ε} {s : MapEnv κ ν} {t : ℕ} {a : TxnAccess κ ν} (h : s.live t = some a)
    (o : TxnOp κ ν) : (MapEnv.store κ ν notFound).call s t o =
      ((a.view.call notFound o).1, s.look t a h (a.view.call notFound o).2) := by
  simp only [store]
  split
  · rename_i hnone
    rw [h] at hnone
    cases hnone
  · rename_i b hb
    cases h.symm.trans hb
    rfl

theorem update_frame {μ : Type} (live : ℕ → μ) (t : ℕ) (x : μ) (t' : ℕ) (h : t' ≠ t) :
    Function.update live t x t' = live t' := Function.update_of_ne h x live

def MapEnv.isolated (notFound : ε) : (MapEnv.store κ ν notFound).Isolated where
  committed := MapEnv.committed
  live := MapEnv.live
  begin_ok {s r t s'} h := by
    simp only [store] at h
    split at h
    · cases h
      exact ⟨s.fresh _ le_rfl, rfl, Function.update_self (α := ℕ) .., update_frame _ _ _⟩
    · cases h
  begin_single {s t s'} h t' a ha := by
    simp only [store] at h
    split at h
    · rename_i hnone
      refine eq_true_of_ne_false fun hw => ?_
      have hmine := s.single t' a ha hw
      rw [hnone trivial] at hmine
      cases hmine
    · cases h
  begin_error {s r e s'} h := by
    simp only [store] at h
    split at h <;> cases h
  call_frame {s t a} h o _ := by
    rw [MapEnv.call_eq h]
    exact ⟨rfl, update_frame _ _ _⟩
  call_eq {s t a} h o _ := by
    rw [MapEnv.call_eq h]
    exact Or.inl ⟨rfl, Function.update_self (α := ℕ) ..⟩
  commit_ok {s t a s'} h hc := by
    simp only [store, h] at hc
    cases hc
    exact ⟨rfl, update_frame _ _ _⟩
  commit_error {s t a e s'} h hc := by
    simp only [store, h] at hc
    cases hc
  abort_eq _ := ⟨rfl, update_frame _ _ _⟩

end

end Lib
