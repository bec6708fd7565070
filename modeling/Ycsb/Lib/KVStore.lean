import Ycsb.Lib.OrdMap

/-!
# Key-value stores

A store seen from outside: point reads and writes, and an iterator. `Ordered`
says that it behaves as an ordered map; programs over a store are proved
against that.
-/

namespace Lib

variable {κ ν σ ε : Type}

/-- The calls of a store. `entry` is `Valid()` together with `key()` and `value()`. -/
structure KVStore (κ ν : Type) where
  State : Type
  Iter : Type
  empty : State
  get : State → κ → Option ν
  put : State → κ → ν → State
  delete : State → κ → State
  seek : State → κ → Iter
  entry : Iter → Option (κ × ν)
  next : Iter → Iter

namespace KVStore

structure Ordered [LinearOrder κ] (S : KVStore κ ν) where
  abs : S.State → OrdMap κ ν
  rest : S.Iter → List (κ × ν)
  abs_empty : abs S.empty = OrdMap.empty
  get_eq : ∀ s k, S.get s k = (abs s).get k
  abs_put : ∀ s k v, abs (S.put s k v) = (abs s).put k v
  abs_delete : ∀ s k, abs (S.delete s k) = (abs s).del k
  rest_seek : ∀ s k, rest (S.seek s k) = (abs s).seek k
  entry_eq : ∀ it, S.entry it = (rest it).head?
  rest_next : ∀ it, rest (S.next it) = (rest it).tail

/-- `for (i = 0; it->Valid() && i < n; i++) { f; it->Next(); }` -/
def forEach (S : KVStore κ ν) (f : σ → κ × ν → Except ε σ) : ℕ → S.Iter → σ → Except ε σ
  | 0, _, s => .ok s
  | n + 1, it, s =>
    match S.entry it with
    | none => .ok s
    | some e => (f s e).bind fun s => forEach S f n (S.next it) s

theorem forEach_eq [LinearOrder κ] {S : KVStore κ ν} (hS : S.Ordered) (f : σ → κ × ν → Except ε σ) :
    ∀ (n : ℕ) (it : S.Iter) (s : σ), S.forEach f n it s = ((hS.rest it).take n).foldlM f s
  | 0, _, _ => by rw [List.take_zero]; rfl
  | n + 1, it, s => by
    rw [forEach, hS.entry_eq]
    have hnext := hS.rest_next it
    cases hr : hS.rest it with
    | nil => rfl
    | cons e l =>
      rw [hr, List.tail_cons] at hnext
      rw [List.head?_cons, List.take_succ_cons, List.foldlM_cons]
      simp only [forEach_eq hS f n, hnext]
      rfl

end KVStore

def OrdMap.store (κ ν : Type) [LinearOrder κ] : KVStore κ ν where
  State := OrdMap κ ν
  Iter := List (κ × ν)
  empty := OrdMap.empty
  get := OrdMap.get
  put := OrdMap.put
  delete := OrdMap.del
  seek := OrdMap.seek
  entry := List.head?
  next := List.tail

def OrdMap.storeOrdered (κ ν : Type) [LinearOrder κ] : (OrdMap.store κ ν).Ordered where
  abs := id
  rest := id
  abs_empty := rfl
  get_eq _ _ := rfl
  abs_put _ _ _ := rfl
  abs_delete _ _ := rfl
  rest_seek _ _ := rfl
  entry_eq _ := rfl
  rest_next _ := rfl

end Lib
