import Ycsb.Lib.Bytes

/-!
# Loops that read items up to a limit

`while (p != lim && more) { assert(p < lim); read an item at p; use it }`. On a
buffer that holds encoded items the loop is a walk over the list of items, and
a loop without an early exit accepts nothing else.
-/

namespace Lib

/-- A reader of one item. It always moves the pointer. -/
structure Item (α : Type) where
  read : ℕ → Except Fault (α × ℕ)
  advance : ∀ {p a q}, read p = .ok (a, q) → p < q

section
variable {α σ : Type}

def readWhile (item : Item α) (lim : ℕ) (more : σ → Bool) (body : σ → α → σ) (p : ℕ) (s : σ) :
    Except Fault (σ × ℕ) :=
  if p = lim ∨ more s = false then .ok (s, p)
  else if lim < p then .error .assertion
  else
    match hread : item.read p with
    | .error e => .error e
    | .ok (a, q) =>
      have := item.advance hread
      readWhile item lim more body q (body s a)
termination_by lim - p

/-- The loop on a list of items: the state at its end, and the items not read. -/
def walk (more : σ → Bool) (body : σ → α → σ) : σ → List α → σ × List α
  | s, [] => (s, [])
  | s, a :: as => if more s then walk more body (body s a) as else (s, a :: as)

theorem walk_true (body : σ → α → σ) : ∀ (as : List α) (s : σ),
    walk (fun _ => true) body s as = (as.foldl body s, [])
  | [], _ => rfl
  | a :: as, s => by simp only [walk, ite_true, List.foldl_cons, walk_true body as]

theorem readWhile_step {item : Item α} {lim p q : ℕ} {more : σ → Bool} {body : σ → α → σ} {s : σ} {a : α}
    (hp : p < lim) (hm : more s = true) (hr : item.read p = .ok (a, q)) :
    readWhile item lim more body p s = readWhile item lim more body q (body s a) := by
  rw [readWhile, if_neg (by rw [hm]; simp; omega), if_neg (by omega)]
  split
  · rename_i e he; rw [hr] at he; cases he
  · rename_i a' q' he
    rw [hr, Except.ok.injEq, Prod.mk.injEq] at he
    rw [he.1, he.2]

/-! ## Encoded items -/

def encodeAll (enc : α → Bytes) (as : List α) : Bytes := (as.map enc).flatten

@[simp] theorem encodeAll_nil (enc : α → Bytes) : encodeAll enc [] = [] := rfl

@[simp] theorem encodeAll_cons (enc : α → Bytes) (a : α) (as : List α) :
    encodeAll enc (a :: as) = enc a ++ encodeAll enc as := rfl

theorem encodeAll_append (enc : α → Bytes) (as bs : List α) :
    encodeAll enc (as ++ bs) = encodeAll enc as ++ encodeAll enc bs := by
  simp only [encodeAll, List.map_append, List.flatten_append]

theorem foldlM_write {f : Bytes × ℕ → α → Except Fault (Bytes × ℕ)} {enc : α → Bytes} {base : ℕ}
    (hf : ∀ buf offset a, f (buf, offset) a =
      (write buf (base + offset) (enc a)).map fun buf => (buf, offset + (enc a).length)) :
    ∀ (as : List α) (buf : Bytes) (offset : ℕ), base + offset ≤ buf.length → as.foldlM f (buf, offset) =
      (write buf (base + offset) (encodeAll enc as)).map fun buf => (buf, offset + (encodeAll enc as).length)
  | [], buf, offset, h => by
    rw [encodeAll_nil, write_ok (by simpa using h)]
    simp [Except.map, pure, Except.pure]
  | a :: as, buf, offset, h => by
    rw [List.foldlM_cons, hf, encodeAll_cons, ← write_write, List.length_append]
    cases hw : write buf (base + offset) (enc a) with
    | error e => rfl
    | ok buf' =>
      have hle : base + (offset + (enc a).length) ≤ buf'.length := by
        rw [write_length hw]
        unfold write at hw
        split at hw
        · omega
        · cases hw
      simp only [Except.map, bind, Except.bind]
      rw [foldlM_write hf as buf' _ hle, ← Nat.add_assoc, ← Nat.add_assoc]
      rfl

/-- `item` reads back what `enc` wrote, for the item `a` and wherever it stands in `mem`. -/
def ReadsAt (item : Item α) (enc : α → Bytes) (mem : Bytes) (a : α) : Prop :=
  ∀ p t, mem.drop p = enc a ++ t → item.read p = .ok (a, p + (enc a).length)

variable {item : Item α} {enc : α → Bytes} {mem : Bytes} {more : σ → Bool} {body : σ → α → σ}

theorem readWhile_encode {lim : ℕ} {t : Bytes} : ∀ (as : List α) (p : ℕ) (s : σ),
    (∀ a ∈ as, ReadsAt item enc mem a) → mem.drop p = encodeAll enc as ++ t →
    lim = p + (encodeAll enc as).length →
    readWhile item lim more body p s =
      .ok ((walk more body s as).1, lim - (encodeAll enc (walk more body s as).2).length)
  | [], p, s, _, _, hlim => by
    have : lim = p := by simpa using hlim
    subst this
    rw [readWhile, if_pos (Or.inl rfl)]
    simp [walk]
  | a :: as, p, s, hr, hd, hlim => by
    rw [encodeAll_cons, List.append_assoc] at hd
    rw [encodeAll_cons, List.length_append] at hlim
    by_cases hm : more s = true
    · have hread := hr a List.mem_cons_self p _ hd
      have hadv := item.advance hread
      rw [readWhile_step (by omega) hm hread, walk, if_pos hm]
      exact readWhile_encode as _ _ (fun b hb => hr b (List.mem_cons_of_mem _ hb)) (drop_after hd) (by omega)
    · rw [Bool.not_eq_true] at hm
      rw [readWhile, if_pos (Or.inr hm), walk, if_neg (by simp [hm])]
      rw [encodeAll_cons, List.length_append, hlim, Nat.add_sub_cancel]

theorem readWhile_all {lim : ℕ} {t : Bytes} (as : List α) (p : ℕ) (s : σ)
    (hr : ∀ a ∈ as, ReadsAt item enc mem a) (hd : mem.drop p = encodeAll enc as ++ t)
    (hlim : lim = p + (encodeAll enc as).length) :
    readWhile item lim (fun _ => true) body p s = .ok (as.foldl body s, lim) := by
  rw [readWhile_encode as p s hr hd hlim, walk_true]
  rfl

/-- What a loop without early exit accepts is a list of encoded items. -/
theorem readWhile_exact {lim : ℕ} {P : α → Prop}
    (hx : ∀ p a q, item.read p = .ok (a, q) → mem.drop p = enc a ++ mem.drop q ∧ P a) :
    ∀ (p : ℕ) (s s' : σ) (q : ℕ), readWhile item lim (fun _ => true) body p s = .ok (s', q) →
      ∃ as, s' = as.foldl body s ∧ mem.drop p = encodeAll enc as ++ mem.drop lim ∧ q = lim ∧ ∀ a ∈ as, P a := by
  intro p s
  fun_induction readWhile item lim (fun _ => true) body p s with
  | case1 p s h =>
    intro s' q hok
    have hp : p = lim := by simpa using h
    simp only [Except.ok.injEq, Prod.mk.injEq] at hok
    exact ⟨[], hok.1.symm, by rw [hp]; rfl, hok.2 ▸ hp, fun a ha => absurd ha List.not_mem_nil⟩
  | case2 p s h hlt => intro s' q hok; cases hok
  | case3 p s h hlt e he => intro s' q hok; cases hok
  | case4 p s h hlt a q he _ ih =>
    intro s' q' hok
    obtain ⟨as, hs, hd, hq, hP⟩ := ih s' q' hok
    obtain ⟨henc, ha⟩ := hx p a q he
    refine ⟨a :: as, hs, ?_, hq, List.forall_mem_cons.mpr ⟨ha, hP⟩⟩
    rw [henc, hd, encodeAll_cons, List.append_assoc]

theorem readWhile_le {lim bound : ℕ} (hb : ∀ p a q, item.read p = .ok (a, q) → q ≤ bound) :
    ∀ (p : ℕ) (s s' : σ) (q : ℕ), p ≤ bound → readWhile item lim more body p s = .ok (s', q) → q ≤ bound := by
  intro p s
  fun_induction readWhile item lim more body p s with
  | case1 p s h =>
    intro s' q hp hok
    cases hok
    exact hp
  | case2 p s h hlt => intro s' q hp hok; cases hok
  | case3 p s h hlt e he => intro s' q hp hok; cases hok
  | case4 p s h hlt a q he _ ih =>
    intro s' q' _ hok
    exact ih s' q' (hb p a q he) hok

end

end Lib
