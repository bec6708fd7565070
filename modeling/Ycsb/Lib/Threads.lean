import Mathlib.Data.Finset.Card
import Mathlib.Data.Fintype.Card
import Ycsb.Lib.Trans

/-!
# Threads that run in phases

Each thread has a list of atomic actions on a shared state. A phase starts when
every thread has taken all its actions of the phase before. What holds along a
run depends only on the actions that are left to each thread, over all phases.
-/

namespace Lib

theorem forall_update {ι α : Type} [DecidableEq ι] {f : ι → α} {i : ι} {x : α} {P : ι → α → Prop}
    (hx : P i x) (h : ∀ j, j ≠ i → P j (f j)) : ∀ j, P j (Function.update f i x j) :=
  (Function.forall_update_iff f P).mpr ⟨hx, h⟩

/-- No two hold the same thing, when one takes up what no other one holds. -/
theorem apart_update {ι α β : Type} [DecidableEq ι] {f : ι → α} {i : ι} {x : α} {P : β → α → Prop}
    (hx : ∀ n, P n x → ∀ j, j ≠ i → ¬ P n (f j)) (h : ∀ j k n, P n (f j) → P n (f k) → j = k) (j k : ι) (n : β)
    (hj : P n (Function.update f i x j)) (hk : P n (Function.update f i x k)) : j = k := by
  by_cases hji : j = i <;> by_cases hki : k = i
  · rw [hji, hki]
  · subst hji
    rw [Function.update_self] at hj
    rw [Function.update_of_ne hki] at hk
    exact absurd hk (hx n hj k hki)
  · subst hki
    rw [Function.update_self] at hk
    rw [Function.update_of_ne hji] at hj
    exact absurd hj (hx n hk j hji)
  · rw [Function.update_of_ne hji] at hj
    rw [Function.update_of_ne hki] at hk
    exact h j k n hj hk

structure Threads (ι α β : Type) where
  todo : ι → List α
  phases : List (ι → List α)
  shared : β

inductive ThreadEvent (ι : Type) where
  | act (i : ι)
  | phase

namespace Threads

variable {ι α β : Type} [Fintype ι] [DecidableEq ι] (eff : ι → α → β → β)

def init (phases : List (ι → List α)) (b : β) : Threads ι α β := ⟨fun _ => [], phases, b⟩

def step (s : Threads ι α β) : ThreadEvent ι → Option (Threads ι α β)
  | .act i =>
    match s.todo i with
    | [] => none
    | a :: rest => some { s with todo := Function.update s.todo i rest, shared := eff i a s.shared }
  | .phase =>
    if ∀ i, (s.todo i).isEmpty then
      match s.phases with
      | [] => none
      | p :: ps => some { s with todo := p, phases := ps }
    else none

def next (s : Threads ι α β) : ThreadEvent ι → Option (ι × α)
  | .act i => (s.todo i).head?.map fun a => (i, a)
  | .phase => none

/-- The actions left to a thread, in this phase and in those to come. -/
def remaining (s : Threads ι α β) (i : ι) : List α := s.todo i ++ (s.phases.map fun p => p i).flatten

def Finished (s : Threads ι α β) : Prop := ∀ i, s.remaining i = []

def OnAction (C : β → ι → α → Prop) (s : Threads ι α β) (e : ThreadEvent ι) : Prop :=
  ∀ i a, s.next e = some (i, a) → C s.shared i a

variable {eff}

omit [Fintype ι] [DecidableEq ι] in
theorem next_eq {s : Threads ι α β} {e : ThreadEvent ι} {i : ι} {a : α} (h : s.next e = some (i, a)) :
    e = .act i ∧ ∃ rest, s.todo i = a :: rest := by
  cases e with
  | phase => cases h
  | act j =>
    cases hj : s.todo j with
    | nil => simp [next, hj] at h
    | cons b rest =>
      simp only [next, hj, List.head?_cons, Option.map_some, Option.some.injEq, Prod.mk.injEq] at h
      obtain ⟨rfl, rfl⟩ := h
      exact ⟨rfl, rest, hj⟩

theorem head_flatten {a : α} {rest : List α} : ∀ {ls : List (List α)}, ls.flatten = a :: rest →
    ∃ l ∈ ls, ∃ rest', l = a :: rest'
  | [], h => by cases h
  | [] :: ls, h => by
    rw [List.flatten_cons, List.nil_append] at h
    obtain ⟨l, hl, h'⟩ := head_flatten h
    exact ⟨l, List.mem_cons_of_mem _ hl, h'⟩
  | (x :: l) :: ls, h => ⟨x :: l, List.mem_cons_self, l, by rw [(List.cons.inj h).1]⟩

omit [Fintype ι] [DecidableEq ι] in
/-- The first action left to a thread is the next in this phase, or the first of a phase to come. -/
theorem head_remaining {s : Threads ι α β} {i : ι} {a : α} {rest : List α} (h : s.remaining i = a :: rest) :
    (∃ l, s.todo i = a :: l) ∨ ∃ p ∈ s.phases, ∃ l, p i = a :: l := by
  cases hi : s.todo i with
  | cons c l =>
    rw [remaining, hi] at h
    exact Or.inl ⟨l, by rw [(List.cons.inj h).1]⟩
  | nil =>
    rw [remaining, hi, List.nil_append] at h
    obtain ⟨l, hl, rest', rfl⟩ := head_flatten h
    obtain ⟨p, hp, hpi⟩ := List.mem_map.mp hl
    exact Or.inr ⟨p, hp, rest', hpi⟩

theorem step_act {s t : Threads ι α β} {i : ι} (h : step eff s (.act i) = some t) :
    ∃ a rest, s.todo i = a :: rest ∧
      t = { s with todo := Function.update s.todo i rest, shared := eff i a s.shared } := by
  cases hi : s.todo i with
  | nil => simp [step, hi] at h
  | cons a rest =>
    simp only [step, hi, Option.some.injEq] at h
    exact ⟨a, rest, rfl, h.symm⟩

theorem step_phase {s t : Threads ι α β} (h : step eff s .phase = some t) :
    ∃ p ps, (∀ i, s.todo i = []) ∧ s.phases = p :: ps ∧ t = { s with todo := p, phases := ps } := by
  rw [step] at h
  split at h
  · rename_i hempty
    cases hp : s.phases with
    | nil => simp [hp] at h
    | cons p ps =>
      simp only [hp, Option.some.injEq] at h
      exact ⟨p, ps, fun i => List.isEmpty_iff.mp (hempty i), rfl, h.symm⟩
  · cases h

theorem step_cases {s t : Threads ι α β} {e : ThreadEvent ι} (h : step eff s e = some t) :
    (∃ i a rest, s.next e = some (i, a) ∧ s.remaining i = a :: rest ∧
        t.remaining = Function.update s.remaining i rest ∧ t.shared = eff i a s.shared) ∨
      (s.next e = none ∧ t.remaining = s.remaining ∧ t.shared = s.shared) := by
  cases e with
  | act i =>
    obtain ⟨a, rest, hi, rfl⟩ := step_act h
    refine Or.inl ⟨i, a, _, by simp [next, hi], by rw [remaining, hi]; rfl, ?_, rfl⟩
    funext j
    by_cases hj : j = i
    · subst hj; simp [remaining]
    · simp [remaining, hj]
  | phase =>
    obtain ⟨p, ps, hnil, hp, rfl⟩ := step_phase h
    refine Or.inr ⟨rfl, ?_, rfl⟩
    funext i
    simp [remaining, hnil i, hp]

/-! ## Invariants -/

section
variable {I : (ι → List α) → β → Prop} {C P : β → ι → α → Prop}

theorem step_remaining
    (hstep : ∀ r b i a rest, I r b → r i = a :: rest → C b i a → I (Function.update r i rest) (eff i a b))
    (s : Threads ι α β) (e : ThreadEvent ι) (t : Threads ι α β) (hI : I s.remaining s.shared)
    (hC : OnAction C s e) (h : s.step eff e = some t) : I t.remaining t.shared := by
  rcases step_cases h with ⟨i, a, rest, hn, hr, ht, hb⟩ | ⟨_, ht, hb⟩
  · rw [ht, hb]
    exact hstep _ _ i a rest hI hr (hC i a hn)
  · rw [ht, hb]
    exact hI

theorem run_remaining
    (hstep : ∀ r b i a rest, I r b → r i = a :: rest → C b i a → I (Function.update r i rest) (eff i a b))
    {es : List (ThreadEvent ι)} {s u : Threads ι α β} (hI : I s.remaining s.shared)
    (hC : Along (step eff) (OnAction C) s es) (hrun : run (step eff) s es = some u) : I u.remaining u.shared :=
  run_inv_along (I := fun s : Threads ι α β => I s.remaining s.shared) (step eff) (step_remaining hstep) es s u hI hC hrun

theorem step_always (hstep : ∀ r b i a rest, I r b → r i = a :: rest → I (Function.update r i rest) (eff i a b))
    {s t : Threads ι α β} {e : ThreadEvent ι} (hI : I s.remaining s.shared) (h : s.step eff e = some t) :
    I t.remaining t.shared :=
  step_remaining (C := fun _ _ _ => True) (fun r b i a rest hI hr _ => hstep r b i a rest hI hr) s e t hI
    (fun _ _ _ => trivial) h

theorem run_always (hstep : ∀ r b i a rest, I r b → r i = a :: rest → I (Function.update r i rest) (eff i a b))
    {es : List (ThreadEvent ι)} {s u : Threads ι α β} (hI : I s.remaining s.shared)
    (hrun : run (step eff) s es = some u) : I u.remaining u.shared :=
  run_inv (I := fun s : Threads ι α β => I s.remaining s.shared) (step eff) (fun _ _ _ hI h => step_always hstep hI h)
    hI hrun

theorem along_remaining
    (hstep : ∀ r b i a rest, I r b → r i = a :: rest → C b i a → I (Function.update r i rest) (eff i a b))
    (hP : ∀ r b i a rest, I r b → r i = a :: rest → C b i a → P b i a) :
    ∀ (es : List (ThreadEvent ι)) (s : Threads ι α β), I s.remaining s.shared →
      Along (step eff) (OnAction C) s es → Along (step eff) (OnAction P) s es
  | [], _, _, _ => trivial
  | e :: es, s, hI, hC => by
    refine ⟨fun i a hn => ?_, fun t ht => ?_⟩
    · obtain ⟨rfl, rest, hi⟩ := next_eq hn
      have hr : s.remaining i = a :: (rest ++ (s.phases.map fun p => p i).flatten) := by rw [remaining, hi]; rfl
      exact hP _ _ i a _ hI hr (hC.1 i a hn)
    · exact along_remaining hstep hP es t (step_remaining hstep s e t hI hC.1 ht) (hC.2 t ht)

end

/-! ## The last phase -/

/-- `q` is the last phase, and no action of a phase before it breaks `N`. -/
inductive LastPhase (N : α → Prop) (q : ι → List α) (s : Threads ι α β) : Prop where
  | before (ps : List (ι → List α)) (hp : s.phases = ps ++ [q]) (hps : ∀ p ∈ ps, ∀ i, ∀ a ∈ p i, N a)
      (ht : ∀ i, ∀ a ∈ s.todo i, N a)
  | last (hp : s.phases = []) (ht : ∀ i, s.todo i <:+ q i)

theorem LastPhase.step {N : α → Prop} {q : ι → List α} {s t : Threads ι α β} {e : ThreadEvent ι}
    (h : LastPhase N q s) (hstep : Threads.step eff s e = some t) : LastPhase N q t := by
  cases e with
  | act i =>
    obtain ⟨a, rest, hi, rfl⟩ := step_act hstep
    cases h with
    | before ps hp hps ht =>
      refine .before ps hp hps (forall_update (P := fun _ l => ∀ a ∈ l, N a) (fun b hb => ?_) ?_)
      · exact ht i b (by rw [hi]; exact List.mem_cons_of_mem a hb)
      · exact fun j _ => ht j
    | last hp ht =>
      refine .last hp (forall_update (P := fun j l => l <:+ q j) ?_ fun j _ => ht j)
      have hsuffix := ht i
      rw [hi] at hsuffix
      exact (List.suffix_cons a rest).trans hsuffix
  | phase =>
    obtain ⟨p, ps, _, hp', rfl⟩ := step_phase hstep
    cases h with
    | before qs hp hps ht =>
      rw [hp] at hp'
      cases qs with
      | nil =>
        obtain ⟨rfl, rfl⟩ := List.cons.inj hp'
        exact .last rfl fun i => List.suffix_rfl
      | cons q' qs =>
        obtain ⟨rfl, rfl⟩ := List.cons.inj hp'
        exact .before qs rfl (fun p hp => hps p (List.mem_cons_of_mem q' hp)) (hps q' List.mem_cons_self)
    | last hp ht =>
      rw [hp] at hp'
      cases hp'

/-! ## A thread alone -/

variable (eff) in
theorem run_alone (i : ι) : ∀ (k : ℕ) (s : Threads ι α β), k ≤ (s.todo i).length →
    run (step eff) s (List.replicate k (.act i)) =
      some { s with
        todo := Function.update s.todo i ((s.todo i).drop k),
        shared := ((s.todo i).take k).foldl (fun b a => eff i a b) s.shared }
  | 0, s, _ => by simp
  | k + 1, s, hk => by
    cases hi : s.todo i with
    | nil => simp [hi] at hk
    | cons a rest =>
      have hk' : k ≤ rest.length := by simpa [hi] using hk
      have hstep : step eff s (.act i) =
          some { s with todo := Function.update s.todo i rest, shared := eff i a s.shared } := by
        simp only [step, hi]
      rw [List.replicate_succ, run_cons, hstep, Option.bind_some, run_alone i k _ (by simpa using hk')]
      simp

end Threads

/-! ## Counting threads -/

section
variable {ι α : Type} [Fintype ι] [DecidableEq ι] (P : α → Prop)

open Classical in
noncomputable def having (r : ι → α) : Finset ι := Finset.univ.filter fun i => P (r i)

variable {P} {r : ι → α} {i : ι} {x : α}

omit [DecidableEq ι] in
theorem mem_having : i ∈ having P r ↔ P (r i) := by simp [having]

theorem having_enter (h : ¬ P (r i)) (hx : P x) : (having P (Function.update r i x)).card = (having P r).card + 1 := by
  have hins : having P (Function.update r i x) = insert i (having P r) := by
    ext j
    by_cases hj : j = i
    · subst hj; simp [mem_having, hx]
    · simp [mem_having, hj]
  rw [hins, Finset.card_insert_of_notMem (mt mem_having.mp h)]

theorem having_leave (h : P (r i)) (hx : ¬ P x) : (having P (Function.update r i x)).card + 1 = (having P r).card := by
  have h' := having_enter (r := Function.update r i x) (i := i) (by simpa using hx) h
  rw [Function.update_idem, Function.update_eq_self] at h'
  exact h'.symm

theorem having_stay (h : P (r i) ↔ P x) : having P (Function.update r i x) = having P r := by
  ext j
  by_cases hj : j = i
  · subst hj; simp [mem_having, h]
  · simp [mem_having, hj]

omit [DecidableEq ι] in
theorem having_pos (h : P (r i)) : 0 < (having P r).card := Finset.card_pos.mpr ⟨i, mem_having.mpr h⟩

omit [DecidableEq ι] in
theorem having_le : (having P r).card ≤ Fintype.card ι := Finset.card_le_univ _

end

end Lib
