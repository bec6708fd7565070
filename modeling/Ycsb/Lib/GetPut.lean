import Mathlib.Data.List.Nodup
import Mathlib.Logic.Function.Basic
import Ycsb.Lib.Threads

/-!
# Clients that get, compute and put

Each client reads a shared cell, computes a new value from it and writes that
back, with steps of other clients in between. What the cell holds at the end is
the work of some clients only, one after the other: those whose writes the last
writer builds on.
-/

namespace Lib

inductive GetPut (α : Type) where
  | start
  | holding (a : α)
  | done

def GetPut.map {α β : Type} (h : α → β) : GetPut α → GetPut β
  | .start => .start
  | .holding a => .holding (h a)
  | .done => .done

structure Shared (ι α : Type) where
  cell : α
  client : ι → GetPut α

namespace Shared

variable {ι α β : Type} [DecidableEq ι] (f : ι → α → α) (g : ι → β → β)

def init (a : α) : Shared ι α := ⟨a, fun _ => .start⟩

def step (s : Shared ι α) (i : ι) : Option (Shared ι α) :=
  match s.client i with
  | .start => some { s with client := Function.update s.client i (.holding (f i s.cell)) }
  | .holding a => some { cell := a, client := Function.update s.client i .done }
  | .done => none

def map (h : α → β) (s : Shared ι α) : Shared ι β := ⟨h s.cell, GetPut.map h ∘ s.client⟩

/-! ## Runs under a map -/

variable {f g}

theorem step_cases {s t : Shared ι α} {i : ι} (hstep : step f s i = some t) :
    (s.client i = .start ∧ t = { s with client := Function.update s.client i (.holding (f i s.cell)) }) ∨
      ∃ a, s.client i = .holding a ∧ t = { cell := a, client := Function.update s.client i .done } := by
  unfold step at hstep
  cases hi : s.client i with
  | start =>
    rw [hi] at hstep
    exact Or.inl ⟨rfl, (Option.some.inj hstep).symm⟩
  | holding a =>
    rw [hi] at hstep
    exact Or.inr ⟨a, rfl, (Option.some.inj hstep).symm⟩
  | done =>
    rw [hi] at hstep
    cases hstep

variable {h : α → β} (hf : ∀ i a, h (f i a) = g i (h a))

include hf in
theorem step_map {s t : Shared ι α} {i : ι} (hstep : step f s i = some t) : step g (s.map h) i = some (t.map h) := by
  rcases step_cases hstep with ⟨hi, rfl⟩ | ⟨a, hi, rfl⟩
  · have hmap : (s.map h).client i = .start := congrArg (GetPut.map h) hi
    simp only [step, hmap]
    simp only [map, Function.comp_update]
    rw [← hf]
    rfl
  · have hmap : (s.map h).client i = .holding (h a) := congrArg (GetPut.map h) hi
    simp only [step, hmap]
    simp only [map, Function.comp_update]
    rfl

include hf in
theorem run_map : ∀ {is : List ι} {s t : Shared ι α}, run (step f) s is = some t →
    run (step g) (s.map h) is = some (t.map h)
  | [], s, t, hrun => by
    cases hrun
    rfl
  | i :: is, s, t, hrun => by
    obtain ⟨u, hu, hrun⟩ := (run_cons_some _).mp hrun
    exact (run_cons_some _).mpr ⟨u.map h, step_map hf hu, run_map hrun⟩

/-! ## Complete schedules -/

def left : GetPut α → ℕ
  | .start => 2
  | .holding _ => 1
  | .done => 0

theorem step_left (s : Shared ι α) {i : ι} (hi : 0 < left (s.client i)) : ∃ t, step f s i = some t ∧
    ∀ j, left (t.client j) + [i].count j = left (s.client j) := by
  have hcount : ∀ {x}, left x + 1 = left (s.client i) → ∀ j,
      left (Function.update s.client i x j) + [i].count j = left (s.client j) := by
    intro x hx j
    by_cases hj : j = i
    · subst hj
      simpa using hx
    · simp [hj, Ne.symm hj]
  unfold step
  cases hc : s.client i with
  | start => exact ⟨_, rfl, hcount (by rw [hc]; rfl)⟩
  | holding a => exact ⟨_, rfl, hcount (by rw [hc]; rfl)⟩
  | done =>
    rw [hc] at hi
    cases hi

theorem run_left : ∀ {is : List ι} {s : Shared ι α}, (∀ i, is.count i ≤ left (s.client i)) →
    ∃ t, run (step f) s is = some t ∧ ∀ j, left (t.client j) + is.count j = left (s.client j)
  | [], s, _ => ⟨s, rfl, fun _ => rfl⟩
  | i :: is, s, hle => by
    have hcons : ∀ j, (i :: is).count j = is.count j + [i].count j := fun j => by
      rw [List.count_cons, List.count_singleton]
    have hi := hle i
    rw [List.count_cons_self] at hi
    obtain ⟨u, hu, hleft⟩ := step_left (f := f) (i := i) s (by omega)
    have hle' : ∀ j, is.count j ≤ left (u.client j) := fun j => by
      have hj := hle j
      have hj' := hleft j
      rw [hcons] at hj
      omega
    obtain ⟨t, ht, hleft'⟩ := run_left hle'
    refine ⟨t, (run_cons_some _).mpr ⟨u, hu, ht⟩, fun j => ?_⟩
    have hj := hleft j
    have hj' := hleft' j
    rw [hcons]
    omega

theorem run_complete {is : List ι} (his : ∀ i, is.count i = 2) (a : α) :
    ∃ t, run (step f) (init a) is = some t ∧ ∀ i, t.client i = .done := by
  obtain ⟨t, ht, hleft⟩ := run_left (f := f) (s := init a) fun i => Nat.le_of_eq (his i)
  refine ⟨t, ht, fun i => ?_⟩
  have hi := hleft i
  rw [his] at hi
  cases hc : t.client i with
  | done => rfl
  | _ => simp [hc, left, init] at hi

/-! ## Whose work the cell holds -/

/-- Clients that append themselves to what they read. -/
def sign (i : ι) (l : List ι) : List ι := l ++ [i]

/-- The clients whose work is in the cell after the schedule, in order. -/
def provenance (is : List ι) : List ι := ((run (step sign) (init []) is).map cell).getD []

theorem run_provenance {is : List ι} (his : ∀ i, is.count i = 2) (a : α) :
    ∃ t, run (step f) (init a) is = some t ∧ (∀ i, t.client i = .done) ∧
      t.cell = (provenance is).foldl (fun a i => f i a) a := by
  obtain ⟨u, hu, hdone⟩ := run_complete (f := sign) his []
  have hsign : ∀ (i : ι) (l : List ι), (sign i l).foldl (fun a i => f i a) a = f i (l.foldl (fun a i => f i a) a) := by
    intro i l
    rw [sign, List.foldl_append]
    rfl
  refine ⟨_, run_map hsign hu, fun i => ?_, ?_⟩
  · change GetPut.map _ (u.client i) = .done
    rw [hdone i]
    rfl
  · rw [provenance, hu]
    rfl

def Holds (done : ι → Prop) (i : ι) : GetPut (List ι) → Prop
  | .holding l => l.Nodup ∧ ∀ j ∈ l, j = i ∨ done j
  | _ => True

omit [DecidableEq ι] in
theorem Holds.mono {done done' : ι → Prop} {i : ι} {x : GetPut (List ι)} (h : Holds done i x)
    (hmono : ∀ j, done j → done' j) : Holds done' i x := by
  cases x with
  | holding l => exact ⟨h.1, fun j hj => (h.2 j hj).imp_right (hmono j)⟩
  | _ => trivial

/-- Nobody has signed twice, and whoever signed has put, or holds it. -/
structure Signed (s : Shared ι (List ι)) : Prop where
  nodup : s.cell.Nodup
  done : ∀ i ∈ s.cell, s.client i = .done
  holds : ∀ i, Holds (fun j => s.client j = .done) i (s.client i)

omit [DecidableEq ι] in
theorem Signed.init : Signed (init ([] : List ι)) where
  nodup := List.nodup_nil
  done i hi := by cases hi
  holds _ := trivial

theorem Signed.step {s t : Shared ι (List ι)} {i : ι} (h : Signed s) (hstep : step sign s i = some t) : Signed t := by
  have hkeep : ∀ {x j}, s.client i ≠ .done → s.client j = .done → Function.update s.client i x j = .done := by
    intro x j hi hj
    rwa [Function.update_of_ne]
    rintro rfl
    exact hi hj
  rcases step_cases hstep with ⟨hi, rfl⟩ | ⟨a, hi, rfl⟩
  · have hne : s.client i ≠ .done := by simp [hi]
    refine ⟨h.nodup, fun j hj => hkeep hne (h.done j hj), ?_⟩
    refine forall_update (P := Holds _) ⟨?_, fun j hj => ?_⟩ fun j _ => (h.holds j).mono fun _ => hkeep hne
    · refine List.nodup_append.mpr ⟨h.nodup, List.nodup_singleton _, ?_⟩
      intro j hj j' hj' heq
      rw [List.mem_singleton.mp hj'] at heq
      exact hne (heq ▸ h.done j hj)
    · rcases List.mem_append.mp hj with hj | hj
      · exact Or.inr (hkeep hne (h.done j hj))
      · exact Or.inl (List.mem_singleton.mp hj)
  · have hne : s.client i ≠ .done := by simp [hi]
    have ha := h.holds i
    rw [hi] at ha
    refine ⟨ha.1, fun j hj => ?_, ?_⟩
    · rcases ha.2 j hj with rfl | hj
      · exact Function.update_self ..
      · exact hkeep hne hj
    · exact forall_update (P := Holds _) trivial fun j _ => (h.holds j).mono fun _ => hkeep hne

theorem provenance_nodup (is : List ι) : (provenance is).Nodup := by
  unfold provenance
  cases hrun : run (Shared.step sign) (Shared.init []) is with
  | none => exact List.nodup_nil
  | some u => exact (run_inv (Shared.step sign) (fun _ _ _ h hstep => Signed.step h hstep) Signed.init hrun).nodup

def lostFirst (is : List ι) : List ι := (is.dedup.filter fun i => decide (i ∉ provenance is)) ++ provenance is

theorem lostFirst_nodup (is : List ι) : (lostFirst is).Nodup := by
  refine List.nodup_append.mpr ⟨(List.nodup_dedup is).filter _, provenance_nodup is, ?_⟩
  intro i hi j hj heq
  subst heq
  exact of_decide_eq_true (List.mem_filter.mp hi).2 hj

theorem mem_lostFirst {is : List ι} {i : ι} (hi : i ∈ is) : i ∈ lostFirst is := by
  by_cases h : i ∈ provenance is
  · exact List.mem_append_right _ h
  · exact List.mem_append_left _ (List.mem_filter.mpr ⟨List.mem_dedup.mpr hi, decide_eq_true h⟩)

/-! ## Clients one at a time -/

theorem run_serial : ∀ {is : List ι} {s : Shared ι α}, is.Nodup → (∀ i ∈ is, s.client i = .start) →
    ∃ t, run (step f) s (is.flatMap fun i => [i, i]) = some t ∧ t.cell = is.foldl (fun a i => f i a) s.cell
  | [], s, _, _ => ⟨s, rfl, rfl⟩
  | i :: is, s, hn, hstart => by
    obtain ⟨hi, hn⟩ := List.nodup_cons.mp hn
    have hget : step f s i = some { s with client := Function.update s.client i (.holding (f i s.cell)) } := by
      simp only [step, hstart i List.mem_cons_self]
    have hput : step f { s with client := Function.update s.client i (.holding (f i s.cell)) } i =
        some { cell := f i s.cell, client := Function.update s.client i .done } := by
      simp only [step, Function.update_self, Function.update_idem]
    have hrest : ∀ j ∈ is, Function.update s.client i .done j = .start := fun j hj => by
      refine (Function.update_of_ne ?_ _ _).trans (hstart j (List.mem_cons_of_mem i hj))
      rintro rfl
      exact hi hj
    obtain ⟨t, ht, hcell⟩ :=
      run_serial (s := { cell := f i s.cell, client := Function.update s.client i .done }) hn hrest
    refine ⟨t, ?_, hcell⟩
    exact (run_cons_some _).mpr ⟨_, hget, (run_cons_some _).mpr ⟨_, hput, ht⟩⟩

/-- When no other client comes between a client's get and its put, no work is lost. -/
theorem provenance_serial {is : List ι} (hn : is.Nodup) : provenance (is.flatMap fun i => [i, i]) = is := by
  obtain ⟨t, ht, hcell⟩ := run_serial (f := sign) (s := init []) hn fun _ _ => rfl
  have hsign : ∀ (is l : List ι), is.foldl (fun l i => sign i l) l = l ++ is := by
    intro is
    induction is with
    | nil => simp
    | cons i is ih =>
      intro l
      rw [List.foldl_cons, ih, sign, List.append_assoc]
      rfl
  rw [provenance, ht, Option.map_some, Option.getD_some, hcell, hsign]
  rfl

end Shared

end Lib
