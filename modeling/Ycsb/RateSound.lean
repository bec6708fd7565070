import Mathlib.Algebra.Order.BigOperators.Group.Finset
import Ycsb.RateLimiter

/-!
# The limit bounds the rate of all threads

A limiter is a token bucket, so a thread returns from its calls no faster than
its share of the limit. The shares add up to the limit or less; but the share of
a thread is zero when there are more threads than the limit, and a limiter of
rate zero does not limit.
-/

namespace Ycsb

open Lib

/-! ## One call -/

namespace RateLimiter

variable {l : RateLimiter} (n now : ℤ)

theorem consume_unlimited (hr : l.r ≤ 0) : l.consume n now = (l, none) := if_pos hr

theorem consume_bucket (hr : 0 < l.r) : ∃ l' wait, l.consume n now = (l', wait) ∧ l'.r = l.r ∧ l'.last = now ∧
    l'.toBucket = (l.toBucket.refill nanos now).take (n * tokenPrecision) ∧
    (wait = none ∧ 0 ≤ l'.toBucket.level ∨ wait = some (l'.toBucket.delay nanos) ∧ l'.toBucket.level < 0) := by
  let l' : RateLimiter := { l.refill now with tokens := (l.refill now).tokens - n * tokenPrecision }
  have hconsume : l.consume n now = if l'.tokens < 0 then (l', some ((-l'.tokens * nanos).tdiv l'.r)) else (l', none) :=
    if_neg (not_le.mpr hr)
  by_cases hdebt : l'.tokens < 0
  · rw [if_pos hdebt] at hconsume
    exact ⟨l', _, hconsume, rfl, rfl, rfl, Or.inr ⟨rfl, hdebt⟩⟩
  · rw [if_neg hdebt] at hconsume
    exact ⟨l', _, hconsume, rfl, rfl, rfl, Or.inl ⟨rfl, not_lt.mp hdebt⟩⟩

end RateLimiter

/-! ## One thread -/

namespace Limits

variable {T : ℕ} {r opsLimit : ℤ} {clock : ℕ} {l : RateLimiter} {wake : Option ℤ} {returned : List ℕ}

/-- A thread with a limiter of `r` operations a second has returned from so many
calls by time `e`, and may not return from the next one before its share of time. -/
structure Paced (r : ℤ) (clock : ℕ) (l : RateLimiter) (wake : Option ℤ) (returned : List ℕ) : Prop where
  rate : l.r = r * tokenPrecision
  last : l.last ≤ clock
  paid : ∃ start : ℤ, 0 ≤ start ∧
    l.toBucket.Paid nanos start ((returned.length + wake.toList.length : ℕ) * tokenPrecision)
  wake : ∀ w, wake = some w → ((returned.length + 1 : ℕ) : ℤ) * nanos ≤ (w + 1) * r
  returned : ∀ e : ℕ, ((returned.countP fun t => t ≤ e : ℕ) : ℤ) * nanos ≤ (e + 1) * r

theorem paced_new (hr : 0 ≤ r) (b : ℤ) : Paced r clock (.new r b clock) none [] := by
  refine ⟨rfl, le_refl _, ⟨clock, Int.natCast_nonneg clock, ?_⟩, fun w hw => ?_, fun e => ?_⟩
  · simp [Bucket.Paid, RateLimiter.toBucket, RateLimiter.new]
  · cases hw
  · have he : (0 : ℤ) ≤ (e : ℤ) + 1 := by omega
    simpa using Int.mul_nonneg he hr

theorem Paced.tick (h : Paced r clock l wake returned) (d : ℕ) : Paced r (clock + d) l wake returned :=
  ⟨h.rate, le_trans h.last (by omega), h.paid, h.wake, h.returned⟩

theorem Paced.consume (hr : 0 < r) (h : Paced r clock l none returned) :
    Paced r clock (l.consume 1 clock).1 (some (clock + (l.consume 1 clock).2.getD 0)) returned := by
  obtain ⟨start, hstart, hpaid⟩ := h.paid
  have hprec : (0 : ℤ) < tokenPrecision := by decide
  have hnanos : (0 : ℤ) < nanos := by decide
  have hrate : 0 < l.r := by rw [h.rate]; exact Int.mul_pos hr hprec
  obtain ⟨l', wait, hconsume, hr', hlast, hbucket, hwait⟩ := RateLimiter.consume_bucket 1 clock hrate
  have hpaid' := (hpaid.refill hnanos (le_of_lt hrate) h.last).take (n := 1 * tokenPrecision)
  rw [← hbucket] at hpaid'
  have htaken : ((returned.length + (none : Option ℤ).toList.length : ℕ) : ℤ) * tokenPrecision + 1 * tokenPrecision =
      ((returned.length + 1 : ℕ) : ℤ) * tokenPrecision := by
    rw [← Int.add_mul]
    rfl
  rw [htaken] at hpaid'
  have hbrate : l'.toBucket.rate = r * tokenPrecision := hr'.trans h.rate
  have hblast : l'.toBucket.last = clock := hlast
  have hbpos : 0 < l'.toBucket.rate := by rw [hbrate, ← h.rate]; exact hrate
  rw [hconsume]
  refine ⟨hr'.trans h.rate, le_of_eq hlast, ⟨start, hstart, hpaid'⟩, ?_, h.returned⟩
  intro w hw
  obtain rfl : clock + wait.getD 0 = w := Option.some.inj hw
  -- the call is paid for when it may return, within one tick
  have hdue : ((returned.length + 1 : ℕ) : ℤ) * tokenPrecision * nanos ≤
      (clock + wait.getD 0 + 1 - start) * l'.toBucket.rate := by
    rcases hwait with ⟨rfl, hlevel⟩ | ⟨rfl, hlevel⟩
    · apply le_trans (hpaid'.of_nonneg hnanos hlevel)
      rw [hblast, Option.getD_none]
      exact Int.mul_le_mul_of_nonneg_right (by omega) (le_of_lt hbpos)
    · rw [Option.getD_some, ← hblast]
      exact hpaid'.of_delay hnanos hbpos hlevel
  refine Int.le_of_mul_le_mul_right ?_ hprec
  calc ((returned.length + 1 : ℕ) : ℤ) * nanos * tokenPrecision
      = ((returned.length + 1 : ℕ) : ℤ) * tokenPrecision * nanos := by ring
    _ ≤ (clock + wait.getD 0 + 1 - start) * (r * tokenPrecision) := by rw [← hbrate]; exact hdue
    _ ≤ (clock + wait.getD 0 + 1) * (r * tokenPrecision) :=
        Int.mul_le_mul_of_nonneg_right (by omega) (by rw [← hbrate]; exact le_of_lt hbpos)
    _ = (clock + wait.getD 0 + 1) * r * tokenPrecision := by ring

theorem Paced.ret (hr : 0 ≤ r) {w : ℤ} (h : Paced r clock l (some w) returned) (hw : w ≤ clock) :
    Paced r clock l none (returned ++ [clock]) := by
  have hlength : (returned ++ [clock]).length = returned.length + 1 := List.length_append
  refine ⟨h.rate, h.last, ?_, fun w hw => ?_, fun e => ?_⟩
  · obtain ⟨start, hstart, hpaid⟩ := h.paid
    exact ⟨start, hstart, by rw [hlength]; exact hpaid⟩
  · cases hw
  · rw [List.countP_append]
    by_cases he : clock ≤ e
    · -- all calls count, and the last one was due
      have hcount : returned.countP (fun t => t ≤ e) + [clock].countP (fun t => t ≤ e) ≤ returned.length + 1 :=
        Nat.add_le_add List.countP_le_length (List.countP_le_length (l := [clock]))
      have hdue := h.wake w rfl
      calc ((returned.countP (fun t => t ≤ e) + [clock].countP (fun t => t ≤ e) : ℕ) : ℤ) * nanos
          ≤ ((returned.length + 1 : ℕ) : ℤ) * nanos :=
            Int.mul_le_mul_of_nonneg_right (Int.ofNat_le.mpr hcount) (by decide)
        _ ≤ (w + 1) * r := hdue
        _ ≤ (e + 1) * r := Int.mul_le_mul_of_nonneg_right (by omega) hr
    · have hnone : [clock].countP (fun t => t ≤ e) = 0 := by simp [he]
      rw [hnone, Nat.add_zero]
      exact h.returned e

/-! ## All threads -/

inductive Kept (r : ℤ) (clock : ℕ) : Option RateLimiter → Option ℤ → List ℕ → Prop where
  | unstarted : Kept r clock none none []
  | paced {l : RateLimiter} {wake : Option ℤ} {returned : List ℕ} (h : Paced r clock l wake returned) :
      Kept r clock (some l) wake returned

structure AllKept (r : ℤ) (s : Limits T) : Prop where
  unstarted : ∀ i : Fin T, s.started ≤ i.val → s.rlim i = none
  kept : ∀ i, Kept r s.clock (s.rlim i) (s.wake i) (s.returned i)

theorem allKept_init (numOps : Fin T → ℕ) : AllKept r (init numOps) := ⟨fun _ _ => rfl, fun _ => .unstarted⟩

theorem Kept.start {l : Option RateLimiter} (h : Kept r clock l wake returned) (hl : l = none) :
    wake = none ∧ returned = [] := by
  cases h with
  | unstarted => exact ⟨rfl, rfl⟩
  | paced => cases hl

theorem Kept.tick {l : Option RateLimiter} (h : Kept r clock l wake returned) (d : ℕ) :
    Kept r (clock + d) l wake returned := by
  cases h with
  | unstarted => exact .unstarted
  | paced h => exact .paced (h.tick d)

theorem Kept.of_some {l : RateLimiter} (h : Kept r clock (some l) wake returned) : Paced r clock l wake returned := by
  cases h with
  | paced h => exact h

theorem step_cases {s t : Limits T} {e : LimitEvent T} (h : step opsLimit s e = some t) :
    (∃ d, t = { s with clock := s.clock + d }) ∨
      (∃ hs : s.started < T, t = { s with
        rlim := Function.update s.rlim ⟨s.started, hs⟩ (makeLimiter opsLimit false T s.clock)
        started := s.started + 1 }) ∨
      (∃ i l n, s.rlim i = some l ∧ s.wake i = none ∧ s.ops i = n + 1 ∧ t = { s with
        rlim := Function.update s.rlim i (some (l.consume 1 s.clock).1)
        wake := Function.update s.wake i (some (s.clock + (l.consume 1 s.clock).2.getD 0))
        ops := Function.update s.ops i n }) ∨
      (∃ i w, s.wake i = some w ∧ w ≤ s.clock ∧ t = { s with
        wake := Function.update s.wake i none
        returned := Function.update s.returned i (s.returned i ++ [s.clock]) }) := by
  cases e with
  | tick d =>
    rw [step] at h
    split at h
    · cases h
    · exact Or.inl ⟨d, (Option.some.inj h).symm⟩
  | start =>
    rw [step] at h
    split at h
    · exact Or.inr (Or.inl ⟨_, (Option.some.inj h).symm⟩)
    · cases h
  | consume i =>
    rw [step] at h
    split at h
    · exact Or.inr (Or.inr (Or.inl ⟨i, _, _, ‹_›, ‹_›, ‹_›, (Option.some.inj h).symm⟩))
    · cases h
  | ret i =>
    rw [step] at h
    split at h
    · split at h
      · exact Or.inr (Or.inr (Or.inr ⟨i, _, ‹_›, ‹_›, (Option.some.inj h).symm⟩))
      · cases h
    · cases h

theorem makeLimiter_share (hL : 0 < opsLimit) (now : ℤ) : makeLimiter opsLimit false T now =
    some (.new (opsLimit.tdiv T) (opsLimit.tdiv T) now) := if_pos (Or.inl hL)

theorem allKept_step (hL : 0 < opsLimit) (hr : 0 < opsLimit.tdiv T) {s t : Limits T} {e : LimitEvent T}
    (hs : AllKept (opsLimit.tdiv T) s) (h : step opsLimit s e = some t) : AllKept (opsLimit.tdiv T) t := by
  rcases step_cases h with ⟨d, rfl⟩ | ⟨hlt, rfl⟩ | ⟨i, l, n, hl, hw, _, rfl⟩ | ⟨i, w, hw, hclock, rfl⟩
  · exact ⟨hs.unstarted, fun i => (hs.kept i).tick d⟩
  · have hnone := hs.unstarted ⟨s.started, hlt⟩ (le_refl _)
    obtain ⟨hwake, hreturned⟩ := (hs.kept ⟨s.started, hlt⟩).start hnone
    refine ⟨fun j hj => ?_, fun j => ?_⟩
    · have hne : j ≠ ⟨s.started, hlt⟩ := fun hji => by
        rw [hji] at hj
        exact absurd hj (Nat.not_succ_le_self _)
      exact (Function.update_of_ne hne _ _).trans (hs.unstarted j (Nat.le_of_succ_le hj))
    · by_cases hj : j = ⟨s.started, hlt⟩
      · subst hj
        simp only [Function.update_self, makeLimiter_share hL, hwake, hreturned]
        exact .paced (paced_new (le_of_lt hr) _)
      · simpa [hj] using hs.kept j
  · have hk := hs.kept i
    rw [hl, hw] at hk
    refine ⟨fun j hj => ?_, fun j => ?_⟩
    · have hne : j ≠ i := fun hji => by
        -- a new limiter starts with its share in the bucket
        have hnone := hs.unstarted j hj
        rw [hji, hl] at hnone
        cases hnone
      exact (Function.update_of_ne hne _ _).trans (hs.unstarted j hj)
    · by_cases hj : j = i
      · subst hj
        simp only [Function.update_self]
        exact .paced (hk.of_some.consume hr)
      · simpa [hj] using hs.kept j
  · refine ⟨hs.unstarted, fun j => ?_⟩
    by_cases hj : j = i
    · subst hj
      have hk := hs.kept j
      simp only [Function.update_self]
      rw [hw] at hk
      generalize s.rlim j = o at hk
      generalize hret : s.returned j = returned at hk
      cases hk with
      | paced hk => exact .paced (hk.ret (le_of_lt hr) hclock)
    · simpa [hj] using hs.kept j

theorem returnedBy_le {s : Limits T} (hr : 0 ≤ r) (hs : AllKept r s) (e : ℕ) :
    (s.returnedBy e : ℤ) * nanos ≤ T * ((e + 1) * r) := by
  have hthread : ∀ i, (((s.returned i).countP fun t => t ≤ e : ℕ) : ℤ) * nanos ≤ (e + 1) * r := by
    intro i
    have hk := hs.kept i
    generalize s.rlim i = o at hk
    generalize s.wake i = wake at hk
    generalize s.returned i = returned at hk
    cases hk with
    | unstarted => simpa using Int.mul_nonneg (by omega : (0 : ℤ) ≤ e + 1) hr
    | paced hk => exact hk.returned e
  calc (s.returnedBy e : ℤ) * nanos
      = ∑ i, (((s.returned i).countP fun t => t ≤ e : ℕ) : ℤ) * nanos := by
        rw [returnedBy, Nat.cast_sum, Finset.sum_mul]
    _ ≤ ∑ _i : Fin T, ((e : ℤ) + 1) * r := Finset.sum_le_sum fun i _ => hthread i
    _ = T * ((e + 1) * r) := by simp

/-! ## More threads than operations -/

theorem burst (opsLimit : ℤ) {i : Fin T} {l : RateLimiter} (hl : l.r ≤ 0) :
    ∀ (k : ℕ) (s : Limits T), s.rlim i = some l → s.wake i = none → s.ops i = k →
      ∃ es u, run (step opsLimit) s es = some u ∧ u.returned i = s.returned i ++ List.replicate k s.clock
  | 0, s, _, _, _ => ⟨[], s, rfl, by simp⟩
  | k + 1, s, hlim, hwake, hops => by
    let t : Limits T := { s with
      rlim := Function.update s.rlim i (some l)
      wake := Function.update s.wake i (some s.clock)
      ops := Function.update s.ops i k }
    let t' : Limits T := { t with
      wake := Function.update t.wake i none
      returned := Function.update t.returned i (t.returned i ++ [t.clock]) }
    have hconsume : step opsLimit s (.consume i) = some t := by
      simp [step, hlim, hwake, hops, RateLimiter.consume_unlimited _ _ hl, t]
    have hret : step opsLimit t (.ret i) = some t' := by simp [step, t, t']
    obtain ⟨es, u, hrun, hu⟩ := burst opsLimit (i := i) hl k t' (by simp [t', t]) (by simp [t']) (by simp [t', t])
    refine ⟨_, u, (run_cons_some _).mpr ⟨t, hconsume, (run_cons_some _).mpr ⟨t', hret, hrun⟩⟩, ?_⟩
    rw [hu]
    simp [t', t, List.replicate_succ]

theorem burst_exceeds (hL : 0 < opsLimit) (hT : opsLimit < T) : ∃ es u,
    run (step opsLimit) (init fun _ : Fin T => opsLimit.toNat + 1) es = some u ∧
      ¬ (u.returnedBy 0 : ℤ) * nanos ≤ opsLimit * ((0 : ℕ) + 1) := by
  have hpos : 0 < T := by omega
  let i₀ : Fin T := ⟨0, hpos⟩
  let s : Limits T := init fun _ => opsLimit.toNat + 1
  let l : RateLimiter := .new 0 0 0
  let t : Limits T := { s with rlim := Function.update s.rlim i₀ (some l), started := 1 }
  have hshare : opsLimit.tdiv T = 0 := Int.tdiv_eq_zero_of_lt (le_of_lt hL) hT
  have hstart : step opsLimit s .start = some t := by
    simp [step, s, t, l, i₀, init, hpos, makeLimiter_share hL, hshare]
  obtain ⟨es, u, hrun, hu⟩ := burst opsLimit (i := i₀) (l := l) (le_refl _) _ t (by simp [t]) rfl rfl
  refine ⟨_, u, (run_cons_some _).mpr ⟨t, hstart, hrun⟩, fun hle => ?_⟩
  have hall : (u.returned i₀).countP (fun x => x ≤ 0) = opsLimit.toNat + 1 := by
    have hu' : u.returned i₀ = List.replicate (opsLimit.toNat + 1) 0 := hu
    rw [hu', List.countP_eq_length.mpr fun x hx => by rw [List.eq_of_mem_replicate hx]; rfl, List.length_replicate]
  have hsum : (u.returned i₀).countP (fun x => x ≤ 0) ≤ u.returnedBy 0 :=
    Finset.single_le_sum (f := fun i => (u.returned i).countP fun x => x ≤ 0) (fun _ _ => Nat.zero_le _)
      (Finset.mem_univ i₀)
  rw [hall] at hsum
  unfold nanos at hle
  omega

/-- The limit bounds the calls that all threads have returned from, in every
schedule, if there are no more threads than the limit, and only then. -/
theorem rate_bounded (hL : 0 < opsLimit) :
    (∀ (numOps : Fin T → ℕ) es s, run (step opsLimit) (init numOps) es = some s →
      ∀ e : ℕ, (s.returnedBy e : ℤ) * nanos ≤ opsLimit * (e + 1)) ↔ (T : ℤ) ≤ opsLimit := by
  constructor
  · intro hall
    by_contra hT
    obtain ⟨es, u, hrun, hu⟩ := burst_exceeds hL (not_le.mp hT)
    exact hu (hall _ es u hrun 0)
  · intro hT numOps es s hrun e
    rcases Nat.eq_zero_or_pos T with rfl | hpos
    · have hzero : s.returnedBy e = 0 := by simp [returnedBy]
      rw [hzero]
      simpa using Int.mul_nonneg (le_of_lt hL) (by omega : (0 : ℤ) ≤ e + 1)
    · have hTpos : (0 : ℤ) < T := Int.natCast_pos.mpr hpos
      have hshare : opsLimit.tdiv T * T ≤ opsLimit := Bucket.tdiv_mul_le (le_of_lt hL) hTpos
      have hr : 0 < opsLimit.tdiv T := by
        rw [Int.tdiv_eq_ediv_of_nonneg (le_of_lt hL)]
        exact (Int.le_ediv_iff_mul_le hTpos).mpr (by omega)
      have hkept := run_inv (step opsLimit) (fun s e t hs h => allKept_step hL hr hs h) (allKept_init numOps) hrun
      calc (s.returnedBy e : ℤ) * nanos
          ≤ T * ((e + 1) * opsLimit.tdiv T) := returnedBy_le (le_of_lt hr) hkept e
        _ = opsLimit.tdiv T * T * (e + 1) := by ring
        _ ≤ opsLimit * (e + 1) := Int.mul_le_mul_of_nonneg_right hshare (by omega)

theorem rate_bounded_three : (0 : ℤ) < 10 ∧ ∀ (numOps : Fin 3 → ℕ) es s,
    run (step 10) (init numOps) es = some s → ∀ e : ℕ, (s.returnedBy e : ℤ) * nanos ≤ 10 * (e + 1) :=
  ⟨by decide, (rate_bounded (T := 3) (by decide)).mpr (by decide)⟩

/-- One operation a second for two threads: the first returns from two calls at time zero. -/
theorem unlimited : ∃ es u, run (step 1) (init fun _ : Fin 2 => 2) es = some u ∧ u.returnedBy 0 = 2 ∧
    ¬ (u.returnedBy 0 : ℤ) * nanos ≤ 1 * ((0 : ℕ) + 1) := by
  refine ⟨[.start, .consume 0, .ret 0, .consume 0, .ret 0], _, rfl, ?_, ?_⟩
  · rfl
  · decide

end Limits

end Ycsb
