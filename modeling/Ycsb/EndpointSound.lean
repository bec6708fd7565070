import Ycsb.Endpoint

/-!
# Endpoints stay apart

The ids of the live objects are distinct and the nexus stays, as long as no
thread initialises when the counter stands at the id of a live object or between
the last `fetch_sub` and the reset of the nexus.
-/

namespace Ycsb

open Lib Threads

namespace EndpointRun

variable {T : ℕ} {st : Fin T → Stage} {b : Endpoints T} {i : Fin T} {a : EndpointAct} {g : Stage}

structure Good (b : Endpoints T) : Prop where
  distinct : ∀ i j p q, b.rpc i = some p → b.rpc j = some q → p.rpcId = q.rpcId → i = j
  nexus : (∃ i, (b.rpc i).isSome) → b.nexus.isSome

/-- An object is initialised when the counter is at no live object's id and no
thread is between the last `fetch_sub` and the reset. -/
def InitApart (b : Endpoints T) (_ : Fin T) (a : EndpointAct) : Prop :=
  a = .init → (∀ j p, b.rpc j = some p → p.rpcId ≠ b.globalRpcId) ∧ ∀ j, b.lastOut j = false

/-! ## The invariant -/

structure Fits (st : Fin T → Stage) (b : Endpoints T) : Prop where
  live : ∀ i, (b.rpc i).isSome ↔ st i = .live
  count : b.globalRpcId.val = (having Stage.Held st).card
  distinct : ∀ i j p q, b.rpc i = some p → b.rpc j = some q → p.rpcId = q.rpcId → i = j
  leaving : ∀ i, b.lastOut i = true → (st i).Leaving
  alone : ∀ i, b.lastOut i = true → ∀ j, ¬ (st j).Held
  single : ∀ i j, b.lastOut i = true → b.lastOut j = true → i = j
  onNexus : ∀ i p, b.rpc i = some p → b.nexus = some p.nexus
  held : ∀ i, (st i).Held → b.nexus.isSome
  undeleted : (∀ i, b.lastOut i = false) → ∀ n, b.nexus = some n → n ∉ b.deleted
  made : ∀ n, n ∈ b.deleted ∨ b.nexus = some n → n < b.made

theorem fits_static : Fits (fun _ : Fin T => .idle) .static := by
  have hnone : having Stage.Held (fun _ : Fin T => Stage.idle) = ∅ := by
    ext i
    simp [mem_having, Stage.Held]
  constructor
  · exact fun i => by simp [Endpoints.static]
  · rw [hnone]; rfl
  · intro i j p q hp
    cases hp
  · intro i hi
    cases hi
  · intro i hi
    cases hi
  · intro i j hi
    cases hi
  · intro i p hp
    cases hp
  · intro i hi
    rcases hi with hi | hi <;> cases hi
  · intro _ n hn
    cases hn
  · intro n hn
    rcases hn with hn | hn <;> cases hn

theorem Fits.good (h : Fits st b) : Good b :=
  ⟨h.distinct, fun ⟨i, hi⟩ => h.held i (Or.inl ((h.live i).mp hi))⟩

theorem Fits.nexus_undeleted (h : Fits st b) {p : RpcObject} (hp : b.rpc i = some p) :
    b.nexus = some p.nexus ∧ p.nexus ∉ b.deleted := by
  have hn := h.onNexus i p hp
  refine ⟨hn, h.undeleted (fun j => ?_) _ hn⟩
  by_contra hj
  have hlive := (h.live i).mp (by rw [hp]; rfl)
  exact h.alone j (by simpa using hj) i (Or.inl hlive)

/-! ### One lemma for each step -/

theorem init_eq (b : Endpoints T) (i : Fin T) : ∃ n m,
    b.init i = { b with
      nexus := some n, made := m, globalRpcId := b.globalRpcId + 1
      rpc := Function.update b.rpc i (some ⟨n, b.globalRpcId⟩) } ∧
      (b.nexus = some n ∧ m = b.made ∨ b.nexus = none ∧ n = b.made ∧ m = b.made + 1) := by
  cases hn : b.nexus with
  | some n => exact ⟨n, b.made, by simp [Endpoints.init, Endpoints.ensureNexus, hn], Or.inl ⟨rfl, rfl⟩⟩
  | none => exact ⟨b.made, b.made + 1, by simp [Endpoints.init, Endpoints.ensureNexus, hn], Or.inr ⟨rfl, rfl, rfl⟩⟩

theorem Fits.room (hT : T ≤ 255) (h : Fits st b) (hi : st i = .idle) : b.globalRpcId.val < 255 := by
  have hidle : ¬ (st i).Held := by simp [Stage.Held, hi]
  have hcard := having_enter (x := Stage.live) hidle (Or.inl rfl)
  have hbound : (having Stage.Held (Function.update st i .live)).card ≤ T :=
    le_of_le_of_eq having_le (Fintype.card_fin T)
  rw [h.count]
  omega

theorem distinct_update {rpc : Fin T → Option RpcObject} {p : RpcObject}
    (h : ∀ j k q r, rpc j = some q → rpc k = some r → q.rpcId = r.rpcId → j = k)
    (hnew : ∀ j q, rpc j = some q → q.rpcId ≠ p.rpcId) (j k : Fin T) (q r : RpcObject)
    (hq : Function.update rpc i (some p) j = some q) (hr : Function.update rpc i (some p) k = some r)
    (hqr : q.rpcId = r.rpcId) : j = k := by
  refine apart_update (P := fun n a => ∃ q : RpcObject, a = some q ∧ q.rpcId = n) ?_ ?_ j k r.rpcId ⟨q, hq, hqr⟩
    ⟨r, hr, rfl⟩
  · rintro n ⟨q, hq, rfl⟩ j _ ⟨r, hr, hqr⟩
    obtain rfl := Option.some.inj hq
    exact hnew j r hr hqr
  · rintro j k n ⟨q, hq, rfl⟩ ⟨r, hr, hqr⟩
    exact h j k q r hq hr hqr.symm

theorem Fits.made_init (h : Fits st b) {n m : ℕ}
    (hn : b.nexus = some n ∧ m = b.made ∨ b.nexus = none ∧ n = b.made ∧ m = b.made + 1) :
    ∀ k, k ∈ b.deleted ∨ some n = some k → k < m := by
  have hold : ∀ k, k ∈ b.deleted ∨ b.nexus = some k → k < m := by
    intro k hk
    have := h.made k hk
    rcases hn with ⟨_, rfl⟩ | ⟨_, _, rfl⟩ <;> omega
  intro k hk
  rcases hk with hk | hk
  · exact hold k (Or.inl hk)
  · obtain rfl : n = k := Option.some.inj hk
    rcases hn with ⟨hn, _⟩ | ⟨_, rfl, rfl⟩
    · exact hold n (Or.inr hn)
    · exact Nat.lt_succ_self _

theorem Fits.init (hT : T ≤ 255) (h : Fits st b) (hi : st i = .idle) (hok : InitApart b i .init) :
    Fits (Function.update st i .live) (b.init i) := by
  obtain ⟨hid, hlast⟩ := hok rfl
  obtain ⟨n, m, hinit, hn⟩ := init_eq b i
  have hidle : ¬ (st i).Held := by simp [Stage.Held, hi]
  have hcard := having_enter (x := Stage.live) hidle (Or.inl rfl)
  have hlt := h.room hT hi
  have hnexus : ∀ k, b.nexus = some k → k = n := by
    intro k hk
    rcases hn with ⟨hn, _⟩ | ⟨hn, _⟩
    · rw [hk] at hn
      exact Option.some.inj hn
    · rw [hk] at hn
      cases hn
  -- an endpoint that is there is used again
  rw [hinit]
  constructor
  · intro j
    by_cases hj : j = i
    · subst hj; simp
    · simpa [hj] using h.live j
  · rw [hcard, byte_succ hlt, h.count]
  · exact distinct_update h.distinct hid
  · intro j hj
    rw [hlast j] at hj
    cases hj
  · intro j hj
    rw [hlast j] at hj
    cases hj
  · exact h.single
  · refine forall_update (P := fun _ x => ∀ p : RpcObject, x = some p → some n = some p.nexus) ?_ ?_
    · intro p hp
      rw [← Option.some.inj hp]
    · intro j _ p hp
      rw [hnexus _ (h.onNexus j p hp)]
  · exact fun _ _ => rfl
  · intro _ k hk
    obtain rfl : n = k := Option.some.inj hk
    rcases hn with ⟨hn, _⟩ | ⟨_, rfl, _⟩
    · exact h.undeleted hlast n hn
    · exact fun hdel => absurd (h.made _ (Or.inl hdel)) (Nat.lt_irrefl _)
  · exact h.made_init hn

theorem Fits.deleteRpc (h : Fits st b) (hi : st i = .live) : Fits (Function.update st i .counted) (b.deleteRpc i) := by
  have hheld : ∀ j, (Function.update st i .counted j).Held ↔ (st j).Held := by
    refine forall_update (P := fun j (g : Stage) => g.Held ↔ (st j).Held) ?_ fun _ _ => Iff.rfl
    rw [hi]
    exact ⟨fun _ => Or.inl rfl, fun _ => Or.inr rfl⟩
  have hold : ∀ j p, (b.deleteRpc i).rpc j = some p → b.rpc j = some p := by
    refine forall_update (P := fun j x => ∀ p, x = some p → b.rpc j = some p) ?_ fun _ _ _ hp => hp
    intro p hp
    cases hp
  constructor
  · intro j
    by_cases hj : j = i
    · subst hj; simp [Endpoints.deleteRpc]
    · simpa [Endpoints.deleteRpc, hj] using h.live j
  · rw [having_stay (by rw [hi]; exact ⟨fun _ => Or.inr rfl, fun _ => Or.inl rfl⟩)]
    exact h.count
  · exact fun j k p q hp hq => h.distinct j k p q (hold j p hp) (hold k q hq)
  · intro j hj
    exact absurd (Or.inl hi) (h.alone j hj i)
  · exact fun j hj k hk => h.alone j hj k ((hheld k).mp hk)
  · exact h.single
  · exact fun j p hp => h.onNexus j p (hold j p hp)
  · exact fun j hj => h.held j ((hheld j).mp hj)
  · exact h.undeleted
  · exact h.made

theorem Fits.fetchSub (h : Fits st b) (hi : st i = .counted) : Fits (Function.update st i .released) (b.fetchSub i) := by
  have hheld : (st i).Held := by rw [hi]; exact Or.inr rfl
  have hreleased : ¬ Stage.released.Held := by simp [Stage.Held]
  have hcard := having_leave hheld hreleased
  have hpos : 0 < b.globalRpcId.val := by rw [h.count]; exact having_pos hheld
  -- nobody else may delete the endpoint while an object is held
  have hnone : ∀ j, b.lastOut j = false := by
    intro j
    by_contra hj
    exact h.alone j (by simpa using hj) i hheld
  have hsub : ∀ j, (Function.update st i .released j).Held → (st j).Held :=
    forall_update (P := fun j (g : Stage) => g.Held → (st j).Held) (fun hr => absurd hr hreleased) fun _ _ hj => hj
  have hlast : ∀ j, (b.fetchSub i).lastOut j = true → j = i ∧ b.globalRpcId = 1 := by
    refine forall_update (P := fun j x => x = true → j = i ∧ b.globalRpcId = 1) ?_ ?_
    · exact fun hx => ⟨rfl, of_decide_eq_true hx⟩
    · intro j _ hj
      rw [hnone j] at hj
      cases hj
  constructor
  · intro j
    by_cases hj : j = i
    · subst hj
      have := h.live j
      simp only [hi, reduceCtorEq, iff_false] at this
      simpa [Endpoints.fetchSub] using this
    · simpa [Endpoints.fetchSub, hj] using h.live j
  · have hpred := byte_pred hpos
    have hcount := h.count
    show (b.globalRpcId - 1).val = _
    omega
  · exact h.distinct
  · intro j hj
    rw [(hlast j hj).1, Function.update_self]
    exact Or.inl rfl
  · -- the count was at one, so nothing is held now
    intro j hj k hk
    have hone : b.globalRpcId.val = 1 := by rw [(hlast j hj).2]; rfl
    have hcount := h.count
    have := having_pos hk
    omega
  · intro j k hj hk
    rw [(hlast j hj).1, (hlast k hk).1]
  · exact h.onNexus
  · exact fun j hj => h.held j (hsub j hj)
  · exact fun _ => h.undeleted hnone
  · exact h.made

theorem Fits.leave (h : Fits st b) (hi : (st i).Leaving) (hg : ¬ g.Held) :
    (∀ j, (b.rpc j).isSome ↔ Function.update st i g j = .live) ∧
      b.globalRpcId.val = (having Stage.Held (Function.update st i g)).card ∧
      ∀ j, (Function.update st i g j).Held → (st j).Held := by
  have hnh : ¬ (st i).Held := by
    rcases hi with hi | hi <;> simp [Stage.Held, hi]
  refine ⟨forall_update (P := fun j (g : Stage) => (b.rpc j).isSome ↔ g = .live) ?_ fun j _ => h.live j, ?_, ?_⟩
  · rw [h.live i]
    exact ⟨fun hl => absurd (Or.inl hl) hnh, fun hl => absurd (Or.inl hl) hg⟩
  · rw [having_stay ⟨fun hh => absurd hh hnh, fun hh => absurd hh hg⟩]
    exact h.count
  · exact forall_update (P := fun j (g : Stage) => g.Held → (st j).Held) (fun hr => absurd hr hg) fun _ _ hj => hj

theorem Fits.deleteNexus (h : Fits st b) (hi : st i = .released) :
    Fits (Function.update st i .resetting) (b.deleteNexus i) := by
  have hg : ¬ Stage.resetting.Held := by simp [Stage.Held]
  obtain ⟨hlive, hcount, hheld⟩ := h.leave (Or.inl hi) hg
  have hleaving : ∀ j, b.lastOut j = true → (Function.update st i .resetting j).Leaving :=
    forall_update (P := fun j (g : Stage) => b.lastOut j = true → g.Leaving) (fun _ => Or.inr rfl) fun j _ => h.leaving j
  have halone : ∀ j, b.lastOut j = true → ∀ k, ¬ (Function.update st i .resetting k).Held :=
    fun j hj k hk => h.alone j hj k (hheld k hk)
  unfold Endpoints.deleteNexus
  by_cases hlast : b.lastOut i = true
  · rw [if_pos hlast]
    refine ⟨hlive, hcount, h.distinct, hleaving, halone, h.single, h.onNexus, fun j hj => h.held j (hheld j hj), ?_, ?_⟩
    · intro hnone
      rw [hnone i] at hlast
      cases hlast
    · intro n hn
      rcases hn with hn | hn
      · rcases List.mem_append.mp hn with hn | hn
        · exact h.made n (Or.inl hn)
        · exact h.made n (Or.inr (Option.mem_toList.mp hn))
      · exact h.made n (Or.inr hn)
  · rw [if_neg hlast]
    exact ⟨hlive, hcount, h.distinct, hleaving, halone, h.single, h.onNexus, fun j hj => h.held j (hheld j hj),
      h.undeleted, h.made⟩

theorem Fits.resetNexus (h : Fits st b) (hi : st i = .resetting) :
    Fits (Function.update st i .idle) (b.resetNexus i) := by
  have hg : ¬ Stage.idle.Held := by simp [Stage.Held]
  obtain ⟨hlive, hcount, hheld⟩ := h.leave (Or.inr hi) hg
  unfold Endpoints.resetNexus
  by_cases hlast : b.lastOut i = true
  · rw [if_pos hlast]
    -- no object is held, and no other thread resets
    have hnone : ∀ j, Function.update b.lastOut i false j = false := by
      refine forall_update (P := fun _ x => x = false) rfl fun j hj => ?_
      by_contra hj'
      exact hj (h.single j i (by simpa using hj') hlast)
    have hfree : ∀ j, ¬ (st j).Held := h.alone i hlast
    refine ⟨hlive, hcount, h.distinct, fun j hj => ?_, fun j hj => ?_, fun j k hj => ?_, fun j p hp => ?_,
      fun j hj => absurd (hheld j hj) (hfree j), fun _ n hn => ?_, fun n hn => ?_⟩
    · exact Bool.noConfusion ((hnone j).symm.trans hj)
    · exact Bool.noConfusion ((hnone j).symm.trans hj)
    · exact Bool.noConfusion ((hnone j).symm.trans hj)
    · exact absurd (Or.inl ((h.live j).mp (by rw [hp]; rfl))) (hfree j)
    · cases hn
    · rcases hn with hn | hn
      · exact h.made n (Or.inl hn)
      · cases hn
  · rw [if_neg hlast]
    have hleaving : ∀ j, b.lastOut j = true → (Function.update st i .idle j).Leaving :=
      forall_update (P := fun j (g : Stage) => b.lastOut j = true → g.Leaving) (fun hj => absurd hj hlast)
        fun j _ => h.leaving j
    exact ⟨hlive, hcount, h.distinct, hleaving, fun j hj k hk => h.alone j hj k (hheld k hk), h.single, h.onNexus,
      fun j hj => h.held j (hheld j hj), h.undeleted, h.made⟩

theorem Fits.act (hT : T ≤ 255) (h : Fits st b) (hok : InitApart b i a) (hg : (st i).next a = some g) :
    Fits (Function.update st i g) (b.act i a) := by
  rcases Stage.next_cases hg with ⟨hi, rfl, rfl⟩ | ⟨hi, rfl, rfl⟩ | ⟨hi, rfl, rfl⟩ | ⟨hi, rfl, rfl⟩ | ⟨hi, rfl, rfl⟩ |
    ⟨hi, rfl, rfl⟩
  · exact h.init hT hi hok
  · rw [← hi, Function.update_eq_self]
    exact h
  · exact h.deleteRpc hi
  · exact h.fetchSub hi
  · exact h.deleteNexus hi
  · exact h.resetNexus hi

/-! ### Runs -/

def Sound (r : Fin T → List EndpointAct) (b : Endpoints T) : Prop :=
  ∃ st, (∀ i, run Stage.next (st i) (r i) = some .idle) ∧ Fits st b

theorem sound_step (hT : T ≤ 255) : ∀ (r : Fin T → List EndpointAct) (b : Endpoints T) (i : Fin T) (a : EndpointAct)
    (rest : List EndpointAct), Sound r b → r i = a :: rest → InitApart b i a →
      Sound (Function.update r i rest) (b.act i a) := by
  intro r b i a rest hI hr hok
  obtain ⟨st, hst, hfits⟩ := hI
  have hi := hst i
  rw [hr] at hi
  obtain ⟨g, hg, hrest⟩ := (run_cons_some Stage.next).mp hi
  refine ⟨Function.update st i g, fun j => ?_, hfits.act hT hok hg⟩
  by_cases hj : j = i
  · subst hj
    rw [Function.update_self, Function.update_self]
    exact hrest
  · rw [Function.update_of_ne hj, Function.update_of_ne hj]
    exact hst j

theorem sound_start (reInit : Bool) (v : Invocation T) : Sound (start reInit v).remaining (start reInit v).shared := by
  refine ⟨fun _ => .idle, fun i => ?_, fits_static⟩
  obtain ⟨doLoad, doTransaction, loadOps, runOps⟩ := v
  have hload := fun c => Stage.run_clientThread (loadOps i) true c
  have hrun := fun c => Stage.run_clientThread (runOps i) c true
  cases doLoad <;> cases doTransaction
  · rfl
  · simpa [start, remaining, Threads.init, Invocation.phases] using hrun true
  · simpa [start, remaining, Threads.init, Invocation.phases] using hload true
  · cases reInit with
    | false =>
      simpa [start, remaining, Threads.init, Invocation.phases] using run_append_some _ (hload false) (hrun false)
    | true =>
      simpa [start, remaining, Threads.init, Invocation.phases] using run_append_some _ (hload true) (hrun true)

theorem sound_run (hT : T ≤ 255) {reInit : Bool} {v : Invocation T} {es : List (ThreadEvent (Fin T))}
    {u : EndpointRun T} (hrun : run step (start reInit v) es = some u)
    (hC : Along step (OnAction InitApart) (start reInit v) es) : Sound u.remaining u.shared :=
  run_remaining (sound_step hT) (sound_start reInit v) hC hrun

/-! ## Invocations -/

theorem Sound.idle {r : Fin T → List EndpointAct} (h : ∀ j, run Stage.next (st j) (r j) = some .idle)
    {rest : List EndpointAct} (hr : r i = .init :: rest) : st i = .idle := by
  have hi := h i
  rw [hr] at hi
  obtain ⟨g, hg, _⟩ := (run_cons_some Stage.next).mp hi
  exact Stage.next_init hg

theorem initApart_alone (hT : T ≤ 1) {s : EndpointRun T} (h : Sound s.remaining s.shared)
    (e : ThreadEvent (Fin T)) : OnAction InitApart s e := by
  intro i a hnext ha
  subst ha
  obtain ⟨st, hst, hfits⟩ := h
  obtain ⟨_, rest, htodo⟩ := next_eq hnext
  have hr : s.remaining i = .init :: (rest ++ (s.phases.map fun p => p i).flatten) := by rw [remaining, htodo]; rfl
  have hidle := Sound.idle hst hr
  refine ⟨fun j p hp => ?_, fun j => ?_⟩
  · obtain rfl : i = j := Fin.ext (by omega)
    have hlive := (hfits.live i).mp (by rw [hp]; rfl)
    rw [hidle] at hlive
    cases hlive
  · obtain rfl : i = j := Fin.ext (by omega)
    by_contra hlast
    rcases hfits.leaving i (by simpa using hlast) with hl | hl <;> rw [hidle] at hl <;> cases hl

/-! ### Load then run on the same connection -/

/-- No thread has begun to clean up. -/
structure Early (b : Endpoints T) : Prop where
  below : ∀ i p, b.rpc i = some p → p.rpcId.val < b.globalRpcId.val
  none : ∀ i, b.lastOut i = false

theorem Early.initApart (h : Early b) : InitApart b i a := by
  intro _
  refine ⟨fun j p hp hid => ?_, h.none⟩
  have := h.below j p hp
  rw [hid] at this
  exact Nat.lt_irrefl _ this

theorem Early.act (hT : T ≤ 255) (h : Early b) (hfits : Fits st b) (hg : (st i).next a = some g)
    (ha : a = .init ∨ a = .op) : Early (b.act i a) := by
  rcases ha with rfl | rfl
  · obtain ⟨n, m, hinit, _⟩ := init_eq b i
    have hlt := hfits.room hT (Stage.next_init hg)
    show Early (b.init i)
    rw [hinit]
    refine ⟨forall_update (P := fun _ x => ∀ p : RpcObject, x = some p → p.rpcId.val < (b.globalRpcId + 1).val)
      ?_ fun j _ p hp => ?_, h.none⟩
    · intro p hp
      rw [← Option.some.inj hp, byte_succ hlt]
      exact Nat.lt_succ_self _
    · rw [byte_succ hlt]
      exact Nat.lt_succ_of_lt (h.below j p hp)
  · exact h

structure Orderly (v : Invocation T) (s : EndpointRun T) : Prop where
  sound : Sound s.remaining s.shared
  last : LastPhase (fun a => a = .init ∨ a = .op) (fun i => clientThread endpointCode (v.runOps i) false true) s
  early : s.phases ≠ [] → Early s.shared

theorem not_init_mem (n : ℕ) : EndpointAct.init ∉ clientThread endpointCode n false true := by
  simp [clientThread, endpointCode]

theorem Orderly.initApart {v : Invocation T} {s : EndpointRun T} (h : Orderly v s) (e : ThreadEvent (Fin T)) :
    OnAction InitApart s e := by
  intro i a hnext
  cases h.last with
  | before ps hp => exact (h.early (by simp [hp])).initApart
  | last _ ht =>
    intro ha
    subst ha
    obtain ⟨_, rest, htodo⟩ := next_eq hnext
    have hmem : EndpointAct.init ∈ s.todo i := by rw [htodo]; exact List.mem_cons_self
    exact absurd ((ht i).subset hmem) (not_init_mem _)

theorem Orderly.step (hT : T ≤ 255) {v : Invocation T} {s t : EndpointRun T} {e : ThreadEvent (Fin T)}
    (h : Orderly v s) (hstep : EndpointRun.step s e = some t) : Orderly v t := by
  refine ⟨step_remaining (sound_step hT) s e t h.sound (h.initApart e) hstep, h.last.step hstep, ?_⟩
  cases e with
  | act i =>
    obtain ⟨a, rest, hi, rfl⟩ := step_act hstep
    intro hphases
    obtain ⟨st, hst, hfits⟩ := h.sound
    have hr := hst i
    rw [remaining, hi, List.cons_append] at hr
    obtain ⟨g, hg, _⟩ := (run_cons_some Stage.next).mp hr
    apply (h.early hphases).act hT hfits hg
    cases h.last with
    | before ps hp hps ht => exact ht i a (by rw [hi]; exact List.mem_cons_self)
    | last hp ht => exact absurd hp hphases
  | phase =>
    obtain ⟨p, ps, _, hp, rfl⟩ := step_phase hstep
    exact fun _ => h.early (by simp [hp])

theorem orderly_start {reInit : Bool} {v : Invocation T} (hv : v.InitFirst reInit) : Orderly v (start reInit v) := by
  have hearly : Early (.static : Endpoints T) := by
    refine ⟨fun i p hp => ?_, fun _ => rfl⟩
    cases hp
  refine ⟨sound_start reInit v, ?_, fun _ => hearly⟩
  rcases Invocation.phases_initFirst endpointCode hv with hp | hp
  · exact .last hp fun _ => List.nil_suffix
  · refine .before [_] hp ?_ fun _ a ha => by cases ha
    intro p hp i a ha
    rw [List.mem_singleton.mp hp] at ha
    simp only [clientThread, endpointCode, if_true, Bool.false_eq_true, if_false, List.append_nil, List.mem_append,
      List.mem_singleton] at ha
    exact ha.imp_right List.eq_of_mem_replicate

theorem apart_along (hT : T ≤ 255) {reInit : Bool} {v : Invocation T} (hv : T ≤ 1 ∨ v.InitFirst reInit)
    (es : List (ThreadEvent (Fin T))) : Along step (OnAction InitApart) (start reInit v) es := by
  rcases hv with h1 | hv
  · exact Along.of_inv step (I := fun s => Sound s.remaining s.shared) (fun s e h => initApart_alone h1 h e)
      (fun s e t h ht => step_remaining (sound_step hT) s e t h (initApart_alone h1 h e) ht) es _ (sound_start reInit v)
  · exact Along.of_inv step (I := Orderly v) (fun s e h => h.initApart e) (fun s e t h ht => h.step hT ht) es _
      (orderly_start hv)

/-! ### A thread that initialises while another cleans up -/

theorem not_good_reset (hi : (b.rpc i).isSome) {j : Fin T} (hlast : b.lastOut j = true) :
    ¬ Good (b.resetNexus j) := by
  unfold Endpoints.resetNexus
  rw [if_pos hlast]
  intro hgood
  have hnexus := hgood.nexus ⟨i, hi⟩
  cases hnexus

theorem deleteNexus_eq (b : Endpoints T) (j : Fin T) : ∃ l, b.deleteNexus j = { b with deleted := l } := by
  unfold Endpoints.deleteNexus
  by_cases hlast : b.lastOut j = true
  · exact ⟨_, if_pos hlast⟩
  · exact ⟨_, if_neg hlast⟩

def PhasesEnter (s : EndpointRun T) : Prop :=
  ∀ p ∈ s.phases, ∀ i a rest, p i = a :: rest → a ≠ .deleteNexus ∧ a ≠ .resetNexus

theorem phasesEnter_start (reInit : Bool) (v : Invocation T) : PhasesEnter (start reInit v) := by
  have hhead : ∀ n c d a rest, clientThread endpointCode n c d = a :: rest → a ≠ .deleteNexus ∧ a ≠ .resetNexus := by
    intro n c d a rest h
    cases c <;> cases d <;> cases n <;> simp [clientThread, endpointCode, List.replicate_succ] at h <;>
      exact h.1 ▸ ⟨by decide, by decide⟩
  intro p hp i a rest h
  simp only [start, Threads.init, Invocation.phases, List.mem_append] at hp
  rcases hp with hp | hp
  · split at hp
    · rw [List.mem_singleton.mp hp] at h
      exact hhead _ _ _ _ _ h
    · cases hp
  · split at hp
    · rw [List.mem_singleton.mp hp] at h
      exact hhead _ _ _ _ _ h
    · cases hp

theorem PhasesEnter.step {s t : EndpointRun T} {e : ThreadEvent (Fin T)} (h : PhasesEnter s)
    (hstep : EndpointRun.step s e = some t) : PhasesEnter t := by
  cases e with
  | act i =>
    obtain ⟨a, rest, _, rfl⟩ := step_act hstep
    exact h
  | phase =>
    obtain ⟨p, ps, _, hp, rfl⟩ := step_phase hstep
    exact fun p' hp' => h p' (hp ▸ List.mem_cons_of_mem p hp')

theorem PhasesEnter.leaving {s : EndpointRun T} (h : PhasesEnter s) {a : EndpointAct} {rest : List EndpointAct}
    (hr : s.remaining i = a :: rest) (ha : a = .deleteNexus ∨ a = .resetNexus) : ∃ l, s.todo i = a :: l := by
  rcases head_remaining hr with htodo | ⟨p, hp, l, hpi⟩
  · exact htodo
  · have hne := h p hp i a l hpi
    rcases ha with ha | ha
    · exact absurd ha hne.1
    · exact absurd ha hne.2

theorem reset_follows {t : EndpointRun T} (hp : PhasesEnter t) {j : Fin T} {l : List EndpointAct}
    (hr : t.remaining j = .resetNexus :: l) (hlast : t.shared.lastOut j = true) (hi : (t.shared.rpc i).isSome) :
    ∃ es u, run step t es = some u ∧ ¬ Good u.shared := by
  obtain ⟨l', htodo⟩ := hp.leaving hr (Or.inr rfl)
  let u : EndpointRun T := { t with todo := Function.update t.todo j l', shared := t.shared.resetNexus j }
  have hstep : step t (.act j) = some u := by simp [u, EndpointRun.step, Threads.step, htodo, Endpoints.act]
  exact ⟨[.act j], u, (run_cons_some step).mpr ⟨u, hstep, rfl⟩, not_good_reset hi hlast⟩

theorem leaving_follows {t : EndpointRun T} (hp : PhasesEnter t) {j : Fin T} (hg : g.Leaving)
    (hr : run Stage.next g (t.remaining j) = some .idle) (hlast : t.shared.lastOut j = true)
    (hi : (t.shared.rpc i).isSome) : ∃ es u, run step t es = some u ∧ ¬ Good u.shared := by
  rcases hg with rfl | rfl
  · obtain ⟨l, hrem, hl⟩ := Stage.released_run hr
    obtain ⟨rest, rfl⟩ := Stage.resetting_run hl
    obtain ⟨l', htodo⟩ := hp.leaving hrem (Or.inl rfl)
    obtain ⟨d, hd⟩ := deleteNexus_eq t.shared j
    let t' : EndpointRun T := { t with todo := Function.update t.todo j l', shared := t.shared.deleteNexus j }
    have hstep : step t (.act j) = some t' := by simp [t', EndpointRun.step, Threads.step, htodo, Endpoints.act]
    have hrem' : t'.remaining j = .resetNexus :: rest := by
      rw [remaining, htodo, List.cons_append] at hrem
      simp only [t', remaining, Function.update_self]
      exact (List.cons.inj hrem).2
    have hlast' : t'.shared.lastOut j = true := by simp [t', hd, hlast]
    have hi' : (t'.shared.rpc i).isSome := by simp [t', hd, hi]
    obtain ⟨es, u, hrun, hu⟩ := reset_follows (hp.step hstep) hrem' hlast' hi'
    exact ⟨_, u, (run_cons_some step).mpr ⟨t', hstep, hrun⟩, hu⟩
  · obtain ⟨rest, hrem⟩ := Stage.resetting_run hr
    exact reset_follows hp hrem hlast hi

theorem init_breaks {s t : EndpointRun T} {e : ThreadEvent (Fin T)} (h : Sound s.remaining s.shared)
    (hp : PhasesEnter s) (hstep : step s e = some t) (hbad : ¬ OnAction InitApart s e) :
    ∃ es u, run step t es = some u ∧ ¬ Good u.shared := by
  unfold OnAction InitApart at hbad
  push Not at hbad
  obtain ⟨i, a, hnext, rfl, hbad⟩ := hbad
  obtain ⟨st, hst, hfits⟩ := h
  obtain ⟨rfl, rest, htodo⟩ := next_eq hnext
  have hidle : st i = .idle := Sound.idle hst (by rw [remaining, htodo]; rfl)
  obtain ⟨n, m, hinit, _⟩ := init_eq s.shared i
  have ht := hp.step hstep
  obtain ⟨a, rest', htodo', rfl⟩ := step_act hstep
  rw [htodo] at htodo'
  obtain ⟨rfl, rfl⟩ := List.cons.inj htodo'
  have hne : ∀ j, st j ≠ .idle → j ≠ i := fun j hj hji => hj (by rw [hji, hidle])
  by_cases hid : ∃ j p, s.shared.rpc j = some p ∧ p.rpcId = s.shared.globalRpcId
  · obtain ⟨j, p, hj, hid⟩ := hid
    have hji := hne j (by rw [(hfits.live j).mp (by rw [hj]; rfl)]; decide)
    refine ⟨[], _, rfl, fun hgood => hji (hgood.distinct j i p ⟨n, s.shared.globalRpcId⟩ ?_ ?_ hid)⟩
    · simp [Endpoints.act, hinit, hji, hj]
    · simp [Endpoints.act, hinit]
  · push Not at hid
    obtain ⟨j, hj⟩ := hbad hid
    have hlast : s.shared.lastOut j = true := by simpa using hj
    have hleaving := hfits.leaving j hlast
    have hji := hne j (by rcases hleaving with hl | hl <;> rw [hl] <;> decide)
    refine leaving_follows (i := i) (j := j) ht hleaving ?_ ?_ ?_
    · simpa [remaining, hji] using hst j
    · simpa [Endpoints.act, hinit] using hlast
    · simp [Endpoints.act, hinit]

theorem foldl_ops (i : Fin T) : ∀ (n : ℕ) (b : Endpoints T),
    (List.replicate n EndpointAct.op).foldl (fun b a => Endpoints.act i a b) b = b
  | 0, _ => rfl
  | n + 1, b => foldl_ops i n b

theorem take_clientThread (n : ℕ) : ∃ l, clientThread endpointCode n true true = l ++ [.resetNexus] ∧
    ∀ (i : Fin T) (b : Endpoints T), l.foldl (fun b a => Endpoints.act i a b) b =
      (((b.init i).deleteRpc i).fetchSub i).deleteNexus i := by
  refine ⟨.init :: (List.replicate n .op ++ [.deleteRpc, .fetchSub, .deleteNexus]), ?_, fun i b => ?_⟩
  · simp [clientThread, endpointCode]
  · rw [List.foldl_cons, List.foldl_append, foldl_ops]
    rfl

theorem lastOut_deleteNexus (i : Fin T) :
    ((((Endpoints.static.init i).deleteRpc i).fetchSub i).deleteNexus i).lastOut i = true := by
  obtain ⟨l, hl⟩ := deleteNexus_eq (((Endpoints.static.init i).deleteRpc i).fetchSub i) i
  rw [hl]
  simp [Endpoints.fetchSub, Endpoints.deleteRpc, Endpoints.init, Endpoints.ensureNexus, Endpoints.static]

theorem overlap_breaks (hT : 1 < T) {reInit : Bool} {v : Invocation T} (hv : ¬ v.InitFirst reInit) :
    ∃ es u, run step (start reInit v) es = some u ∧ ¬ Good u.shared := by
  obtain ⟨n, ps, hphases⟩ := Invocation.phases_not_initFirst endpointCode hv
  let i₀ : Fin T := ⟨0, by omega⟩
  let i₁ : Fin T := ⟨1, hT⟩
  have hne : i₁ ≠ i₀ := by simp [i₀, i₁]
  let p : Fin T → List EndpointAct := fun i => clientThread endpointCode (n i) true true
  obtain ⟨l, hl, hfold⟩ := take_clientThread (T := T) (n i₀)
  have hphase : step (start reInit v) .phase = some ⟨p, ps, .static⟩ := by
    simp [EndpointRun.step, Threads.step, start, Threads.init, hphases, p]
  let b := ((((Endpoints.static.init i₀).deleteRpc i₀).fetchSub i₀).deleteNexus i₀)
  let s : EndpointRun T := ⟨Function.update p i₀ [.resetNexus], ps, b⟩
  have hs : run step ⟨p, ps, .static⟩ (List.replicate l.length (.act i₀)) = some s := by
    have hp : p i₀ = l ++ [.resetNexus] := hl
    have hrun := run_alone Endpoints.act i₀ l.length ⟨p, ps, .static⟩ (by simp [hp])
    simp only [hp, List.take_left, List.drop_left, hfold] at hrun
    exact hrun
  let t : EndpointRun T := ⟨Function.update s.todo i₁ (p i₁).tail, ps, b.init i₁⟩
  have ht : step s (.act i₁) = some t := by
    simp [s, t, EndpointRun.step, Threads.step, hne, p, clientThread, endpointCode, Endpoints.act]
  have hpre := run_append_some step hs ((run_cons_some step).mpr ⟨t, ht, run_nil step t⟩)
  have hrun := (run_cons_some step).mpr ⟨_, hphase, hpre⟩
  obtain ⟨n', m, hinit, _⟩ := init_eq b i₁
  have hrem : t.remaining i₀ = .resetNexus :: (ps.map fun p => p i₀).flatten := by
    simp [t, s, remaining, hne.symm]
  have henter := run_inv (I := PhasesEnter) step (fun s e t h ht => h.step ht) (phasesEnter_start reInit v) hrun
  obtain ⟨es, u, hes, hu⟩ := reset_follows (i := i₁) henter hrem (by simp [t, hinit, b, lastOut_deleteNexus])
    (by simp [t, hinit])
  exact ⟨_, u, run_append_some step hrun hes, hu⟩

/-- An invocation is good in every interleaving if it is of one thread, or of
load then run on the same connection, and only then. A run is good as long as
every `Init` is apart, and after an `Init` that is not it can go wrong. -/
theorem endpoints_good (hT : T ≤ 255) (reInit : Bool) (v : Invocation T) :
    (∀ es s, run step (start reInit v) es = some s → Along step (OnAction InitApart) (start reInit v) es →
      Good s.shared ∧
      (∀ i p, s.shared.rpc i = some p → s.shared.nexus = some p.nexus ∧ p.nexus ∉ s.shared.deleted) ∧
      ∀ e t, step s e = some t → ¬ OnAction InitApart s e → ∃ es' u, run step t es' = some u ∧ ¬ Good u.shared) ∧
    ((∀ es u, run step (start reInit v) es = some u → Good u.shared) ↔ T ≤ 1 ∨ v.InitFirst reInit) := by
  refine ⟨fun es s hrun hC => ?_, fun hall => ?_, fun hv es u hrun => ?_⟩
  · have hsound := sound_run hT hrun hC
    have henter := run_inv (I := PhasesEnter) step (fun s e t h ht => h.step ht) (phasesEnter_start reInit v) hrun
    obtain ⟨st, _, hfits⟩ := id hsound
    exact ⟨hfits.good, fun i p hp => hfits.nexus_undeleted hp, fun e t ht hbad => init_breaks hsound henter ht hbad⟩
  · by_cases h1 : T ≤ 1
    · exact Or.inl h1
    · right
      by_contra hv
      obtain ⟨es, u, hrun, hu⟩ := overlap_breaks (by omega) hv
      exact hu (hall es u hrun)
  · obtain ⟨_, _, hfits⟩ := sound_run hT hrun (apart_along hT hv es)
    exact hfits.good

theorem endpoints_good_two : 2 ≤ 255 ∧ ∀ es u,
    run step (start SQLiteDB.reInitBeforeTransaction (⟨true, true, fun _ => 3, fun _ => 5⟩ : Invocation 2)) es =
      some u → Good u.shared :=
  ⟨by decide, (endpoints_good (by decide) SQLiteDB.reInitBeforeTransaction
    (⟨true, true, fun _ => 3, fun _ => 5⟩ : Invocation 2)).2.mpr (Or.inr ⟨rfl, fun h => by cases h⟩)⟩

/-- Three threads that load with `RocksdbCli`: the first has cleaned up when the third initialises. -/
theorem id_given_twice : ∃ es u,
    run step (start RocksdbCli.reInitBeforeTransaction (⟨true, false, fun _ => 1, fun _ => 1⟩ : Invocation 3)) es =
      some u ∧ u.shared.rpc 1 = some ⟨0, 1⟩ ∧ u.shared.rpc 2 = some ⟨0, 1⟩ ∧ ¬ Good u.shared := by
  refine ⟨[.phase, .act 0, .act 1, .act 0, .act 0, .act 0, .act 2], _, rfl, rfl, rfl, fun h => ?_⟩
  exact absurd (h.distinct 1 2 ⟨0, 1⟩ ⟨0, 1⟩ rfl rfl rfl) (by decide)

end EndpointRun

end Ycsb
