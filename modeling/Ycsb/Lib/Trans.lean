import Mathlib.Logic.Basic

/-!
# Labelled transition systems

A system is a partial step function: `step s a = none` when `a` cannot happen
in `s`. Invariants and conditions on the steps of a run are proved for one step
and lifted to runs here, once. A machine also answers each event; a machine that
can fail refines one that cannot.
-/

namespace Lib

section
variable {σ α : Type} (step : σ → α → Option σ)

def run : σ → List α → Option σ
  | s, [] => some s
  | s, a :: as => (step s a).bind fun t => run t as

/-- Every event of the run from `s` meets `C` in the state it happens in. -/
def Along (C : σ → α → Prop) : σ → List α → Prop
  | _, [] => True
  | s, a :: as => C s a ∧ ∀ t, step s a = some t → Along C t as

@[simp] theorem run_nil (s : σ) : run step s [] = some s := rfl

theorem run_cons (s : σ) (a : α) (as : List α) :
    run step s (a :: as) = (step s a).bind fun t => run step t as := rfl

theorem run_cons_some {s u : σ} {a : α} {as : List α} :
    run step s (a :: as) = some u ↔ ∃ t, step s a = some t ∧ run step t as = some u := by
  rw [run_cons, Option.bind_eq_some_iff]

theorem run_append (s : σ) (as bs : List α) :
    run step s (as ++ bs) = (run step s as).bind fun t => run step t bs := by
  induction as generalizing s with
  | nil => rfl
  | cons a as ih =>
    rw [List.cons_append, run_cons, run_cons]
    cases step s a with
    | none => rfl
    | some t => exact ih t

theorem run_append_some {s t u : σ} {as bs : List α} (h : run step s as = some t)
    (h' : run step t bs = some u) : run step s (as ++ bs) = some u := by
  rw [run_append, h]; exact h'

/-- The states around one event of a run. -/
theorem run_split {s u : σ} {a : α} : ∀ {as : List α} {i : Nat}, run step s as = some u → as[i]? = some a →
    ∃ t t', run step s (as.take i) = some t ∧ step t a = some t' ∧ run step t' (as.drop (i + 1)) = some u
  | [], _, _, ha => by cases ha
  | b :: as, 0, h, ha => by
    obtain ⟨t, ht, hu⟩ := (run_cons_some step).mp h
    cases ha
    exact ⟨s, t, rfl, ht, hu⟩
  | b :: as, i + 1, h, ha => by
    obtain ⟨v, hv, hu⟩ := (run_cons_some step).mp h
    obtain ⟨t, t', hrun, ht, hrest⟩ := run_split hu ha
    exact ⟨t, t', (run_cons_some step).mpr ⟨v, hv, hrun⟩, ht, hrest⟩

/-! ## Invariants -/

theorem run_inv_along {C : σ → α → Prop} {I : σ → Prop}
    (hstep : ∀ s a t, I s → C s a → step s a = some t → I t) :
    ∀ (as : List α) (s u : σ), I s → Along step C s as → run step s as = some u → I u
  | [], s, u, hI, _, h => by
    simp only [run_nil, Option.some.injEq] at h
    exact h ▸ hI
  | a :: as, s, u, hI, hC, h => by
    obtain ⟨t, ht, hu⟩ := (run_cons_some step).mp h
    exact run_inv_along hstep as t u (hstep s a t hI hC.1 ht) (hC.2 t ht) hu

theorem run_inv {I : σ → Prop} (hstep : ∀ s a t, I s → step s a = some t → I t)
    {as : List α} {s u : σ} (hI : I s) (h : run step s as = some u) : I u := by
  induction as generalizing s with
  | nil => simp only [run_nil, Option.some.injEq] at h; exact h ▸ hI
  | cons a as ih =>
    obtain ⟨t, ht, hu⟩ := (run_cons_some step).mp h
    exact ih (hstep s a t hI ht) hu

/-- As `run_inv_along`, for what relates a state to the events before it. -/
theorem run_inv_trace {C : σ → α → Prop} {I : List α → σ → Prop}
    (hstep : ∀ as s a t, I as s → C s a → step s a = some t → I (as ++ [a]) t) :
    ∀ (as bs : List α) (s u : σ), I bs s → Along step C s as → run step s as = some u → I (bs ++ as) u
  | [], bs, s, u, hI, _, h => by
    simp only [run_nil, Option.some.injEq] at h
    rwa [List.append_nil, ← h]
  | a :: as, bs, s, u, hI, hC, h => by
    obtain ⟨t, ht, hu⟩ := (run_cons_some step).mp h
    have htail := run_inv_trace hstep as (bs ++ [a]) t u (hstep bs s a t hI hC.1 ht) (hC.2 t ht) hu
    rwa [List.append_assoc, List.singleton_append] at htail

theorem Along.cons {C : σ → α → Prop} {s t : σ} {a : α} {as : List α} (hstep : step s a = some t)
    (hC : C s a) (h : Along step C t as) : Along step C s (a :: as) :=
  ⟨hC, fun u hu => by rw [hstep, Option.some.injEq] at hu; exact hu ▸ h⟩

theorem Along.of_inv {C : σ → α → Prop} {I : σ → Prop} (hC : ∀ s a, I s → C s a)
    (hstep : ∀ s a t, I s → step s a = some t → I t) : ∀ (as : List α) (s : σ), I s → Along step C s as
  | [], _, _ => trivial
  | a :: as, s, h => ⟨hC s a h, fun t ht => Along.of_inv hC hstep as t (hstep s a t h ht)⟩

theorem Along.of_forall {C : σ → α → Prop} : ∀ {as : List α} {s : σ}, (∀ a ∈ as, ∀ s, C s a) → Along step C s as
  | [], _, _ => trivial
  | a :: _, s, h =>
    ⟨h a List.mem_cons_self s, fun _ _ => Along.of_forall fun b hb => h b (List.mem_cons_of_mem a hb)⟩

theorem Along.mono {C D : σ → α → Prop} (hCD : ∀ s a, C s a → D s a) : ∀ {as : List α} {s : σ},
    Along step C s as → Along step D s as
  | [], _, _ => trivial
  | _ :: _, s, h => ⟨hCD s _ h.1, fun t ht => Along.mono hCD (h.2 t ht)⟩

theorem Along.and_forall {C : σ → α → Prop} {Q : α → Prop} : ∀ {as : List α} {s : σ}, (∀ a ∈ as, Q a) →
    Along step C s as → Along step (fun s a => C s a ∧ Q a) s as
  | [], _, _, _ => trivial
  | a :: _, _, hQ, h =>
    ⟨⟨h.1, hQ a List.mem_cons_self⟩,
      fun t ht => Along.and_forall (fun b hb => hQ b (List.mem_cons_of_mem a hb)) (h.2 t ht)⟩

theorem Along.strengthen {C P : σ → α → Prop} {I : σ → Prop} (hP : ∀ s a, I s → C s a → P s a)
    (hstep : ∀ s a t, I s → C s a → step s a = some t → I t) :
    ∀ (as : List α) (s : σ), I s → Along step C s as → Along step P s as
  | [], _, _, _ => trivial
  | a :: as, s, h, hC =>
    ⟨hP s a h hC.1, fun t ht => Along.strengthen hP hstep as t (hstep s a t h hC.1 ht) (hC.2 t ht)⟩

/-- On a run that happens, conditions that agree on each step agree throughout. -/
theorem Along.congr_run {C D : σ → α → Prop} {I : σ → Prop}
    (hCD : ∀ s a t, I s → step s a = some t → (C s a ↔ D s a)) (hstep : ∀ s a t, I s → step s a = some t → I t) :
    ∀ (as : List α) (s u : σ), I s → run step s as = some u → (Along step C s as ↔ Along step D s as)
  | [], _, _, _, _ => Iff.rfl
  | a :: as, s, u, hI, hrun => by
    obtain ⟨t, ht, hu⟩ := (run_cons_some step).mp hrun
    have htail := Along.congr_run hCD hstep as t u (hstep s a t hI ht) hu
    have hone : ∀ {E : σ → α → Prop}, Along step E s (a :: as) ↔ E s a ∧ Along step E t as :=
      ⟨fun h => ⟨h.1, h.2 t ht⟩, fun h => Along.cons step ht h.1 h.2⟩
    rw [hone, hone, hCD s a t hI ht, htail]

/-- A run from `s` to `t` whose events meet `C`. -/
def ReachedAlong (C : σ → α → Prop) (s t : σ) : Prop := ∃ as, run step s as = some t ∧ Along step C s as

theorem ReachedAlong.refl {C : σ → α → Prop} (s : σ) : ReachedAlong step C s s := ⟨[], rfl, trivial⟩

theorem Along.append {C : σ → α → Prop} {s t : σ} {as bs : List α} (hrun : run step s as = some t) :
    Along step C s (as ++ bs) ↔ Along step C s as ∧ Along step C t bs := by
  induction as generalizing s with
  | nil =>
    simp only [run_nil, Option.some.injEq] at hrun
    subst hrun
    exact ⟨fun h => ⟨trivial, h⟩, fun h => h.2⟩
  | cons a as ih =>
    obtain ⟨u, hu, hrun⟩ := (run_cons_some step).mp hrun
    constructor
    · intro h
      have h' := (ih hrun).mp (h.2 u hu)
      refine ⟨⟨h.1, fun v hv => ?_⟩, h'.2⟩
      rw [hu, Option.some.injEq] at hv
      exact hv ▸ h'.1
    · intro hh
      obtain ⟨h, h'⟩ := hh
      refine ⟨h.1, fun v hv => ?_⟩
      rw [hu, Option.some.injEq] at hv
      subst hv
      exact (ih hrun).mpr ⟨h.2 u hu, h'⟩

theorem ReachedAlong.trans {C : σ → α → Prop} {s t u : σ} (h : ReachedAlong step C s t) (h' : ReachedAlong step C t u) :
    ReachedAlong step C s u := by
  obtain ⟨as, hrun, hC⟩ := h
  obtain ⟨bs, hrun', hC'⟩ := h'
  exact ⟨as ++ bs, run_append_some step hrun hrun', (Along.append step hrun).mpr ⟨hC, hC'⟩⟩

theorem ReachedAlong.one {C : σ → α → Prop} {s t : σ} {a : α} (h : step s a = some t) (hC : C s a) :
    ReachedAlong step C s t := ⟨[a], (run_cons_some step).mpr ⟨t, h, rfl⟩, hC, fun _ _ => trivial⟩

end

/-! ## Machines with replies -/

section
variable {σ τ α β ε : Type}

def exec (step : σ → α → Except ε (σ × β)) : σ → List α → Except ε (σ × List β)
  | s, [] => .ok (s, [])
  | s, a :: as => (step s a).bind fun r => (exec step r.1 as).map fun r' => (r'.1, r.2 :: r'.2)

theorem exec_append {step : σ → α → Except ε (σ × β)} : ∀ {as bs : List α} {s t u : σ} {rs rs' : List β},
    exec step s as = .ok (t, rs) → exec step t bs = .ok (u, rs') → exec step s (as ++ bs) = .ok (u, rs ++ rs')
  | [], bs, s, t, u, rs, rs', h, h' => by
    cases h
    exact h'
  | a :: as, bs, s, t, u, rs, rs', h, h' => by
    rw [exec] at h
    rw [List.cons_append, exec]
    cases hs : step s a with
    | error e =>
      rw [hs] at h
      cases h
    | ok r =>
      simp only [hs, Except.bind] at h ⊢
      cases hr : exec step r.1 as with
      | error e =>
        rw [hr] at h
        cases h
      | ok r' =>
        rw [hr] at h
        cases h
        rw [exec_append hr h']
        rfl

theorem exec_one {step : σ → α → Except ε (σ × β)} {s t : σ} {a : α} {r : β} (h : step s a = .ok (t, r)) :
    exec step s [a] = .ok (t, [r]) := by
  simp only [exec, h, Except.bind, Except.map]

theorem exec_forall {γ : Type} {step : σ → α → Except ε (σ × β)} {P : α → β → Prop}
    (hstep : ∀ s a s' r, step s a = .ok (s', r) → P a r) {f : γ → α} {g : γ → β} : ∀ {l : List γ} {s s' : σ},
    exec step s (l.map f) = .ok (s', l.map g) → ∀ x ∈ l, P (f x) (g x)
  | [], _, _, _, x, hx => by cases hx
  | y :: l, s, s', h, x, hx => by
    rw [List.map_cons, exec] at h
    cases hs : step s (f y) with
    | error e =>
      rw [hs] at h
      cases h
    | ok p =>
      simp only [hs, Except.bind] at h
      cases hq : exec step p.1 (l.map f) with
      | error e =>
        rw [hq] at h
        cases h
      | ok q =>
        rw [hq, Except.map, Except.ok.injEq, Prod.mk.injEq, List.map_cons, List.cons.injEq] at h
        obtain ⟨_, hp, hl⟩ := h
        rw [Prod.eta q |>.symm, hl] at hq
        rcases List.mem_cons.mp hx with rfl | hx
        · exact hp ▸ hstep s _ p.1 p.2 hs
        · exact exec_forall hstep hq x hx

def respond (spec : τ → α → τ × β) : τ → List α → τ × List β
  | t, [] => (t, [])
  | t, a :: as =>
    let r := respond spec (spec t a).1 as
    (r.1, (spec t a).2 :: r.2)

def Legal (spec : τ → α → τ × β) (W : τ → α → Prop) : τ → List α → Prop
  | _, [] => True
  | t, a :: as => W t a ∧ Legal spec W (spec t a).1 as

theorem Legal.of_forall {spec : τ → α → τ × β} {V : α → Prop} : ∀ {as : List α} {t : τ}, (∀ a ∈ as, V a) →
    Legal spec (fun _ => V) t as
  | [], _, _ => trivial
  | a :: _, _, h => ⟨h a List.mem_cons_self, Legal.of_forall fun b hb => h b (List.mem_cons_of_mem a hb)⟩

theorem exec_refines {step : σ → α → Except ε (σ × β)} {spec : τ → α → τ × β} {R : σ → τ → Prop}
    {W : τ → α → Prop}
    (hstep : ∀ s t a, R s t → W t a → ∃ s', step s a = .ok (s', (spec t a).2) ∧ R s' (spec t a).1) :
    ∀ (as : List α) (s : σ) (t : τ), R s t → Legal spec W t as →
      ∃ s', exec step s as = .ok (s', (respond spec t as).2) ∧ R s' (respond spec t as).1
  | [], s, t, hR, _ => ⟨s, rfl, hR⟩
  | a :: as, s, t, hR, hW => by
    obtain ⟨s', hs, hR'⟩ := hstep s t a hR hW.1
    obtain ⟨u, hu, hRu⟩ := exec_refines hstep as s' _ hR' hW.2
    exact ⟨u, by simp only [exec, hs, Except.bind, hu, Except.map, respond], hRu⟩

/-- Where every step that succeeds agrees with the spec, so does every run that succeeds. -/
theorem exec_sound {step : σ → α → Except ε (σ × β)} {spec : τ → α → τ × β} {R : σ → τ → Prop} {W : α → Prop}
    (hstep : ∀ s t a s' r, R s t → W a → step s a = .ok (s', r) → (spec t a).2 = r ∧ R s' (spec t a).1) :
    ∀ (as : List α) (s s' : σ) (t : τ) (rs : List β), R s t → (∀ a ∈ as, W a) → exec step s as = .ok (s', rs) →
      (respond spec t as).2 = rs ∧ R s' (respond spec t as).1
  | [], s, s', t, rs, hR, _, h => by
    cases h
    exact ⟨rfl, hR⟩
  | a :: as, s, s', t, rs, hR, hW, h => by
    rw [exec] at h
    cases hs : step s a with
    | error e =>
      rw [hs] at h
      cases h
    | ok p =>
      simp only [hs, Except.bind] at h
      cases hp : exec step p.1 as with
      | error e =>
        rw [hp] at h
        cases h
      | ok q =>
        rw [hp] at h
        cases h
        obtain ⟨hr, hR'⟩ := hstep s t a p.1 p.2 hR (hW a List.mem_cons_self) hs
        obtain ⟨hrs, hRu⟩ := exec_sound hstep as p.1 _ _ _ hR' (fun b hb => hW b (List.mem_cons_of_mem a hb)) hp
        exact ⟨by rw [respond, hr, hrs], hRu⟩

theorem exec_error {step : σ → α → Except ε (σ × β)} {a : α} {after : List α} {e : ε} :
    ∀ {before : List α} {s t : σ} {rs : List β}, exec step s before = .ok (t, rs) → step t a = .error e →
      exec step s (before ++ a :: after) = .error e
  | [], s, t, rs, h, ha => by
    cases h
    rw [List.nil_append, exec, ha]
    rfl
  | b :: before, s, t, rs, h, ha => by
    rw [exec] at h
    cases hs : step s b with
    | error e' =>
      rw [hs] at h
      cases h
    | ok p =>
      simp only [hs, Except.bind] at h
      cases hp : exec step p.1 before with
      | error e' =>
        rw [hp] at h
        cases h
      | ok q =>
        rw [hp] at h
        cases h
        rw [List.cons_append, exec, hs]
        exact congrArg (Except.map _) (exec_error hp ha)

/-- A run answers as the spec, up to the first event that fails. -/
theorem exec_until {step : σ → α → Except ε (σ × β)} {spec : τ → α → τ × β} {R : σ → τ → Prop} {V : α → Prop}
    (hstep : ∀ s t a s' r, R s t → V a → step s a = .ok (s', r) → (spec t a).2 = r ∧ R s' (spec t a).1) :
    ∀ (as : List α) (s : σ) (t : τ), R s t → (∀ a ∈ as, V a) →
      (∃ s', exec step s as = .ok (s', (respond spec t as).2) ∧ R s' (respond spec t as).1) ∨
        ∃ before a after s' e, as = before ++ a :: after ∧
          exec step s before = .ok (s', (respond spec t before).2) ∧ R s' (respond spec t before).1 ∧
            step s' a = .error e
  | [], s, t, hR, _ => Or.inl ⟨s, rfl, hR⟩
  | a :: as, s, t, hR, hV => by
    cases hs : step s a with
    | error e => exact Or.inr ⟨[], a, as, s, e, rfl, rfl, hR, hs⟩
    | ok p =>
      obtain ⟨hr, hR'⟩ := hstep s t a p.1 p.2 hR (hV a List.mem_cons_self) hs
      rcases exec_until hstep as p.1 _ hR' fun b hb => hV b (List.mem_cons_of_mem a hb) with
        ⟨u, hu, hRu⟩ | ⟨before, b, after, u, e, rfl, hu, hRu, hb⟩
      · exact Or.inl ⟨u, by simp only [exec, hs, Except.bind, hu, Except.map, respond, hr], hRu⟩
      · refine Or.inr ⟨a :: before, b, after, u, e, rfl, ?_, hRu, hb⟩
        simp only [exec, hs, Except.bind, hu, Except.map, respond, hr]

end

/-! ## Serving several clients -/

section
variable {τ α β ι : Type} (spec : τ → α → τ × β)

/-- The events of several clients served in the order of the log: the state, and who got which reply. -/
def serve (t : τ) (log : List (ι × α)) : τ × List (ι × α × β) :=
  log.foldl (fun s a => ((spec s.1 a.2).1, s.2 ++ [(a.1, a.2, (spec s.1 a.2).2)])) (t, [])

theorem serve_snoc (t : τ) (log : List (ι × α)) (i : ι) (a : α) : serve spec t (log ++ [(i, a)]) =
    ((spec (serve spec t log).1 a).1, (serve spec t log).2 ++ [(i, a, (spec (serve spec t log).1 a).2)]) := by
  rw [serve, List.foldl_append]
  rfl

variable [DecidableEq ι]

def historyOf (i : ι) (h : List (ι × α × β)) : List (α × β) := (h.filter fun a => decide (a.1 = i)).map Prod.snd

theorem historyOf_snoc_self (i : ι) (h : List (ι × α × β)) (a : α × β) :
    historyOf i (h ++ [(i, a)]) = historyOf i h ++ [a] := by
  simp [historyOf]

theorem historyOf_snoc_ne {i j : ι} (hij : j ≠ i) (h : List (ι × α × β)) (a : α × β) :
    historyOf i (h ++ [(j, a)]) = historyOf i h := by
  simp [historyOf, hij]

end

/-! ## An event and what comes before it -/

theorem exists_before_snoc {α : Type} {a c : α} {as : List α} {P : List α → Prop} :
    (∃ before, before ++ [a] <+: as ++ [c] ∧ P before) ↔ (∃ before, before ++ [a] <+: as ∧ P before) ∨ c = a ∧ P as := by
  simp only [List.prefix_concat_iff]
  constructor
  · rintro ⟨before, hbefore | hbefore, h⟩
    · obtain ⟨rfl, hc⟩ := List.append_inj' hbefore rfl
      cases hc
      exact Or.inr ⟨rfl, h⟩
    · exact Or.inl ⟨before, hbefore, h⟩
  · rintro (⟨before, hbefore, h⟩ | ⟨rfl, h⟩)
    · exact ⟨before, Or.inr hbefore, h⟩
    · exact ⟨as, Or.inl rfl, h⟩

end Lib
