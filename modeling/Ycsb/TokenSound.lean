import Mathlib.Data.Rat.Cast.Order
import Mathlib.Tactic.Linarith
import Mathlib.Tactic.Positivity
import Ycsb.RateSound

/-!
# One client and its limiter

Between two calls a client gets its burst and what the rate yields in the time
between, and it is never in debt by more than one operation and two roundings.
`SetRate` refills with a rate that is scaled twice, so it does not credit what
`Consume` would. In 64 bits the refill is exact as long as the elapsed time
multiplied by the scaled rate is.
-/

namespace Ycsb

open Lib

theorem tokenPrecision_pos : 0 < tokenPrecision := by decide

theorem nanos_pos : 0 < nanos := by decide

/-! ## Successive calls -/

namespace SingleClient

variable {r b now : ℤ} {s t u : SingleClient} {c : ConsumeCall}

/-- The debt of a client after a call, and the time by which it returns from it. -/
structure Steady (r b : ℤ) (s : SingleClient) : Prop where
  rate : s.limiter.r = r * tokenPrecision
  burst : s.limiter.b = b * tokenPrecision
  last : s.limiter.last ≤ s.returned
  waited : s.limiter.tokens < 0 → s.limiter.last + s.limiter.toBucket.delay nanos ≤ s.returned

theorem steady_init (r b now : ℤ) : Steady r b (init r b now) :=
  ⟨rfl, rfl, le_refl _, fun h => absurd h (lt_irrefl 0)⟩

theorem Steady.rate_pos (hr : 1 ≤ r) (h : Steady r b s) : 0 < s.limiter.r := by
  rw [h.rate]
  exact Int.mul_pos (by omega) tokenPrecision_pos

theorem Steady.cap_nonneg (hb : 1 ≤ b) (h : Steady r b s) : 0 ≤ s.limiter.b := by
  rw [h.burst]
  exact Int.mul_nonneg (by omega) (le_of_lt tokenPrecision_pos)

theorem step_bucket (hr : 0 < s.limiter.r) (h : step s c = some t) :
    s.returned ≤ c.read ∧ c.read + t.sleep ≤ t.returned ∧ t.returned = c.returns ∧ t.limiter.last = c.read ∧
      t.limiter.toBucket = (s.limiter.toBucket.refill nanos c.read).take (1 * tokenPrecision) ∧
      (t.sleep = 0 ∧ 0 ≤ t.limiter.tokens ∨
        t.sleep = t.limiter.toBucket.delay nanos ∧ t.limiter.tokens < 0) := by
  obtain ⟨l, wait, hconsume, _, hlast, hbucket, hwait⟩ := RateLimiter.consume_bucket 1 c.read hr
  unfold step at h
  rw [hconsume] at h
  dsimp only at h
  split at h
  · obtain rfl := Option.some.inj h
    refine ⟨‹_ ∧ _›.1, ‹_ ∧ _›.2, rfl, hlast, hbucket, ?_⟩
    rcases hwait with ⟨rfl, hlevel⟩ | ⟨rfl, hlevel⟩
    · exact Or.inl ⟨rfl, hlevel⟩
    · exact Or.inr ⟨rfl, hlevel⟩
  · cases h

theorem Steady.step (hr : 1 ≤ r) (h : Steady r b s) (hstep : step s c = some t) : Steady r b t := by
  obtain ⟨_, hreturned, _, hlast, hbucket, hsleep⟩ := step_bucket (h.rate_pos hr) hstep
  have hrate : t.limiter.toBucket.rate = s.limiter.r := by rw [hbucket]; rfl
  have hcap : t.limiter.toBucket.cap = s.limiter.b := by rw [hbucket]; rfl
  refine ⟨hrate.trans h.rate, hcap.trans h.burst, ?_, fun hdebt => ?_⟩
  · rcases hsleep with ⟨hs, _⟩ | ⟨hs, hlevel⟩
    · omega
    · have hnonneg := Bucket.delay_nonneg nanos_pos (hrate ▸ h.rate_pos hr) hlevel
      omega
  · rcases hsleep with ⟨_, hlevel⟩ | ⟨hs, _⟩
    · exact absurd hlevel (not_le.mpr hdebt)
    · omega

/-- A bound of the debt in which a call leaves a client, in billionths. -/
def deepest (r : ℤ) : ℤ := tokenPrecision * nanos + nanos + r * tokenPrecision

theorem Steady.level (hr : 1 ≤ r) (hb : 1 ≤ b) (h : Steady r b s) (hstep : SingleClient.step s c = some t) :
    t.limiter.tokens ≤ (b - 1) * tokenPrecision ∧ -deepest r < t.limiter.tokens * nanos := by
  obtain ⟨hread, _, _, _, hbucket, _⟩ := step_bucket (h.rate_pos hr) hstep
  have hlevel : t.limiter.tokens = (s.limiter.toBucket.refill nanos c.read).level - 1 * tokenPrecision :=
    congrArg Bucket.level hbucket
  have hmax : (s.limiter.toBucket.refill nanos c.read).level ≤ s.limiter.b := min_le_left _ _
  have hmin := Bucket.refill_gt (k := s.limiter.toBucket) nanos_pos (h.rate_pos hr) (h.cap_nonneg hb)
    (le_trans h.last hread) fun hdebt => le_trans (h.waited hdebt) hread
  rw [hlevel]
  constructor
  · rw [Int.sub_mul, ← h.burst]
    exact Int.sub_le_sub_right hmax _
  · have hrate : s.limiter.toBucket.rate = r * tokenPrecision := h.rate
    rw [hrate] at hmin
    unfold deepest
    rw [Int.sub_mul, Int.one_mul]
    omega

theorem Steady.sleep_le (hr : 1 ≤ r) (hb : 1 ≤ b) (h : Steady r b s) (hstep : SingleClient.step s c = some t) :
    t.sleep * (r * tokenPrecision) ≤ deepest r := by
  have hsteady := h.step hr hstep
  obtain ⟨_, hdeepest⟩ := h.level hr hb hstep
  obtain ⟨_, _, _, _, _, hsleep⟩ := step_bucket (h.rate_pos hr) hstep
  rw [← hsteady.rate]
  rcases hsleep with ⟨hs, _⟩ | ⟨hs, hdebt⟩
  · have hrate := Int.mul_nonneg (by omega : 0 ≤ r) (le_of_lt tokenPrecision_pos)
    have hpos : 0 ≤ deepest r := Int.add_nonneg (by decide) hrate
    rw [hs, Int.zero_mul]
    exact hpos
  · have hdelay := Bucket.delay_mul_le (k := t.limiter.toBucket) nanos_pos (hsteady.rate_pos hr) hdebt
    rw [hs]
    apply le_trans hdelay
    show -t.limiter.tokens * nanos ≤ deepest r
    rw [Int.neg_mul]
    omega

/-! ## A window of calls -/

theorem Steady.paid (hr : 1 ≤ r) (h : Steady r b s) (hstep : SingleClient.step s c = some t) :
    t.limiter.toBucket.Paid nanos c.read ((1 - b) * tokenPrecision) := by
  obtain ⟨_, _, _, hlast, hbucket, _⟩ := step_bucket (h.rate_pos hr) hstep
  have hmax : (s.limiter.toBucket.refill nanos c.read).level ≤ s.limiter.b := min_le_left _ _
  have hlevel : t.limiter.tokens = (s.limiter.toBucket.refill nanos c.read).level - 1 * tokenPrecision :=
    congrArg Bucket.level hbucket
  rw [← hlast]
  apply Bucket.Paid.of_level nanos_pos
  show t.limiter.tokens + (1 - b) * tokenPrecision ≤ 0
  rw [hlevel, Int.sub_mul, ← h.burst]
  omega

theorem Steady.paid_step {start taken : ℤ} (hr : 1 ≤ r) (h : Steady r b s)
    (hpaid : s.limiter.toBucket.Paid nanos start taken) (hstep : SingleClient.step s c = some t) :
    t.limiter.toBucket.Paid nanos start (taken + 1 * tokenPrecision) := by
  obtain ⟨hread, _, _, _, hbucket, _⟩ := step_bucket (h.rate_pos hr) hstep
  rw [hbucket]
  exact (hpaid.refill nanos_pos (le_of_lt (h.rate_pos hr)) (le_trans h.last hread)).take

/-- What a client took is paid for when it returns, within one tick. -/
theorem Steady.returned_due {start taken : ℤ} (hr : 1 ≤ r) (h : Steady r b s)
    (hpaid : s.limiter.toBucket.Paid nanos start taken) :
    taken * nanos ≤ (s.returned + 1 - start) * (r * tokenPrecision) := by
  have hrate := h.rate_pos hr
  have hlast := h.last
  rw [← h.rate]
  by_cases hdebt : s.limiter.tokens < 0
  · have hwaited := h.waited hdebt
    refine le_trans (hpaid.of_delay nanos_pos hrate hdebt) (Int.mul_le_mul_of_nonneg_right ?_ (le_of_lt hrate))
    show s.limiter.last + _ + 1 - start ≤ _
    omega
  · refine le_trans (hpaid.of_nonneg nanos_pos (not_lt.mp hdebt))
      (Int.mul_le_mul_of_nonneg_right ?_ (le_of_lt hrate))
    show s.limiter.last - start ≤ _
    omega

theorem window_le {start taken : ℤ} (hr : 1 ≤ r) : ∀ (calls : List ConsumeCall) (s u : SingleClient),
    Steady r b s → s.limiter.toBucket.Paid nanos start taken → run step s calls = some u →
    ∀ (k : ℕ) (c : ConsumeCall), calls[k]? = some c →
      (taken + (k + 1) * tokenPrecision) * nanos ≤ (c.returns + 1 - start) * (r * tokenPrecision)
  | [], _, _, _, _, _, _, _, hc => by cases hc
  | c :: calls, s, u, hsteady, hpaid, hrun, k, d, hd => by
    obtain ⟨t, ht, hu⟩ := (run_cons_some step).mp hrun
    obtain ⟨_, _, hreturned, _⟩ := step_bucket (hsteady.rate_pos hr) ht
    have hsteady' := hsteady.step hr ht
    have hpaid' := hsteady.paid_step hr hpaid ht
    cases k with
    | zero =>
      cases hd
      rw [← hreturned, Nat.cast_zero, Int.zero_add]
      exact hsteady'.returned_due hr hpaid'
    | succ k =>
      have hlater := window_le hr calls t u hsteady' hpaid' hu k d hd
      have hk : taken + ((k + 1 : ℕ) + 1) * tokenPrecision =
          taken + 1 * tokenPrecision + (k + 1) * tokenPrecision := by
        push_cast
        ring
      rw [hk]
      exact hlater

theorem run_steady (hr : 1 ≤ r) {calls : List ConsumeCall} (h : run step (init r b now) calls = some s) :
    Steady r b s :=
  run_inv step (fun _ _ _ hs hstep => hs.step hr hstep) (steady_init r b now) h

theorem between_calls (hr : 1 ≤ r) {calls : List ConsumeCall} (h : run step (init r b now) calls = some s)
    {i j : ℕ} {ci cj : ConsumeCall} (hij : i < j) (hi : calls[i]? = some ci) (hj : calls[j]? = some cj) :
    ((j : ℤ) - i + 1 - b) * nanos ≤ (cj.returns - ci.read + 1) * r := by
  obtain ⟨t, t', hrun, hstep, hrest⟩ := run_split step h hi
  have hsteady := run_steady hr hrun
  have hj' : (calls.drop (i + 1))[j - (i + 1)]? = some cj := by
    rw [List.getElem?_drop, Nat.add_sub_cancel' hij]
    exact hj
  have hwindow := window_le hr _ t' s (hsteady.step hr hstep) (hsteady.paid hr hstep) hrest _ cj hj'
  have hcount : ((j - (i + 1) : ℕ) : ℤ) = j - i - 1 := by omega
  rw [hcount] at hwindow
  refine Int.le_of_mul_le_mul_right ?_ tokenPrecision_pos
  calc ((j : ℤ) - i + 1 - b) * nanos * tokenPrecision
      = ((1 - b) * tokenPrecision + (j - i - 1 + 1) * tokenPrecision) * nanos := by ring
    _ ≤ (cj.returns + 1 - ci.read) * (r * tokenPrecision) := hwindow
    _ = (cj.returns - ci.read + 1) * r * tokenPrecision := by ring

/-- What holds of a client after each of its calls. -/
structure Bounded (r b : ℤ) (s : SingleClient) : Prop where
  steady : Steady r b s
  tokens_le : s.limiter.tokens ≤ (b - 1) * tokenPrecision
  lt_tokens : -deepest r < s.limiter.tokens * nanos
  sleep_le : s.sleep * (r * tokenPrecision) ≤ deepest r

theorem deepest_pos (hr : 1 ≤ r) : 0 < deepest r :=
  Int.add_pos_of_pos_of_nonneg (by decide) (Int.mul_nonneg (by omega) (le_of_lt tokenPrecision_pos))

theorem Bounded.step (hr : 1 ≤ r) (hb : 1 ≤ b) (h : Bounded r b s) (hstep : SingleClient.step s c = some t) :
    Bounded r b t := by
  obtain ⟨hle, hlt⟩ := h.steady.level hr hb hstep
  exact ⟨h.steady.step hr hstep, hle, hlt, h.steady.sleep_le hr hb hstep⟩

theorem bounded_init (hr : 1 ≤ r) (hb : 1 ≤ b) (now : ℤ) : Bounded r b (init r b now) := by
  have hdeepest := deepest_pos hr
  refine ⟨steady_init r b now, Int.mul_nonneg (by omega) (le_of_lt tokenPrecision_pos), ?_, ?_⟩
  · show -deepest r < 0 * nanos
    omega
  · show 0 * (r * tokenPrecision) ≤ deepest r
    omega

theorem run_bounded (hr : 1 ≤ r) (hb : 1 ≤ b) {calls : List ConsumeCall}
    (h : run step (init r b now) calls = some s) : Bounded r b s :=
  run_inv step (fun _ _ _ hs hstep => hs.step hr hb hstep) (bounded_init hr hb now) h

/-- Between the reading of the clock by one call and the return of a later one there are no more
calls than the burst and the rate allow, and the debt after a call is bounded, in every run. -/
theorem consume_bounded (hr : 1 ≤ r) (hb : 1 ≤ b) {calls : List ConsumeCall}
    (h : run step (init r b now) calls = some s) :
    (∀ (i j : ℕ) (ci cj : ConsumeCall), i < j → calls[i]? = some ci → calls[j]? = some cj →
      (j : ℚ) - i ≤ b + r * (cj.returns - ci.read + 1) / 10 ^ 9) ∧
    (s.limiter.tokens : ℚ) ≤ (b - 1) * 10 ^ 4 ∧
    -(10 ^ 4 + 1 + r * 10 ^ 4 / 10 ^ 9 : ℚ) < s.limiter.tokens ∧
    (s.sleep : ℚ) ≤ (10 ^ 4 + 1 + r * 10 ^ 4 / 10 ^ 9) / (r * 10 ^ 4 / 10 ^ 9) := by
  have hbounded := run_bounded hr hb h
  have hrpos : (0 : ℚ) < r := by exact_mod_cast hr
  refine ⟨fun i j ci cj hij hi hj => ?_, ?_, ?_, ?_⟩
  · have hcalls := between_calls hr h hij hi hj
    have hcast : ((j : ℚ) - i + 1 - b) * 10 ^ 9 ≤ (cj.returns - ci.read + 1) * r := by exact_mod_cast hcalls
    rw [← sub_le_iff_le_add', le_div_iff₀ (by norm_num)]
    linarith
  · exact_mod_cast hbounded.tokens_le
  · have hcast : -(10 ^ 4 * 10 ^ 9 + 10 ^ 9 + r * 10 ^ 4 : ℚ) < s.limiter.tokens * 10 ^ 9 := by
      exact_mod_cast hbounded.lt_tokens
    linarith
  · have hcast : (s.sleep : ℚ) * (r * 10 ^ 4) ≤ 10 ^ 4 * 10 ^ 9 + 10 ^ 9 + r * 10 ^ 4 := by
      exact_mod_cast hbounded.sleep_le
    rw [le_div_iff₀ (by positivity)]
    linarith

/-- One operation a second: two calls at once, each of which sleeps for a second. -/
theorem consume_bounded_two : ∃ s : SingleClient,
    run step (init 1 1 0) [⟨0, 1000000000⟩, ⟨1000000000, 2000000007⟩] = some s ∧ s.sleep = 1000000000 ∧
    (s.sleep : ℚ) ≤ (10 ^ 4 + 1 + (1 : ℤ) * 10 ^ 4 / 10 ^ 9) / ((1 : ℤ) * 10 ^ 4 / 10 ^ 9) := by
  have hrun : run step (init 1 1 0) [⟨0, 1000000000⟩, ⟨1000000000, 2000000007⟩] =
      some ⟨⟨10000, 10000, -10000, 1000000000⟩, 1000000000, 2000000007⟩ := rfl
  exact ⟨_, hrun, rfl, (consume_bounded (le_refl 1) (le_refl 1) hrun).2.2.2⟩

end SingleClient

/-! ## The two refills -/

namespace RateLimiter

variable {l : RateLimiter} {x y tokens : ℤ}

theorem tdiv_nanos (hx : 0 ≤ x) :
    0 ≤ x.tdiv nanos ∧ x.tdiv nanos * nanos ≤ x ∧ x < (x.tdiv nanos + 1) * nanos :=
  ⟨Int.tdiv_nonneg hx (le_of_lt nanos_pos), Bucket.tdiv_mul_le hx nanos_pos, Bucket.lt_tdiv_add_one_mul hx nanos_pos⟩

theorem scaled_nonneg (hx : 0 ≤ x) : 0 ≤ x * tokenPrecision := Int.mul_nonneg hx (le_of_lt tokenPrecision_pos)

/-- What is scaled twice is the same only if it is rounded to nothing. -/
theorem scaled_tdiv_eq (hx : 0 ≤ x) :
    (x * tokenPrecision).tdiv nanos = x.tdiv nanos ↔ x * tokenPrecision < nanos := by
  have hbounds := tdiv_nanos hx
  have hbounds' := tdiv_nanos (scaled_nonneg hx)
  generalize x.tdiv nanos = q at *
  generalize (x * tokenPrecision).tdiv nanos = q' at *
  unfold tokenPrecision nanos at *
  omega

theorem le_scaled_tdiv (hx : 0 ≤ x) : x.tdiv nanos ≤ (x * tokenPrecision).tdiv nanos := by
  have hbounds := tdiv_nanos hx
  have hbounds' := tdiv_nanos (scaled_nonneg hx)
  generalize x.tdiv nanos = q at *
  generalize (x * tokenPrecision).tdiv nanos = q' at *
  unfold tokenPrecision nanos at *
  omega

/-- `SetRate(r)` at `now` leaves the tokens and the time that the refill of `Consume` leaves. -/
def RefillsAgree (l : RateLimiter) (r now : ℤ) : Prop :=
  (l.setRate r now).tokens = (l.refill now).tokens ∧ (l.setRate r now).last = (l.refill now).last

theorem min_add_eq_iff {cap q q' : ℤ} (hq : q ≤ q') :
    min cap (tokens + q') = min cap (tokens + q) ↔ q' = q ∨ cap ≤ tokens + q := by
  omega

theorem agree_iff {r now : ℤ} (hr : 0 < l.r) (hnow : l.last ≤ now) : RefillsAgree l r now ↔
    (now - l.last) * l.r * tokenPrecision < nanos ∨ l.b ≤ l.tokens + ((now - l.last) * l.r).tdiv nanos := by
  have hx : 0 ≤ (now - l.last) * l.r := Int.mul_nonneg (Int.sub_nonneg_of_le hnow) (le_of_lt hr)
  have hmin : (l.setRate r now).tokens = (l.refill now).tokens ↔ _ := min_add_eq_iff (le_scaled_tdiv hx)
  rw [scaled_tdiv_eq hx] at hmin
  exact ⟨fun h => hmin.mp h.1, fun h => ⟨hmin.mpr h, rfl⟩⟩

/-- A request credits no more than the time since the last reading of the clock yields. -/
def Credited (l : RateLimiter) : Request → Prop
  | .consume now => 0 < l.r → ((l.refill now).tokens - l.tokens) * nanos ≤ (now - l.last) * l.r
  | .setRate r now => ((l.setRate r now).tokens - l.tokens) * nanos ≤ (now - l.last) * l.r

/-- The refill of `SetRate` is stopped by the burst, or rounded to nothing. -/
def RefillFits (l : RateLimiter) : Request → Prop
  | .consume _ => True
  | .setRate _ now =>
    let x := (now - l.last) * l.r
    (l.b - l.tokens) * nanos ≤ x ∨ 0 ≤ x ∧ x * tokenPrecision < nanos ∨ x * tokenPrecision ≤ -nanos

theorem scaled_tdiv_mul_le_iff : (x * tokenPrecision).tdiv nanos * nanos ≤ x ↔
    0 ≤ x ∧ x * tokenPrecision < nanos ∨ x * tokenPrecision ≤ -nanos := by
  by_cases hx : 0 ≤ x
  · have hbounds := tdiv_nanos (scaled_nonneg hx)
    generalize (x * tokenPrecision).tdiv nanos = q at *
    unfold tokenPrecision nanos at *
    omega
  · -- a negative amount is rounded towards zero
    obtain ⟨y, rfl⟩ : ∃ y, x = -y := ⟨-x, (Int.neg_neg x).symm⟩
    have hy : 0 ≤ y := by omega
    have hbounds := tdiv_nanos (scaled_nonneg hy)
    rw [Int.neg_mul y, Int.neg_tdiv]
    generalize (y * tokenPrecision).tdiv nanos = q at *
    unfold tokenPrecision nanos at *
    omega

theorem min_add_sub_mul_le_iff {cap q : ℤ} :
    (min cap (tokens + q) - tokens) * nanos ≤ x ↔ (cap - tokens) * nanos ≤ x ∨ q * nanos ≤ x := by
  unfold nanos
  omega

theorem credited_iff {l' : RateLimiter} {a : Request} (h : step l a = some l') : Credited l a ↔ RefillFits l a := by
  cases a with
  | consume now =>
    refine ⟨fun _ => trivial, fun _ hr => ?_⟩
    have hnow : l.last ≤ now := by
      by_contra hnow
      rw [step, if_neg hnow] at h
      cases h
    have hx : 0 ≤ (now - l.last) * l.r := Int.mul_nonneg (Int.sub_nonneg_of_le hnow) (le_of_lt hr)
    exact min_add_sub_mul_le_iff.mpr (Or.inr (Bucket.tdiv_mul_le hx nanos_pos))
  | setRate r now => exact min_add_sub_mul_le_iff.trans (or_congr Iff.rfl scaled_tdiv_mul_le_iff)

/-- In every limiter that requests lead to, the refills agree if the elapsed time is too short for a
token of either, or fills the bucket, and only then; no request is credited too much as long as each
refill of `SetRate` fits. -/
theorem setRate_refill_iff {r b now : ℤ} {reqs : List Request} (h : run step (new r b now) reqs = some l) :
    (∀ r' now', 0 < l.r → l.last ≤ now' → (RefillsAgree l r' now' ↔
      (now' - l.last) * l.r * tokenPrecision < nanos ∨
        l.b ≤ l.tokens + ((now' - l.last) * l.r).tdiv nanos)) ∧
    (Along step Credited (new r b now) reqs ↔ Along step RefillFits (new r b now) reqs) :=
  ⟨fun _ _ hr hnow => agree_iff hr hnow,
    Along.congr_run (I := fun _ => True) step (fun _ _ _ _ hstep => credited_iff hstep) (fun _ _ _ _ _ => trivial)
      reqs _ l trivial h⟩

/-- A limiter of ten operations a second, and a rate that is set twice in the first microsecond. -/
theorem setRate_refill_iff_twice : ∃ l : RateLimiter, run step (new 10 10 0) [.setRate 5 0, .setRate 20 1] = some l ∧
    (RefillsAgree l 1 1 ↔ (1 - l.last) * l.r * tokenPrecision < nanos ∨
      l.b ≤ l.tokens + ((1 - l.last) * l.r).tdiv nanos) ∧
    Along step Credited (new 10 10 0) [.setRate 5 0, .setRate 20 1] := by
  have hrun : run step (new 10 10 0) [.setRate 5 0, .setRate 20 1] = some ⟨200000, 100000, 0, 1⟩ := rfl
  obtain ⟨hagree, hcredited⟩ := setRate_refill_iff hrun
  refine ⟨_, hrun, hagree 1 1 (by decide) (by decide), hcredited.mpr ⟨?_, fun l hl => ⟨?_, fun _ _ => trivial⟩⟩⟩
  · unfold RefillFits
    decide
  · cases hl
    unfold RefillFits
    decide

/-- A limiter of ten operations a second, and a rate set after a tenth of a second. -/
theorem setRate_refills_more : ∃ l : RateLimiter, run step (new 10 10 0) [] = some l ∧ 0 < l.r ∧
    (l.refill 100000000).tokens = 10000 ∧ (l.setRate 5 100000000).tokens = 100000 ∧
    ¬ RefillsAgree l 5 100000000 ∧ ¬ Along step Credited (new 10 10 0) [.setRate 5 100000000] := by
  refine ⟨_, rfl, by decide, rfl, rfl, fun h => ?_, fun h => ?_⟩
  · exact absurd h.1 (by decide)
  · exact absurd h.1 (by unfold Credited; decide)

end RateLimiter

/-! ## The arithmetic of the machine -/

namespace RateLimiter

theorem int64_of_mem {x : ℤ} (h : InInt64 x) : int64 x = x := by
  unfold InInt64 at h
  exact Int.bmod_eq_of_le (by omega) (by omega)

/-- The values that `Consume(1)` computes at `now` are in range, and its outcome is the exact one. -/
def Exact (l : RateLimiter) (now : ℤ) : Prop :=
  InInt64 ((now - l.last) * l.r) ∧ InInt64 (l.tokens + ((now - l.last) * l.r).tdiv nanos) ∧
    ((l.consume 1 now).1.tokens < 0 → InInt64 (-(l.consume 1 now).1.tokens * nanos)) ∧
    l.consume64 1 now = l.consume 1 now

theorem consume64_eq {l : RateLimiter} {n now : ℤ} (hr : 0 < l.r) (hdiff : InInt64 (now - l.last))
    (hgain : InInt64 ((now - l.last) * l.r)) (hsum : InInt64 (l.tokens + ((now - l.last) * l.r).tdiv nanos))
    (htokens : InInt64 (l.consume n now).1.tokens)
    (hdebt : (l.consume n now).1.tokens < 0 → InInt64 (-(l.consume n now).1.tokens * nanos)) :
    l.consume64 n now = l.consume n now := by
  have hlevel : (l.consume n now).1.tokens = (l.refill now).tokens - n * tokenPrecision := by
    obtain ⟨l', wait, hconsume, _, _, hbucket, _⟩ := consume_bucket n now hr
    rw [hconsume]
    exact congrArg Bucket.level hbucket
  rw [hlevel] at htokens hdebt
  unfold consume64 consume
  rw [if_neg (not_le.mpr hr), if_neg (not_le.mpr hr)]
  unfold refill at htokens hdebt ⊢
  simp only [int64_of_mem hdiff, int64_of_mem hgain, int64_of_mem hsum, int64_of_mem htokens] at *
  split
  · rw [int64_of_mem (hdebt ‹_›)]
  · rfl

end RateLimiter

namespace SingleClient

open RateLimiter

variable {r now : ℤ} {s t : SingleClient} {c : ConsumeCall}

def ExactCall (s : SingleClient) (c : ConsumeCall) : Prop := Exact s.limiter c.read

/-- The time since the last call, multiplied by the scaled rate, is in range. -/
def GapFits (r : ℤ) (s : SingleClient) (c : ConsumeCall) : Prop :=
  (c.read - s.limiter.last) * (r * tokenPrecision) < 2 ^ 63

theorem step_limiter (h : step s c = some t) : (s.limiter.consume 1 c.read).1 = t.limiter := by
  unfold step at h
  dsimp only at h
  split at h
  · obtain rfl := Option.some.inj h
    rfl
  · cases h

theorem Bounded.tokens_range (hr : 1 ≤ r) (hlt : r < 2 ^ 31) (h : Bounded r r s) :
    -40000 ≤ s.limiter.tokens ∧ s.limiter.tokens < 2 ^ 31 * tokenPrecision := by
  have hle := h.tokens_le
  have hgt := h.lt_tokens
  unfold deepest nanos at hgt
  unfold tokenPrecision at *
  omega

theorem exact_iff (hr : 1 ≤ r) (hlt : r < 2 ^ 31) (h : Bounded r r s) (hstep : step s c = some t) :
    ExactCall s c ↔ GapFits r s c := by
  have hrate := h.steady.rate
  have hrpos := h.steady.rate_pos hr
  obtain ⟨hread, _⟩ := step_bucket hrpos hstep
  have hgap : 0 ≤ c.read - s.limiter.last := Int.sub_nonneg_of_le (le_trans h.steady.last hread)
  unfold GapFits
  rw [← hrate]
  refine ⟨fun hexact => hexact.1.2, fun hfits => ?_⟩
  have hgain : 0 ≤ (c.read - s.limiter.last) * s.limiter.r := Int.mul_nonneg hgap (le_of_lt hrpos)
  have hle : c.read - s.limiter.last ≤ (c.read - s.limiter.last) * s.limiter.r := le_mul_of_one_le_right hgap hrpos
  obtain ⟨hquot', hquot, _⟩ := tdiv_nanos hgain
  obtain ⟨hmin, hmax⟩ := h.tokens_range hr hlt
  obtain ⟨hmin', hmax'⟩ := (h.step hr hr hstep).tokens_range hr hlt
  have hin : InInt64 ((c.read - s.limiter.last) * s.limiter.r) := ⟨by omega, hfits⟩
  have hsum : InInt64 (s.limiter.tokens + ((c.read - s.limiter.last) * s.limiter.r).tdiv nanos) := by
    unfold InInt64
    unfold nanos tokenPrecision at *
    omega
  have hdebt : (s.limiter.consume 1 c.read).1.tokens < 0 →
      InInt64 (-(s.limiter.consume 1 c.read).1.tokens * nanos) := by
    rw [step_limiter hstep]
    unfold InInt64 nanos
    omega
  have htokens : InInt64 (s.limiter.consume 1 c.read).1.tokens := by
    rw [step_limiter hstep]
    unfold InInt64
    unfold tokenPrecision at *
    omega
  have hdiff : InInt64 (c.read - s.limiter.last) := ⟨by omega, lt_of_le_of_lt hle hfits⟩
  exact ⟨hin, hsum, hdebt, consume64_eq hrpos hdiff hin hsum htokens hdebt⟩

def HourApart (s : SingleClient) (c : ConsumeCall) : Prop := c.read - s.limiter.last ≤ 3600 * nanos

theorem hour_fits (hr : 1 ≤ r) (hr' : r ≤ 256) (h : HourApart s c) : GapFits r s c := by
  unfold HourApart at h
  unfold GapFits
  by_cases hgap : 0 ≤ c.read - s.limiter.last
  · have hprod : (c.read - s.limiter.last) * (r * tokenPrecision) ≤ (3600 * nanos) * (256 * tokenPrecision) := by
      refine Int.mul_le_mul h ?_ (Int.mul_nonneg (by omega) (le_of_lt tokenPrecision_pos)) (by decide)
      exact Int.mul_le_mul_of_nonneg_right hr' (le_of_lt tokenPrecision_pos)
    exact lt_of_le_of_lt hprod (by decide)
  · have hneg := Int.mul_nonpos_of_nonpos_of_nonneg (le_of_lt (not_le.mp hgap))
      (Int.mul_nonneg (by omega : 0 ≤ r) (le_of_lt tokenPrecision_pos))
    exact lt_of_le_of_lt hneg (by decide)

/-- A first call an hour after the limiter was made. -/
def callAfterHour (r : ℤ) : ConsumeCall :=
  ⟨3600 * nanos, 3600 * nanos + ((RateLimiter.new r r 0).consume 1 (3600 * nanos)).2.getD 0⟩

theorem step_callAfterHour (r : ℤ) : ∃ s, step (init r r 0) (callAfterHour r) = some s := by
  have hread : (0 : ℤ) ≤ 3600 * nanos := by decide
  exact ⟨_, if_pos ⟨hread, le_refl _⟩⟩

/-- A run is exact as long as every gap, multiplied by the scaled rate, is in range; for all runs
with gaps of at most an hour, that is for rates up to 256 only. -/
theorem exact_run_iff (hr : 1 ≤ r) (hlt : r < 2 ^ 31) :
    (∀ now calls s, run step (init r r now) calls = some s →
      (Along step ExactCall (init r r now) calls ↔
        Along step (GapFits r) (init r r now) calls)) ∧
    ((∀ now calls s, run step (init r r now) calls = some s → Along step HourApart (init r r now) calls →
      Along step ExactCall (init r r now) calls) ↔ r ≤ 256) := by
  have hiff : ∀ now calls s, run step (init r r now) calls = some s →
      (Along step ExactCall (init r r now) calls ↔
        Along step (GapFits r) (init r r now) calls) := fun now calls s hrun =>
    Along.congr_run (I := Bounded r r) step (fun _ _ _ hs hstep => exact_iff hr hlt hs hstep)
      (fun _ _ _ hs hstep => hs.step hr hr hstep) calls _ s (bounded_init hr hr now) hrun
  refine ⟨hiff, fun hall => ?_, fun hr' now calls s hrun happart => ?_⟩
  · obtain ⟨s, hs⟩ := step_callAfterHour r
    have hrun : run step (init r r 0) [callAfterHour r] = some s := (run_cons_some step).mpr ⟨s, hs, rfl⟩
    have hexact := hall 0 _ s hrun ⟨le_refl (3600 * nanos), fun _ _ => trivial⟩
    have hfits : (3600 * nanos - 0) * (r * tokenPrecision) < 2 ^ 63 := ((hiff 0 _ s hrun).mp hexact).1
    unfold nanos tokenPrecision at hfits
    omega
  · exact (hiff now calls s hrun).mpr
      (Along.strengthen (I := fun _ => True) step (fun _ _ _ h => hour_fits hr hr' h) (fun _ _ _ _ _ _ => trivial) calls
        _ trivial happart)

theorem exact_run_iff_small : (1 : ℤ) ≤ 256 ∧ ∀ now calls s, run step (init 256 256 now) calls = some s →
    Along step HourApart (init 256 256 now) calls →
    Along step ExactCall (init 256 256 now) calls :=
  ⟨by decide, (exact_run_iff (by decide) (by decide)).2.mpr (le_refl 256)⟩

/-- A thousand operations a second: after an idle hour the machine sleeps for more than a minute
where there is nothing to wait for. -/
theorem not_exact_idle_hour : ∃ s, run step (init 1000 1000 0) [⟨0, 1000000⟩, ⟨3600000000000, 3600000000000⟩] = some s ∧
    Along step HourApart (init 1000 1000 0) [⟨0, 1000000⟩, ⟨3600000000000, 3600000000000⟩] ∧
    ¬ Along step ExactCall (init 1000 1000 0)
      [⟨0, 1000000⟩, ⟨3600000000000, 3600000000000⟩] ∧
    ∃ l : RateLimiter, run step (init 1000 1000 0) [⟨0, 1000000⟩] = some ⟨l, 1000000, 1000000⟩ ∧
      (l.consume 1 3600000000000).2 = none ∧ ∃ w, (l.consume64 1 3600000000000).2 = some w ∧ 60 * nanos < w := by
  have hfirst : step (init 1000 1000 0) ⟨0, 1000000⟩ = some ⟨⟨10000000, 10000000, -10000, 0⟩, 1000000, 1000000⟩ := rfl
  refine ⟨_, rfl, ⟨?_, fun s hs => ⟨?_, fun _ _ => trivial⟩⟩, fun h => ?_, _, rfl, rfl, _, rfl, by decide⟩
  · unfold HourApart
    decide
  · cases hs
    unfold HourApart
    decide
  · have hexact := (h.2 _ hfirst).1.1.2
    exact absurd hexact (by decide)

end SingleClient

end Ycsb
