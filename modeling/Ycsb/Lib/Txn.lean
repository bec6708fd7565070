import Mathlib.Data.List.Basic
import Ycsb.Lib.Threads
import Ycsb.Lib.TxnStore

/-!
# Clients of a store with transactions

Every call of a client is a program in a transaction of its own, and the calls of
the store interleave. If the store isolates its transactions, the calls of all
clients take effect one after the other, in an order that extends the order in
which they follow one another.
-/

namespace Lib

structure TxnCode (κ ν ε χ α β : Type) where
  readOnly : α → Bool
  beginFailed : α → ε → χ
  body : α → TxnProg κ ν ε χ β

inductive TxnPoint (τ κ ν ε χ α β : Type) where
  | idle
  | inside (c : α) (t : τ) (p : TxnProg κ ν ε χ β)
  | thrown (c : α) (x : χ)

structure TxnClient (τ κ ν ε χ α β : Type) where
  todo : List α
  point : TxnPoint τ κ ν ε χ α β
  history : List (α × β)

structure TxnRun {κ ν ε : Type} (S : TxnStore κ ν ε) (ι χ α β : Type) where
  env : S.State
  client : ι → TxnClient S.Txn κ ν ε χ α β
  exited : Bool

/-- `exit` is the end of the process, in whatever its threads are doing. -/
inductive TxnEvent (ι : Type) where
  | step (i : ι)
  | exit

/-- What is thrown behind a call leaves the transaction as it is. -/
def TxnPoint.settle {τ κ ν ε χ α β : Type} (c : α) (t : τ) : TxnProg κ ν ε χ β → TxnPoint τ κ ν ε χ α β
  | .throw x => .thrown c x
  | p => .inside c t p

namespace TxnRun

variable {κ ν ε ι χ α β : Type} [DecidableEq ι] {S : TxnStore κ ν ε} (code : TxnCode κ ν ε χ α β)

def start (env : S.State) (prog : ι → List α) : TxnRun S ι χ α β := ⟨env, fun i => ⟨prog i, .idle, []⟩, false⟩

variable (s : TxnRun S ι χ α β)

def move (i : ι) (x : TxnClient S.Txn κ ν ε χ α β) (env : S.State) : TxnRun S ι χ α β :=
  { s with env, client := Function.update s.client i x }

/-- One call of the store by a client. -/
def act (i : ι) : Option (TxnRun S ι χ α β) :=
  let x := s.client i
  match x.point with
  | .idle =>
    match x.todo with
    | [] => none
    | c :: rest =>
      match S.begin s.env (code.readOnly c) with
      | none => none
      | some (.error e, env) => some (s.move i { x with todo := rest, point := .thrown c (code.beginFailed c e) } env)
      | some (.ok t, env) => some (s.move i { x with todo := rest, point := .settle c t (code.body c) } env)
  | .inside c t (.call o k) =>
    let (r, env) := S.call s.env t o
    some (s.move i { x with point := .settle c t (k r) } env)
  | .inside c t (.commit reply failed) =>
    match S.commit s.env t with
    | (.ok _, env) => some (s.move i { x with point := .idle, history := x.history ++ [(c, reply)] } env)
    | (.error e, env) => some (s.move i { x with point := .thrown c (failed e) } env)
  | .inside c t (.abort reply) =>
    some (s.move i { x with point := .idle, history := x.history ++ [(c, reply)] } (S.abort s.env t))
  | .inside _ _ (.throw _) | .thrown _ _ => none

/-- A thread that throws ends the process some time later, and the others run on until then. -/
def step : TxnEvent ι → Option (TxnRun S ι χ α β)
  | .exit => some { s with exited := true }
  | .step i => if s.exited then none else s.act code i

end TxnRun

section
variable {κ : Type} [LinearOrder κ] {ν ε χ α β : Type}

/-! ## One call after the other -/

namespace TxnCode

variable (code : TxnCode κ ν ε χ α β) (notFound : ε)

def runs (m : OrdMap κ ν) (c : α) : Except χ (TxnEnd κ ν β) := (code.body c).run notFound ⟨m, .closed⟩

/-- What a call does to the store if nothing interleaves with it. -/
def effect (m : OrdMap κ ν) (c : α) : Except χ (OrdMap κ ν × β) := (code.runs notFound m c).map fun r =>
  (if r.commits ∧ ¬ code.readOnly c then r.map else m, r.reply)

/-- The calls of the log, one after the other, lead from `m` to `m'` and yield the replies of the log. -/
def Serial {ι : Type} (m : OrdMap κ ν) (log : List (ι × α × β)) (m' : OrdMap κ ν) : Prop :=
  exec (code.effect notFound) m (log.map fun a => a.2.1) = .ok (m', log.map fun a => a.2.2)

/-- The entry of a call that begins here, if it succeeds. -/
def yields (m : OrdMap κ ν) (c : α) : List (α × β) :=
  match code.runs notFound m c with
  | .ok r => [(c, r.reply)]
  | .error _ => []

variable {code} {notFound} {ι : Type} {m m' m'' : OrdMap κ ν} {log : List (ι × α × β)} {c : α}

theorem yields_ok {r : TxnEnd κ ν β} (h : code.runs notFound m c = .ok r) :
    code.yields notFound m c = [(c, r.reply)] := by
  rw [yields, h]

theorem yields_fst : (code.yields notFound m c).map Prod.fst <+: [c] := by
  unfold yields
  split
  · exact List.prefix_rfl
  · exact List.nil_prefix

theorem Serial.nil : code.Serial notFound m ([] : List (ι × α × β)) m := rfl

theorem Serial.snoc (h : code.Serial notFound m log m') {r : β} (hc : code.effect notFound m' c = .ok (m'', r)) (i : ι) :
    code.Serial notFound m (log ++ [(i, c, r)]) m'' := by
  unfold Serial at *
  rw [List.map_append, List.map_append]
  exact exec_append h (exec_one hc)

end TxnCode

/-! ## What a client has seen -/

namespace TxnClient

variable {S : TxnStore κ ν ε} (hS : S.Isolated) (code : TxnCode κ ν ε χ α β)

def current (x : TxnClient S.Txn κ ν ε χ α β) : List α :=
  match x.point with
  | .idle => []
  | .inside c _ _ | .thrown c _ => [c]

def txn (x : TxnClient S.Txn κ ν ε χ α β) : Option S.Txn :=
  match x.point with
  | .inside _ t _ => some t
  | .idle | .thrown _ _ => none

def Writing (x : TxnClient S.Txn κ ν ε χ α β) : Prop := ∃ c t p, x.point = .inside c t p ∧ code.readOnly c = false

/-- The transaction has brought the program as far as a run on `m` alone would have. -/
def Inside (env : S.State) (c : α) (t : S.Txn) (p : TxnProg κ ν ε χ β) (m : OrdMap κ ν) : Prop :=
  ∃ view opened, hS.live env t = some ⟨code.readOnly c, view⟩ ∧ (¬ opened → view.cursor = .closed) ∧
    p.Careful S.notFound (code.readOnly c) opened ∧ p.run S.notFound view = code.runs S.notFound m c

/-- The entries of a client in the log: a read is logged when it begins, if it will succeed, and a
write when it is finished. -/
inductive Logged (env : S.State) (x : TxnClient S.Txn κ ν ε χ α β) : List (α × β) → Prop where
  | idle (hp : x.point = .idle) : Logged env x x.history
  | reading (c : α) (t : S.Txn) (p : TxnProg κ ν ε χ β) (m : OrdMap κ ν) (hp : x.point = .inside c t p)
      (hk : code.readOnly c = true) (h : Inside hS code env c t p m) :
      Logged env x (x.history ++ code.yields S.notFound m c)
  | writing (c : α) (t : S.Txn) (p : TxnProg κ ν ε χ β) (hp : x.point = .inside c t p)
      (hk : code.readOnly c = false) (h : Inside hS code env c t p (hS.committed env)) : Logged env x x.history
  | thrown (c : α) (e : χ) (l : List (α × β)) (hp : x.point = .thrown c e) (hl : l.map Prod.fst <+: [c]) :
      Logged env x (x.history ++ l)

variable {hS} {code} {env env' : S.State} {x : TxnClient S.Txn κ ν ε χ α β} {c : α} {t : S.Txn}
  {p : TxnProg κ ν ε χ β} {m : OrdMap κ ν} {h : List (α × β)}

/-! ### One call of the store -/

theorem Inside.begin (hS : S.Isolated) (hcode : (code.body c).Careful S.notFound (code.readOnly c) False)
    (hb : S.begin env (code.readOnly c) = some (.ok t, env')) :
    Inside hS code env' c t (code.body c) (hS.committed env) :=
  ⟨_, _, (hS.begin_ok hb).2.2.1, fun _ => rfl, hcode, rfl⟩

theorem Inside.frame (hi : Inside hS code env c t p m) (hlive : hS.live env' t = hS.live env t) :
    Inside hS code env' c t p m := by
  obtain ⟨view, opened, hview, hrest⟩ := hi
  exact ⟨view, opened, hlive.trans hview, hrest⟩

/-- The call does what it would do alone, or fails, and then the program throws. -/
theorem Inside.call {o : TxnOp κ ν} {k : Except ε (Option ν) → TxnProg κ ν ε χ β}
    (hi : Inside hS code env c t (.call o k) m) :
    hS.committed (S.call env t o).2 = hS.committed env ∧
      (∀ t', t' ≠ t → hS.live (S.call env t o).2 t' = hS.live env t') ∧
      (Inside hS code (S.call env t o).2 c t (k (S.call env t o).1) m ∨ ∃ e, k (S.call env t o).1 = .throw e) := by
  obtain ⟨view, opened, hlive, hcursor, ⟨hwrites, hfails, hrest⟩, hrun⟩ := hi
  have hallows : TxnAccess.Allows ⟨code.readOnly c, view⟩ o := fun hw =>
    ⟨(hwrites hw).1, hcursor (hwrites hw).2⟩
  obtain ⟨hcommitted, hframe⟩ := hS.call_frame hlive o hallows
  refine ⟨hcommitted, hframe, ?_⟩
  rcases hS.call_eq hlive o hallows with ⟨hanswer, hview⟩ | ⟨hfallible, e, hne, herror⟩
  · refine Or.inl ⟨_, o.Opens opened, hview, view.call_cursor hcursor o, hrest _, ?_⟩
    rw [hanswer]
    exact hrun
  · rw [herror]
    exact Or.inr (hfails hfallible e hne)

theorem Inside.runs_commit {reply : β} {failed : ε → χ} (hi : Inside hS code env c t (.commit reply failed) m) :
    ∃ view, hS.live env t = some ⟨code.readOnly c, view⟩ ∧ code.runs S.notFound m c = .ok ⟨true, reply, view.map⟩ := by
  obtain ⟨view, _, hlive, _, _, hrun⟩ := hi
  exact ⟨view, hlive, hrun.symm⟩

theorem Inside.runs_abort {reply : β} (hi : Inside hS code env c t (.abort reply) m) :
    ∃ view, hS.live env t = some ⟨code.readOnly c, view⟩ ∧ code.runs S.notFound m c = .ok ⟨false, reply, view.map⟩ := by
  obtain ⟨view, _, hlive, _, _, hrun⟩ := hi
  exact ⟨view, hlive, hrun.symm⟩

/-! ### The entries of a client -/

omit [LinearOrder κ] in
theorem txn_inside (hp : x.point = .inside c t p) : x.txn = some t := by rw [txn, hp]

theorem Logged.access (hl : x.Logged hS code env h) (ht : x.txn = some t) :
    ∃ c p view, x.point = .inside c t p ∧ hS.live env t = some ⟨code.readOnly c, view⟩ := by
  cases hl with
  | idle hp | thrown _ _ _ hp _ => simp [txn, hp] at ht
  | reading c' t' p' m hp hk hi | writing c' t' p' hp hk hi =>
    obtain rfl := Option.some.inj ((txn_inside hp).symm.trans ht)
    obtain ⟨view, _, hlive, _⟩ := hi
    exact ⟨c', p', view, hp, hlive⟩

/-- Only a write transaction sees that nobody else commits. -/
theorem Logged.other (hl : x.Logged hS code env h) (hlive : ∀ t, x.txn = some t → hS.live env' t = hS.live env t)
    (hcommitted : x.Writing code → hS.committed env' = hS.committed env) : x.Logged hS code env' h := by
  cases hl with
  | idle hp => exact .idle hp
  | reading c t p m hp hk hi => exact .reading c t p m hp hk (hi.frame (hlive t (txn_inside hp)))
  | writing c t p hp hk hi =>
    refine .writing c t p hp hk ?_
    rw [hcommitted ⟨c, t, p, hp, hk⟩]
    exact hi.frame (hlive t (txn_inside hp))
  | thrown c e l hp hl => exact .thrown c e l hp hl

theorem Logged.history_initial (hl : x.Logged hS code env h) : x.history <+: h := by
  cases hl with
  | reading | thrown => exact List.prefix_append _ _
  | _ => exact List.prefix_rfl

theorem Logged.history_eq (hl : x.Logged hS code env h) (hp : x.point = .idle) : h = x.history := by
  cases hl with
  | idle | writing => rfl
  | reading c t p m hp' | thrown c e l hp' =>
    rw [hp] at hp'
    cases hp'

theorem Logged.of_inside (hl : x.Logged hS code env h) (hp : x.point = .inside c t p) :
    (code.readOnly c = true ∧ ∃ m, Inside hS code env c t p m ∧ h = x.history ++ code.yields S.notFound m c) ∨
      (code.readOnly c = false ∧ Inside hS code env c t p (hS.committed env) ∧ h = x.history) := by
  cases hl with
  | idle hp' | thrown _ _ _ hp' _ =>
    rw [hp] at hp'
    cases hp'
  | reading c' t' p' m hp' hk hi =>
    rw [hp] at hp'
    cases hp'
    exact Or.inl ⟨hk, m, hi, rfl⟩
  | writing c' t' p' hp' hk hi =>
    rw [hp] at hp'
    cases hp'
    exact Or.inr ⟨hk, hi, rfl⟩

/-- At its end a transaction has what it would have had alone, whatever the map was when it began. -/
theorem Logged.ends (hl : x.Logged hS code env h) (hp : x.point = .inside c t p) {f : TxnView κ ν → TxnEnd κ ν β}
    (hf : ∀ m, Inside hS code env c t p m → ∃ view, hS.live env t = some ⟨code.readOnly c, view⟩ ∧
      code.runs S.notFound m c = .ok (f view)) :
    ∃ view, hS.live env t = some ⟨code.readOnly c, view⟩ ∧
      ∀ m, Inside hS code env c t p m → code.runs S.notFound m c = .ok (f view) := by
  have hinside : ∃ m, Inside hS code env c t p m := by
    rcases hl.of_inside hp with ⟨_, m, hi, _⟩ | ⟨_, hi, _⟩
    · exact ⟨m, hi⟩
    · exact ⟨_, hi⟩
  obtain ⟨m, hi⟩ := hinside
  obtain ⟨view, hlive, _⟩ := hf m hi
  refine ⟨view, hlive, fun m' hi' => ?_⟩
  obtain ⟨view', hlive', hrun⟩ := hf m' hi'
  cases hlive.symm.trans hlive'
  exact hrun

theorem Logged.program (hl : x.Logged hS code env h) : ∃ l, h = x.history ++ l ∧ l.map Prod.fst <+: x.current := by
  cases hl with
  | idle | writing => exact ⟨[], (List.append_nil _).symm, List.nil_prefix⟩
  | reading c t p m hp hk hi =>
    refine ⟨_, rfl, ?_⟩
    rw [current, hp]
    exact TxnCode.yields_fst
  | thrown c e l hp hl =>
    refine ⟨l, rfl, ?_⟩
    rw [current, hp]
    exact hl

theorem Logged.settle_read (hS : S.Isolated) (hp : x.point = .settle c t p) (hk : code.readOnly c = true)
    (hi : Inside hS code env c t p m ∨ ∃ e, p = .throw e) :
    x.Logged hS code env (x.history ++ code.yields S.notFound m c) := by
  cases p with
  | throw e => exact .thrown c e _ hp TxnCode.yields_fst
  | _ => exact .reading c t _ m hp hk (hi.resolve_right fun ⟨e, he⟩ => by cases he)

theorem Logged.settle_write (hp : x.point = .settle c t p) (hk : code.readOnly c = false)
    (hi : Inside hS code env c t p (hS.committed env) ∨ ∃ e, p = .throw e) : x.Logged hS code env x.history := by
  cases p with
  | throw e =>
    have hl : x.Logged hS code env (x.history ++ []) := .thrown c e [] hp List.nil_prefix
    rwa [List.append_nil] at hl
  | _ => exact .writing c t _ hp hk (hi.resolve_right fun ⟨e, he⟩ => by cases he)

omit [LinearOrder κ] in
theorem current_settle (hp : x.point = .settle c t p) : x.current = [c] := by
  rw [current, hp]
  cases p <;> rfl

omit [LinearOrder κ] in
theorem txn_settle (hp : x.point = .settle c t p) : ∀ t', x.txn = some t' → t' = t := by
  intro t' ht
  rw [txn, hp] at ht
  cases p with
  | throw e => cases ht
  | _ => exact (Option.some.inj ht).symm

omit [LinearOrder κ] in
theorem writing_settle (hp : x.point = .settle c t p) (hw : x.Writing code) : code.readOnly c = false := by
  obtain ⟨c', t', p', hp', hk⟩ := hw
  rw [hp] at hp'
  cases p <;> cases hp' <;> exact hk

end TxnClient

/-! ## The log of a run -/

namespace TxnRun

variable {ι : Type} [DecidableEq ι] {S : TxnStore κ ν ε} (hS : S.Isolated) (code : TxnCode κ ν ε χ α β)
  (m₀ : OrdMap κ ν) (prog : ι → List α)

/-- The calls of the log took effect one after the other, and each client saw its own of them. -/
structure Inv (log : List (ι × α × β)) (s : TxnRun S ι χ α β) : Prop where
  serial : code.Serial S.notFound m₀ log (hS.committed s.env)
  logged : ∀ i, (s.client i).Logged hS code s.env (historyOf i log)
  apart : ∀ i j t, (s.client i).txn = some t → (s.client j).txn = some t → i = j
  alone : ∀ i j, (s.client i).Writing code → (s.client j).Writing code → i = j
  program : ∀ i, (s.client i).history.map Prod.fst ++ (s.client i).current ++ (s.client i).todo = prog i

variable {hS} {code} {m₀} {prog} {s s' : TxnRun S ι χ α β} {log : List (ι × α × β)} {i : ι}

theorem Inv.start {env : S.State} (h0 : hS.committed env = m₀) : Inv hS code m₀ prog [] (start env prog) where
  serial := h0 ▸ .nil
  logged i := .idle rfl
  apart i j t ht := by cases ht
  alone i j hi := by
    obtain ⟨c, t, p, hp, _⟩ := hi
    cases hp
  program i := rfl

/-- One client moves on. -/
theorem Inv.move (h : Inv hS code m₀ prog log s) {x : TxnClient S.Txn κ ν ε χ α β} {env : S.State}
    {log' : List (ι × α × β)} (hserial : code.Serial S.notFound m₀ log' (hS.committed env))
    (hother : ∀ j, j ≠ i → historyOf j log' = historyOf j log) (hlogged : x.Logged hS code env (historyOf i log'))
    (hlive : ∀ j, j ≠ i → ∀ t, (s.client j).txn = some t → hS.live env t = hS.live s.env t ∧ x.txn ≠ some t)
    (hcommitted : hS.committed env = hS.committed s.env ∨ ∀ j, j ≠ i → ¬ (s.client j).Writing code)
    (hwriting : x.Writing code → ∀ j, j ≠ i → ¬ (s.client j).Writing code)
    (hprog : x.history.map Prod.fst ++ x.current ++ x.todo = prog i) :
    Inv hS code m₀ prog log' (s.move i x env) := by
  have hself : (s.move i x env).client i = x := Function.update_self ..
  have hne : ∀ {j}, j ≠ i → (s.move i x env).client j = s.client j := fun hj => Function.update_of_ne hj ..
  refine ⟨hserial, fun j => ?_, apart_update (P := fun t y => TxnClient.txn y = some t) ?_ h.apart, fun j k hj hk => ?_,
    fun j => ?_⟩
  · by_cases hj : j = i
    · subst hj
      rwa [hself]
    · -- a write of another client sees what was committed, which is as before
      rw [hne hj, hother j hj]
      exact (h.logged j).other (fun t ht => (hlive j hj t ht).1) fun hw => hcommitted.resolve_right fun hn => hn j hj hw
  · intro t hx j hj ht
    exact (hlive j hj t ht).2 hx
  · exact apart_update (P := fun (_ : Unit) y => TxnClient.Writing code y) (fun _ => hwriting) (fun j k _ => h.alone j k) j k ()
      hj hk
  · by_cases hj : j = i
    · subst hj
      rw [hself]
      exact hprog
    · rw [hne hj]
      exact h.program j

/-- The transactions of the others are not the one that a client is in. -/
theorem Inv.others (h : Inv hS code m₀ prog log s) {t : S.Txn} (ht : (s.client i).txn = some t) {env : S.State}
    (hframe : ∀ t', t' ≠ t → hS.live env t' = hS.live s.env t') {x : TxnClient S.Txn κ ν ε χ α β}
    (hx : ∀ t', x.txn = some t' → t' = t) : ∀ j, j ≠ i → ∀ t', (s.client j).txn = some t' →
      hS.live env t' = hS.live s.env t' ∧ x.txn ≠ some t' := by
  intro j hj t' ht'
  have hne : t' ≠ t := by
    rintro rfl
    exact hj (h.apart j i t' ht' ht)
  exact ⟨hframe t' hne, fun hxt => hne (hx t' hxt)⟩

theorem Inv.begin (h : Inv hS code m₀ prog log s) (hcode : ∀ c, (code.body c).Careful S.notFound (code.readOnly c) False)
    {c : α} {rest : List α} (hp : (s.client i).point = .idle) (htodo : (s.client i).todo = c :: rest)
    {r : Except ε S.Txn} {env : S.State} (hb : S.begin s.env (code.readOnly c) = some (r, env))
    {x : TxnClient S.Txn κ ν ε χ α β} (hx : x.todo = rest ∧ x.history = (s.client i).history)
    (hpoint : x.point = match r with
      | .error e => .thrown c (code.beginFailed c e)
      | .ok t => .settle c t (code.body c)) :
    ∃ log', log <+: log' ∧ Inv hS code m₀ prog log' (s.move i x env) := by
  have hhist : historyOf i log = x.history := hx.2 ▸ (h.logged i).history_eq hp
  have hprog : x.history.map Prod.fst ++ [c] ++ x.todo = prog i := by
    rw [← h.program i, TxnClient.current, hp, htodo, hx.1, hx.2, List.append_nil, List.append_assoc]
    rfl
  cases r with
  | error e =>
    obtain ⟨hcommitted, hlive⟩ := hS.begin_error hb
    have hcurrent : x.current = [c] := by rw [TxnClient.current, hpoint]
    refine ⟨log, List.prefix_rfl, h.move (hcommitted.symm ▸ h.serial) (fun _ _ => rfl) ?_ (fun j _ t _ => ?_)
      (Or.inl hcommitted) (fun hw => ?_) (hcurrent ▸ hprog)⟩
    · rw [hhist, ← List.append_nil x.history]
      exact .thrown c _ [] hpoint List.nil_prefix
    · exact ⟨congrFun hlive t, by simp [TxnClient.txn, hpoint]⟩
    · obtain ⟨c', t, p, hp', _⟩ := hw
      rw [hpoint] at hp'
      cases hp'
  | ok t =>
    obtain ⟨hnew, hcommitted, _, hframe⟩ := hS.begin_ok hb
    have hinside := TxnClient.Inside.begin hS (hcode c) hb
    have hlive : ∀ j, j ≠ i → ∀ t', (s.client j).txn = some t' →
        hS.live env t' = hS.live s.env t' ∧ x.txn ≠ some t' := by
      intro j _ t' ht'
      obtain ⟨_, _, _, _, ha⟩ := (h.logged j).access ht'
      have hne : t' ≠ t := by
        rintro rfl
        rw [hnew] at ha
        cases ha
      exact ⟨hframe t' hne, fun hxt => hne (TxnClient.txn_settle hpoint t' hxt)⟩
    have hprog' := (TxnClient.current_settle hpoint).symm ▸ hprog
    cases hk : code.readOnly c with
    | false =>
      -- all transactions that are live are reads
      have hothers : ∀ j, j ≠ i → ¬ (s.client j).Writing code := by
        rintro j _ ⟨c', t', p', hp', hk'⟩
        obtain ⟨_, _, _, hpj, ha⟩ := (h.logged j).access (TxnClient.txn_inside hp')
        rw [hp'] at hpj
        cases hpj
        rw [hk] at hb
        exact absurd (hS.begin_single hb t' _ ha) (by simp [hk'])
      refine ⟨log, List.prefix_rfl, h.move (hcommitted.symm ▸ h.serial) (fun _ _ => rfl) ?_ hlive (Or.inl hcommitted)
        (fun _ => hothers) hprog'⟩
      rw [hhist]
      exact .settle_write hpoint hk (Or.inl (hcommitted.symm ▸ hinside))
    | true =>
      have hwriting : ¬ x.Writing code := fun hw => by
        have := TxnClient.writing_settle hpoint hw
        rw [hk] at this
        cases this
      have hlogged := TxnClient.Logged.settle_read hS hpoint hk (Or.inl hinside)
      cases hr : code.runs S.notFound (hS.committed s.env) c with
      | error e =>
        rw [TxnCode.yields, hr, List.append_nil] at hlogged
        exact ⟨log, List.prefix_rfl, h.move (hcommitted.symm ▸ h.serial) (fun _ _ => rfl) (hhist.symm ▸ hlogged) hlive
          (Or.inl hcommitted) (fun hw => absurd hw hwriting) hprog'⟩
      | ok r =>
        have heffect : code.effect S.notFound (hS.committed s.env) c = .ok (hS.committed s.env, r.reply) := by
          simp [TxnCode.effect, hr, hk, Except.map]
        rw [TxnCode.yields_ok hr] at hlogged
        refine ⟨log ++ [(i, c, r.reply)], List.prefix_append _ _, h.move (hcommitted.symm ▸ h.serial.snoc heffect i)
          (fun j hj => historyOf_snoc_ne (Ne.symm hj) _ _) ?_ hlive (Or.inl hcommitted)
          (fun hw => absurd hw hwriting) hprog'⟩
        rw [historyOf_snoc_self, hhist]
        exact hlogged

theorem Inv.call (h : Inv hS code m₀ prog log s) {c : α} {t : S.Txn} {o : TxnOp κ ν}
    {k : Except ε (Option ν) → TxnProg κ ν ε χ β} (hp : (s.client i).point = .inside c t (.call o k)) :
    Inv hS code m₀ prog log (s.move i
      { s.client i with point := .settle c t (k (S.call s.env t o).1) } (S.call s.env t o).2) := by
  have hprog := h.program i
  rw [TxnClient.current, hp] at hprog
  have hmove : hS.committed (S.call s.env t o).2 = hS.committed s.env →
      (∀ t', t' ≠ t → hS.live (S.call s.env t o).2 t' = hS.live s.env t') →
      TxnClient.Logged hS code (S.call s.env t o).2
        { s.client i with point := .settle c t (k (S.call s.env t o).1) } (historyOf i log) → _ :=
    fun hcommitted hframe hlogged =>
      h.move (hcommitted.symm ▸ h.serial) (fun _ _ => rfl) hlogged
        (h.others (TxnClient.txn_inside hp) hframe (TxnClient.txn_settle rfl)) (Or.inl hcommitted)
        (fun hw j hj hwj => hj (h.alone j i hwj ⟨c, t, _, hp, TxnClient.writing_settle rfl hw⟩))
        (by rwa [TxnClient.current_settle rfl])
  rcases (h.logged i).of_inside hp with ⟨hk, m, hi, hl⟩ | ⟨hk, hi, hl⟩
  · obtain ⟨hcommitted, hframe, hinside⟩ := hi.call
    refine hmove hcommitted hframe ?_
    rw [hl]
    exact .settle_read hS rfl hk hinside
  · obtain ⟨hcommitted, hframe, hinside⟩ := hi.call
    refine hmove hcommitted hframe ?_
    rw [hl]
    exact .settle_write rfl hk (hcommitted.symm ▸ hinside)

/-- A transaction that ends without a reply. -/
theorem Inv.fail (h : Inv hS code m₀ prog log s) {c : α} {t : S.Txn} {p : TxnProg κ ν ε χ β}
    (hp : (s.client i).point = .inside c t p) {env : S.State} (hcommitted : hS.committed env = hS.committed s.env)
    (hframe : ∀ t', t' ≠ t → hS.live env t' = hS.live s.env t') (e : χ) :
    Inv hS code m₀ prog log (s.move i { s.client i with point := .thrown c e } env) := by
  have hprog := h.program i
  rw [TxnClient.current, hp] at hprog
  refine h.move (hcommitted.symm ▸ h.serial) (fun _ _ => rfl) ?_
    (h.others (TxnClient.txn_inside hp) hframe fun t' ht' => by cases ht') (Or.inl hcommitted) (fun hw => ?_) hprog
  · obtain ⟨l, hl, hfst⟩ := (h.logged i).program
    rw [TxnClient.current, hp] at hfst
    rw [hl]
    exact .thrown c e l rfl hfst
  · obtain ⟨_, _, _, hp', _⟩ := hw
    cases hp'

/-- A transaction that ends with a reply, having done what it would have done alone. -/
theorem Inv.finish (h : Inv hS code m₀ prog log s) {c : α} {t : S.Txn} {p : TxnProg κ ν ε χ β} {e : TxnEnd κ ν β}
    (hp : (s.client i).point = .inside c t p)
    (hrun : ∀ m, TxnClient.Inside hS code s.env c t p m → code.runs S.notFound m c = .ok e) {env : S.State}
    (hcommitted : hS.committed env = if e.commits ∧ ¬ code.readOnly c then e.map else hS.committed s.env)
    (hframe : ∀ t', t' ≠ t → hS.live env t' = hS.live s.env t') :
    ∃ log', log <+: log' ∧ Inv hS code m₀ prog log' (s.move i
      { s.client i with point := .idle, history := (s.client i).history ++ [(c, e.reply)] } env) := by
  have hprog : ((s.client i).history ++ [(c, e.reply)]).map Prod.fst ++ [] ++ (s.client i).todo = prog i := by
    rw [← h.program i, TxnClient.current, hp]
    simp
  have hlive := h.others (TxnClient.txn_inside hp) hframe
    (x := { s.client i with point := .idle, history := (s.client i).history ++ [(c, e.reply)] })
    (fun t' ht' => by cases ht')
  have hidle : ¬ TxnClient.Writing (S := S) code
      { s.client i with point := .idle, history := (s.client i).history ++ [(c, e.reply)] } := by
    rintro ⟨_, _, _, hp', _⟩
    cases hp'
  rcases (h.logged i).of_inside hp with ⟨hk, m, hi, hl⟩ | ⟨hk, hi, hl⟩
  · -- a read is in the log since it began
    rw [if_neg (by simp [hk])] at hcommitted
    refine ⟨log, List.prefix_rfl, h.move (hcommitted.symm ▸ h.serial) (fun _ _ => rfl) ?_ hlive (Or.inl hcommitted)
      (fun hw => absurd hw hidle) hprog⟩
    rw [hl, TxnCode.yields_ok (hrun m hi)]
    exact .idle rfl
  · -- a write is entered now, behind all that was committed before it
    have heffect : code.effect S.notFound (hS.committed s.env) c = .ok (hS.committed env, e.reply) := by
      rw [hcommitted, TxnCode.effect, hrun _ hi]
      rfl
    refine ⟨log ++ [(i, c, e.reply)], List.prefix_append _ _, h.move (h.serial.snoc heffect i)
      (fun j hj => historyOf_snoc_ne (Ne.symm hj) _ _) ?_ hlive
      (Or.inr fun j hj hwj => hj (h.alone j i hwj ⟨c, t, p, hp, hk⟩)) (fun hw => absurd hw hidle) hprog⟩
    rw [historyOf_snoc_self, hl]
    exact .idle rfl

theorem Inv.act (h : Inv hS code m₀ prog log s) (hcode : ∀ c, (code.body c).Careful S.notFound (code.readOnly c) False)
    (hs : s.act code i = some s') : ∃ log', log <+: log' ∧ Inv hS code m₀ prog log' s' := by
  unfold TxnRun.act at hs
  dsimp only at hs
  split at hs
  · -- the client begins its next call
    rename_i hp
    split at hs
    · cases hs
    · rename_i c rest htodo
      split at hs
      · cases hs
      · rename_i e env hb
        cases hs
        exact h.begin hcode hp htodo hb ⟨rfl, rfl⟩ rfl
      · rename_i t env hb
        cases hs
        exact h.begin hcode hp htodo hb ⟨rfl, rfl⟩ rfl
  · rename_i c t o k hp
    cases hs
    exact ⟨log, List.prefix_rfl, h.call hp⟩
  · -- what a commit commits was the map of the transaction alone
    rename_i c t reply failed hp
    obtain ⟨view, hlive, hrun⟩ := (h.logged i).ends hp fun _ hi => hi.runs_commit
    split at hs
    · rename_i u env hc
      cases hs
      obtain ⟨hcommitted, hframe⟩ := hS.commit_ok hlive hc
      refine h.finish hp hrun ?_ hframe
      rw [hcommitted]
      cases code.readOnly c <;> simp
    · rename_i e env hc
      cases hs
      obtain ⟨hcommitted, hframe⟩ := hS.commit_error hlive hc
      exact ⟨log, List.prefix_rfl, h.fail hp hcommitted hframe _⟩
  · -- an abort leaves what is committed
    rename_i c t reply hp
    cases hs
    obtain ⟨view, hlive, hrun⟩ := (h.logged i).ends hp fun _ hi => hi.runs_abort
    obtain ⟨hcommitted, hframe⟩ := hS.abort_eq hlive
    refine h.finish hp hrun ?_ hframe
    rw [hcommitted]
    simp
  · cases hs
  · cases hs

theorem Inv.step (h : Inv hS code m₀ prog log s) (hcode : ∀ c, (code.body c).Careful S.notFound (code.readOnly c) False)
    {e : TxnEvent ι} (hs : s.step code e = some s') : ∃ log', log <+: log' ∧ Inv hS code m₀ prog log' s' := by
  cases e with
  | exit =>
    cases hs
    exact ⟨log, List.prefix_rfl, h.serial, h.logged, h.apart, h.alone, h.program⟩
  | step i =>
    simp only [TxnRun.step] at hs
    split at hs
    · cases hs
    · exact h.act hcode hs

/-- The log only grows along a run: what has returned comes before what begins later. -/
theorem Inv.extend (hcode : ∀ c, (code.body c).Careful S.notFound (code.readOnly c) False) :
    ∀ {es : List (TxnEvent ι)} {s u : TxnRun S ι χ α β} {log : List (ι × α × β)}, Inv hS code m₀ prog log s →
      Lib.run (TxnRun.step code) s es = some u → ∃ log', log <+: log' ∧ Inv hS code m₀ prog log' u
  | [], s, u, log, h, hrun => by
    cases hrun
    exact ⟨log, List.prefix_rfl, h⟩
  | e :: es, s, u, log, h, hrun => by
    obtain ⟨t, ht, hrun⟩ := (run_cons_some _).mp hrun
    obtain ⟨log₁, hle₁, h₁⟩ := h.step hcode ht
    obtain ⟨log₂, hle₂, h₂⟩ := h₁.extend hcode hrun
    exact ⟨log₂, hle₁.trans hle₂, h₂⟩

theorem Inv.program_initial (h : Inv hS code m₀ prog log s) (i : ι) : (historyOf i log).map Prod.fst <+: prog i := by
  obtain ⟨l, heq, hl⟩ := (h.logged i).program
  rw [heq, List.map_append, ← h.program i, List.append_assoc, List.prefix_append_right_inj]
  exact hl.trans (List.prefix_append _ _)

end TxnRun

end

end Lib
