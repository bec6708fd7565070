import Ycsb.AckSound
import Ycsb.Wrapper

/-!
# What a transaction reports

Every operation but `RDIDX` makes the calls that define it, each is reported
once under its outcome, and the transaction returns the outcome of the last,
unless something throws on the way: a wrapped call, which is then not reported,
or `Acknowledge`. `RDIDX` makes no call.
-/

namespace Ycsb

open Lib DB

/-! ## The property -/

def WrappedCall.op : WrappedCall → Operation
  | .call (.read ..) => .read
  | .call (.scan ..) => .scan
  | .call (.update ..) => .update
  | .call (.insert ..) => .insert
  | .call (.delete ..) => .delete
  | .readIdx _ => .rdidx

def Operation.kinds : Operation → List Operation
  | .readModifyWrite => [.read, .update]
  | op => [op]

def Succeeded : Except Exception Status → Bool
  | .ok s => s = .kOK
  | .error _ => false

def label (c : WrappedCall × Except Exception Status) : OpType :=
  if Succeeded c.2 then .done c.1.op else .failed c.1.op

namespace Outcome

def lastOk (o : Outcome) : Bool := o.calls.getLast?.any fun c => Succeeded c.2

def ok (o : Outcome) : Bool :=
  match o.ending with
  | some (.ok ok) => ok
  | _ => false

structure Reports (o : Outcome) : Prop where
  kinds : o.calls.map (fun c => c.1.op) = o.op.kinds
  reports : o.reports.map Prod.fst = o.calls.map label
  ending : o.ending = some (.ok o.lastOk)

end Outcome

/-- A run does what its transactions say: there is an outcome for each, the calls and
reports are theirs, one after the other, and the returned values count the
transactions whose last call succeeded. -/
structure Accounts {δ : Type} (s s' : Driver δ) (ds : List (Draws × Status)) (outcomes : List Outcome) : Prop where
  ops : outcomes.map Outcome.op = ds.map fun d => d.1.op
  each : ∀ o ∈ outcomes, o.Reports
  calls : s'.wrapper.calls = s.wrapper.calls ++ (outcomes.map Outcome.calls).flatten
  reports : s'.wrapper.reports = s.wrapper.reports ++ (outcomes.map Outcome.reports).flatten
  sum : outcomes.countP Outcome.ok = outcomes.countP Outcome.lastOk

/-! ## Its condition -/

section
variable {δ : Type} (wl : CoreWorkload) (base : Behaviour δ)

/-- None of the calls throws when they are made one after the other. -/
def Answers : δ → List WrappedCall → Prop
  | _, [] => True
  | db, c :: cs => (∃ status, (base db c).2.1 = .ok status) ∧ Answers (base db c).1 cs

def Operation.wrappedCalls (d : Draws) (keyNum : ℕ) : Operation → List WrappedCall
  | .read => [.call (.read (wl.buildKeyName keyNum) (wl.readFields d))]
  | .update => [.call (.update (wl.buildKeyName keyNum) (wl.newValues d))]
  | .insert => [.call (.insert (wl.buildKeyName keyNum) (wl.newValues d))]
  | .scan => [.call (.scan (wl.buildKeyName keyNum) (toInt (d.scanLen % 2 ^ 32)) (wl.readFields d))]
  | .readModifyWrite =>
    [.call (.read (wl.buildKeyName keyNum) (wl.readFields d)),
      .call (.update (wl.buildKeyName keyNum) (wl.newValues d))]
  | .delete | .rdidx => []

namespace Driver

/-- A key is drawn, no wrapped call throws, and `Acknowledge` of an inserted number does not. -/
def Answered (s : Driver δ) (d : Draws) : Prop :=
  match d.op with
  | .rdidx => True
  | .delete => False
  | .insert =>
    Answers base s.wrapper.db (Operation.insert.wrappedCalls wl d s.transactionInsertKeySequence.next.1) ∧
      ∃ gen, s.transactionInsertKeySequence.next.2.acknowledge s.transactionInsertKeySequence.next.1 = .ok gen
  | op => ∃ keyNum, CoreWorkload.nextTransactionKeyNum d s.transactionInsertKeySequence = some keyNum ∧
      Answers base s.wrapper.db (op.wrappedCalls wl d keyNum)

def Settles (s : Driver δ) (d : Draws × Status) : Prop := d.1.op ≠ .rdidx ∧ s.Answered wl base d.1

/-- One transaction of the run. -/
def turn (s : Driver δ) (d : Draws × Status) : Option (Driver δ) := some (s.doTransaction wl base d.1 d.2).2

end Driver

end

/-! ## Calls through the wrapper -/

structure Extends {δ : Type} (w w' : DBWrapper δ) (cs : List (WrappedCall × Except Exception Status))
    (rs : List (OpType × ℕ)) : Prop where
  calls : w'.calls = w.calls ++ cs
  reports : w'.reports = w.reports ++ rs

/-- What making the calls comes to: all answered and reported, or an exception. -/
inductive Body {δ : Type} (base : Behaviour δ) (w : DBWrapper δ) (calls : List WrappedCall) :
    Except Exception Status × DBWrapper δ → Prop where
  | answered {w' : DBWrapper δ} {cs : List (WrappedCall × Except Exception Status)} {rs : List (OpType × ℕ)}
      {status : Status} (hext : Extends w w' cs rs) (hcalls : cs.map Prod.fst = calls)
      (hlabels : rs.map Prod.fst = cs.map label) (hlast : cs.getLast?.map Prod.snd = some (.ok status))
      (hans : Answers base w.db calls) : Body base w calls (.ok status, w')
  | threw {w' : DBWrapper δ} {cs : List (WrappedCall × Except Exception Status)} {rs : List (OpType × ℕ)}
      {e : Exception} (hext : Extends w w' cs rs) (hans : ¬ Answers base w.db calls) : Body base w calls (.error e, w')

section
variable {δ : Type} {base : Behaviour δ} {w w' w'' : DBWrapper δ}
  {cs cs' : List (WrappedCall × Except Exception Status)} {rs rs' : List (OpType × ℕ)}

theorem Extends.refl (w : DBWrapper δ) : Extends w w [] [] := ⟨by simp, by simp⟩

theorem Extends.trans (h : Extends w w' cs rs) (h' : Extends w' w'' cs' rs') :
    Extends w w'' (cs ++ cs') (rs ++ rs') where
  calls := by rw [h'.calls, h.calls, List.append_assoc]
  reports := by rw [h'.reports, h.reports, List.append_assoc]

theorem answers_one {db : δ} {c : WrappedCall} : Answers base db [c] ↔ ∃ status, (base db c).2.1 = .ok status := by
  simp [Answers]

theorem timed_db (base : Behaviour δ) (w : DBWrapper δ) (op : Operation) (c : WrappedCall) :
    (DBWrapper.timed base w op c).2.db = (base w.db c).1 := by
  unfold DBWrapper.timed
  rcases base w.db c with ⟨db, answer, elapsed⟩
  cases answer <;> rfl

theorem timed_body (base : Behaviour δ) (w : DBWrapper δ) (op : Operation) {c : WrappedCall} (h : c.op = op) :
    Body base w [c] (DBWrapper.timed base w op c) := by
  subst h
  unfold DBWrapper.timed
  cases hb : (base w.db c).2.1 with
  | ok status =>
    simp only [hb]
    refine @Body.answered _ _ _ _ _ [(c, .ok status)] _ _ ⟨rfl, rfl⟩ rfl ?_ rfl (answers_one.mpr ⟨status, hb⟩)
    simp [label, Succeeded]
  | error e =>
    simp only [hb]
    refine @Body.threw _ _ _ _ _ [(c, .error e)] [] _ ⟨rfl, by simp⟩ fun hans => ?_
    obtain ⟨status, hok⟩ := answers_one.mp hans
    rw [hb] at hok
    cases hok

end

/-! ## One transaction -/

namespace Driver

variable {δ : Type} {wl : CoreWorkload} {base : Behaviour δ} {s s' : Driver δ} {d : Draws}

theorem transactionReadModifyWrite_body (keyNum : ℕ) : Body base s.wrapper
    (Operation.readModifyWrite.wrappedCalls wl d keyNum) (s.transactionReadModifyWrite wl base d keyNum) := by
  unfold transactionReadModifyWrite DBWrapper.read DBWrapper.update
  have hread := timed_body base s.wrapper .read
    (c := .call (.read (wl.buildKeyName keyNum) (wl.readFields d))) rfl
  have hdb := timed_db base s.wrapper .read (.call (.read (wl.buildKeyName keyNum) (wl.readFields d)))
  simp only
  generalize DBWrapper.timed base s.wrapper .read _ = r at hread hdb
  cases hread with
  | @answered w' cs rs status hext hcalls hlabels _ hans =>
    simp only at hdb ⊢
    have hupdate := timed_body base w' .update
      (c := .call (.update (wl.buildKeyName keyNum) (wl.newValues d))) rfl
    generalize DBWrapper.timed base w' .update _ = r' at hupdate
    -- the second call meets the database as the first has left it
    cases hupdate with
    | answered hext' hcalls' hlabels' hlast' hans' =>
      refine .answered (hext.trans hext') ?_ ?_ ?_ ⟨answers_one.mp hans, ?_⟩
      · rw [List.map_append, hcalls, hcalls']
        rfl
      · rw [List.map_append, List.map_append, hlabels, hlabels']
      · obtain ⟨c, hc, hstatus⟩ := Option.map_eq_some_iff.mp hlast'
        simp [List.getLast?_append, hc, hstatus]
      · rw [← hdb]
        exact hans'
    | threw hext' hans' =>
      refine .threw (hext.trans hext') fun h => hans' ?_
      rw [hdb]
      exact h.2
  | threw hext hans => exact .threw hext fun h => hans (answers_one.mpr h.1)

/-- What a transaction comes to: it returns after its calls, or it does not return. -/
structure Ends (s : Driver δ) (op : Operation) (settled : Prop) (r : Option (Except Exception Status) × Driver δ) :
    Prop where
  ext : ∃ cs rs, Extends s.wrapper r.2.wrapper cs rs ∧
    (settled → ∃ status, r.1 = some (.ok status) ∧ cs.map (fun c => c.1.op) = op.kinds ∧
      rs.map Prod.fst = cs.map label ∧ cs.getLast?.map Prod.snd = some (.ok status))
  fails : ¬ settled → ∀ status, r.1 ≠ some (.ok status)

theorem withKey_ends (op : Operation) {f : ℕ → Except Exception Status × DBWrapper δ}
    (hkinds : ∀ keyNum, (op.wrappedCalls wl d keyNum).map WrappedCall.op = op.kinds)
    (hf : ∀ keyNum, Body base s.wrapper (op.wrappedCalls wl d keyNum) (f keyNum)) :
    Ends s op (∃ keyNum, CoreWorkload.nextTransactionKeyNum d s.transactionInsertKeySequence = some keyNum ∧
      Answers base s.wrapper.db (op.wrappedCalls wl d keyNum)) (s.withKey d f) := by
  unfold withKey
  cases hk : CoreWorkload.nextTransactionKeyNum d s.transactionInsertKeySequence with
  | none => exact ⟨⟨[], [], Extends.refl _, by simp⟩, by simp⟩
  | some keyNum =>
    have hbody := hf keyNum
    have hops := hkinds keyNum
    simp only [Option.some.injEq, exists_eq_left']
    generalize f keyNum = r at hbody
    cases hbody with
    | @answered w' cs rs status hext hcalls hlabels hlast hans =>
      refine ⟨⟨cs, rs, hext, fun _ => ⟨status, rfl, ?_, hlabels, hlast⟩⟩, fun hn => absurd hans hn⟩
      rw [← hops, ← hcalls, List.map_map]
      rfl
    | threw hext hans => exact ⟨⟨_, _, hext, fun h => absurd h hans⟩, fun _ _ h => by cases h⟩

theorem transactionInsert_ends :
    Ends s .insert (Answers base s.wrapper.db (Operation.insert.wrappedCalls wl d s.transactionInsertKeySequence.next.1) ∧
        ∃ gen, s.transactionInsertKeySequence.next.2.acknowledge s.transactionInsertKeySequence.next.1 = .ok gen)
      (some (s.transactionInsert wl base d).1, (s.transactionInsert wl base d).2) := by
  unfold transactionInsert DBWrapper.insert
  have hbody := timed_body base s.wrapper .insert
    (c := .call (.insert (wl.buildKeyName s.transactionInsertKeySequence.next.1) (wl.newValues d))) rfl
  simp only [Operation.wrappedCalls]
  generalize DBWrapper.timed base s.wrapper .insert _ = r at hbody
  cases hbody with
  | @answered w' cs rs status hext hcalls hlabels hlast hans =>
    have hops : cs.map (fun c => c.1.op) = Operation.insert.kinds := by
      have hmap := congrArg (List.map WrappedCall.op) hcalls
      rwa [List.map_map] at hmap
    simp only
    cases hack : s.transactionInsertKeySequence.next.2.acknowledge s.transactionInsertKeySequence.next.1 with
    | ok gen => exact ⟨⟨cs, rs, hext, fun _ => ⟨status, rfl, hops, hlabels, hlast⟩⟩, fun hn => absurd ⟨hans, gen, rfl⟩ hn⟩
    | error e => exact ⟨⟨cs, rs, hext, fun h => by simp at h⟩, fun _ _ h => by cases h⟩
  | threw hext hans => exact ⟨⟨_, _, hext, fun h => absurd h.1 hans⟩, fun _ _ h => by cases h⟩

theorem Ends.outcome {op : Operation} {settled : Prop} {r : Option (Except Exception Status) × Driver δ}
    (h : Ends s op settled r) : ∃ cs rs, Extends s.wrapper r.2.wrapper cs rs ∧
      (Outcome.Reports ⟨op, cs, rs, r.1.map (Except.map fun status => decide (status = .kOK))⟩ ↔ settled) := by
  obtain ⟨cs, rs, hext, hok⟩ := h.ext
  refine ⟨cs, rs, hext, fun hrep => ?_, fun hs => ?_⟩
  · by_contra hn
    have hfails := h.fails hn
    have hend := hrep.ending
    cases hr : r.1 with
    | none => simp [hr] at hend
    | some answer =>
      cases answer with
      | ok status => exact hfails status hr
      | error e => simp [hr, Except.map] at hend
  · obtain ⟨status, hr, hkinds, hlabels, hlast⟩ := hok hs
    obtain ⟨c, hc, hstatus⟩ := Option.map_eq_some_iff.mp hlast
    refine ⟨hkinds, hlabels, ?_⟩
    simp [hr, Except.map, Outcome.lastOk, hc, hstatus, Succeeded]

/-- A transaction reports its operation exactly if it settles it. -/
theorem doTransaction_outcome (wl : CoreWorkload) (base : Behaviour δ) (s : Driver δ) (d : Draws × Status) :
    ∃ cs rs, Extends s.wrapper (s.doTransaction wl base d.1 d.2).2.wrapper cs rs ∧
      (Outcome.Reports ⟨d.1.op, cs, rs, (s.doTransaction wl base d.1 d.2).1⟩ ↔ s.Settles wl base d) := by
  obtain ⟨d, uninit⟩ := d
  unfold doTransaction Settles Answered
  cases hop : d.op with
  | read =>
    simp only [ne_eq, reduceCtorEq, not_false_eq_true, true_and]
    exact (withKey_ends .read (fun _ => rfl) fun _ => timed_body base s.wrapper .read rfl).outcome
  | update =>
    simp only [ne_eq, reduceCtorEq, not_false_eq_true, true_and]
    exact (withKey_ends .update (fun _ => rfl) fun _ => timed_body base s.wrapper .update rfl).outcome
  | insert =>
    simp only [ne_eq, reduceCtorEq, not_false_eq_true, true_and]
    exact transactionInsert_ends.outcome
  | scan =>
    simp only [ne_eq, reduceCtorEq, not_false_eq_true, true_and]
    exact (withKey_ends .scan (fun _ => rfl) fun _ => timed_body base s.wrapper .scan rfl).outcome
  | readModifyWrite =>
    simp only [ne_eq, reduceCtorEq, not_false_eq_true, true_and]
    exact (withKey_ends .readModifyWrite (fun _ => rfl) fun _ => transactionReadModifyWrite_body _).outcome
  | rdidx =>
    refine ⟨[], [], Extends.refl _, fun h => ?_, fun h => absurd rfl h.1⟩
    have hkinds := h.kinds
    cases hkinds
  | delete =>
    refine ⟨[], [], Extends.refl _, fun h => ?_, fun h => h.2.elim⟩
    have hkinds := h.kinds
    cases hkinds

/-! ## Runs -/

theorem runAll_cons (wl : CoreWorkload) (base : Behaviour δ) (s : Driver δ) (d : Draws × Status)
    (ds : List (Draws × Status)) :
    ∃ cs rs, Extends s.wrapper (s.doTransaction wl base d.1 d.2).2.wrapper cs rs ∧
      (Outcome.Reports ⟨d.1.op, cs, rs, (s.doTransaction wl base d.1 d.2).1⟩ ↔ s.Settles wl base d) ∧
      runAll wl base s (d :: ds) =
        match (s.doTransaction wl base d.1 d.2).1 with
        | some (.ok ok) =>
          (⟨d.1.op, cs, rs, some (.ok ok)⟩ :: (runAll wl base (s.doTransaction wl base d.1 d.2).2 ds).1,
            (runAll wl base (s.doTransaction wl base d.1 d.2).2 ds).2)
        | ending => ([⟨d.1.op, cs, rs, ending⟩], (s.doTransaction wl base d.1 d.2).2) := by
  obtain ⟨cs, rs, hext, hiff⟩ := doTransaction_outcome wl base s d
  refine ⟨cs, rs, hext, hiff, ?_⟩
  have hcalls : (s.doTransaction wl base d.1 d.2).2.wrapper.calls.drop s.wrapper.calls.length = cs := by
    rw [hext.calls, List.drop_left]
  have hreports : (s.doTransaction wl base d.1 d.2).2.wrapper.reports.drop s.wrapper.reports.length = rs := by
    rw [hext.reports, List.drop_left]
  rw [runAll]
  simp only [hcalls, hreports]
  generalize (s.doTransaction wl base d.1 d.2).1 = ending
  rcases ending with _ | _ | _ <;> rfl

theorem runAll_extends (wl : CoreWorkload) (base : Behaviour δ) : ∀ (ds : List (Draws × Status)) (s : Driver δ),
    Extends s.wrapper (runAll wl base s ds).2.wrapper
      ((runAll wl base s ds).1.map Outcome.calls).flatten ((runAll wl base s ds).1.map Outcome.reports).flatten
  | [], s => Extends.refl s.wrapper
  | d :: ds, s => by
    obtain ⟨cs, rs, hext, _, heq⟩ := runAll_cons wl base s d ds
    rw [heq]
    have ih := runAll_extends wl base ds (s.doTransaction wl base d.1 d.2).2
    generalize (s.doTransaction wl base d.1 d.2).1 = ending
    rcases ending with _ | _ | _
    · simpa using hext
    · simpa using hext
    · exact hext.trans ih

/-- The outcomes report the operations of the run exactly if each transaction settles its own. -/
theorem runAll_reports_iff : ∀ (ds : List (Draws × Status)) (s : Driver δ),
    ((runAll wl base s ds).1.map Outcome.op = ds.map (fun d => d.1.op) ∧ ∀ o ∈ (runAll wl base s ds).1, o.Reports) ↔
      Along (turn wl base) (Settles wl base) s ds
  | [], s => by simp [runAll, Along]
  | d :: ds, s => by
    obtain ⟨cs, rs, _, hiff, heq⟩ := runAll_cons wl base s d ds
    have ih := runAll_reports_iff ds (s.doTransaction wl base d.1 d.2).2
    have hcons : Along (turn wl base) (Settles wl base) s (d :: ds) ↔
        s.Settles wl base d ∧ Along (turn wl base) (Settles wl base) (s.doTransaction wl base d.1 d.2).2 ds := by
      simp [Along, turn]
    rw [heq, hcons, ← ih, ← hiff]
    generalize (s.doTransaction wl base d.1 d.2).1 = ending at hiff ⊢
    rcases ending with _ | _ | _
    case some.ok =>
      simp only [List.map_cons, List.cons.injEq, true_and, List.forall_mem_cons]
      exact and_left_comm
    -- the run ends with a transaction that does not return
    all_goals
      refine ⟨fun h => ?_, fun h => ?_⟩
      · have hend := (h.2 _ List.mem_cons_self).ending
        cases hend
      · have hend := h.1.ending
        cases hend

theorem Outcome.Reports.ok_eq {o : Outcome} (h : o.Reports) : o.ok = o.lastOk := by
  rw [Outcome.ok, h.ending]

theorem runAll_accounts_iff (ds : List (Draws × Status)) (s : Driver δ) :
    Accounts s (runAll wl base s ds).2 ds (runAll wl base s ds).1 ↔ Along (turn wl base) (Settles wl base) s ds := by
  rw [← runAll_reports_iff]
  refine ⟨fun h => ⟨h.ops, h.each⟩, fun h => ?_⟩
  have hext := runAll_extends wl base ds s
  exact ⟨h.1, h.2, hext.calls, hext.reports, List.countP_congr fun o ho => by rw [Outcome.Reports.ok_eq (h.2 o ho)]⟩

theorem rdidx_mem_opChooser (p : Proportions) : .rdidx ∈ p.opChooser ↔ 0 < p.rdidx := by
  simp [Proportions.opChooser]

/-- **When transactions do and report their operation.** A run accounts for its
operations exactly if none of them is `RDIDX`, each key is drawn, and neither a
wrapped call nor `Acknowledge` throws. The runs of a mix in which nothing throws
do, exactly if `readidxproportion` is not positive. -/
theorem accounts_iff (p : Proportions) (wl : CoreWorkload) (δ : Type) (base : Behaviour δ) (s : Driver δ) :
    (∀ ds, Accounts s (runAll wl base s ds).2 ds (runAll wl base s ds).1 ↔
      Along (turn wl base) (Settles wl base) s ds) ∧
    ((∀ ds, (∀ d ∈ ds, d.1.op ∈ p.opChooser) → Along (turn wl base) (fun s d => s.Answered wl base d.1) s ds →
      Accounts s (runAll wl base s ds).2 ds (runAll wl base s ds).1) ↔ p.rdidx ≤ 0) := by
  refine ⟨fun ds => runAll_accounts_iff ds s, fun hall => ?_, fun hp ds hmix hans => ?_⟩
  · by_contra hp
    have hmix := (rdidx_mem_opChooser p).mpr (not_le.mp hp)
    have hacc := hall [(⟨.rdidx, [], 0, 0, fun _ => []⟩, .kOK)] (by simpa using hmix) ⟨trivial, fun _ _ => trivial⟩
    exact ((runAll_accounts_iff _ s).mp hacc).1.1 rfl
  · refine (runAll_accounts_iff ds s).mpr (Along.mono _ (fun s d h => ⟨h.2, h.1⟩) (Along.and_forall _ ?_ hans))
    intro d hd hop
    exact absurd ((rdidx_mem_opChooser p).mp (hop ▸ hmix d hd)) (not_lt.mpr hp)

/-- The wrapped database counts its calls; the second fails, and the sixth throws. -/
def sixthThrows : Behaviour ℕ := fun n _ =>
  (n + 1, if n = 5 then .error ⟨"closed"⟩ else .ok (if n = 1 then .kNotFound else .kOK), 10 * n)

def drawn (op : Operation) : Draws × Status := (⟨op, [7, 1], 0, 5, fun _ => [65]⟩, .kOK)

/-- One transaction of each operation that `DoTransaction` performs. -/
def oneOfEach : List (Draws × Status) := [.insert, .read, .update, .readModifyWrite, .scan].map drawn

def fresh : Driver ℕ := ⟨.init 1, ⟨0, [], []⟩⟩

theorem transactionInsert_eq {status : Status} {wrapper : DBWrapper δ} {gen : AcknowledgedCounterGenerator}
    (hins : DBWrapper.insert base s.wrapper (wl.buildKeyName s.transactionInsertKeySequence.next.1) (wl.newValues d) =
      (.ok status, wrapper))
    (hack : s.transactionInsertKeySequence.next.2.acknowledge s.transactionInsertKeySequence.next.1 = .ok gen) :
    s.transactionInsert wl base d = (.ok status, ⟨gen, wrapper⟩) := by
  unfold transactionInsert
  simp only [hins, hack]

/-- What `fresh` is after its insert. -/
def inserted : Driver ℕ := ⟨⟨⟨2⟩, 1, fun _ => false⟩, (DBWrapper.insert sixthThrows fresh.wrapper
  (CoreWorkload.default.buildKeyName 1) (CoreWorkload.default.newValues (drawn .insert).1)).2⟩

theorem doTransaction_fresh : fresh.doTransaction .default sixthThrows (drawn .insert).1 (drawn .insert).2 =
    (some (.ok true), inserted) := by
  have hbody : fresh.transactionInsert .default sixthThrows (drawn .insert).1 = (.ok .kOK, inserted) :=
    transactionInsert_eq rfl acknowledge_first
  unfold doTransaction
  simp only [drawn] at hbody ⊢
  rw [hbody]
  rfl

theorem runAll_fresh (ds : List (Draws × Status)) :
    (runAll .default sixthThrows fresh (drawn .insert :: ds)).1 =
      ⟨.insert, inserted.wrapper.calls, inserted.wrapper.reports, some (.ok true)⟩ ::
        (runAll .default sixthThrows inserted ds).1 := by
  rw [runAll, doTransaction_fresh]
  rfl

/-- The first four account for themselves, the failed read included; the last throws. -/
theorem accounts_iff_oneOfEach :
    Accounts fresh (runAll .default sixthThrows fresh (oneOfEach.take 4)).2 (oneOfEach.take 4)
        (runAll .default sixthThrows fresh (oneOfEach.take 4)).1 ∧
      (runAll .default sixthThrows fresh (oneOfEach.take 4)).1.map (fun o => (o.calls.map (fun c => c.1.op), o.reports, o.ok)) =
        [([.insert], [(.done .insert, 0)], true), ([.read], [(.failed .read, 10)], false),
          ([.update], [(.done .update, 20)], true),
          ([.read, .update], [(.done .read, 30), (.done .update, 40)], true)] ∧
      ¬ Accounts fresh (runAll .default sixthThrows fresh oneOfEach).2 oneOfEach
        (runAll .default sixthThrows fresh oneOfEach).1 := by
  obtain ⟨hiff, _⟩ := accounts_iff ⟨1, 1, 1, 1, 1, 0⟩ .default ℕ sixthThrows fresh
  have hturn : turn .default sixthThrows fresh (drawn .insert) = some inserted := by
    rw [turn, doTransaction_fresh]
  refine ⟨(hiff _).mpr ?_, ?_, fun hacc => ?_⟩
  · refine Along.cons _ hturn ⟨by decide, ⟨⟨_, rfl⟩, trivial⟩, _, acknowledge_first⟩ ?_
    refine Along.cons _ rfl ⟨by decide, 1, rfl, ⟨_, rfl⟩, trivial⟩ ?_
    refine Along.cons _ rfl ⟨by decide, 1, rfl, ⟨_, rfl⟩, trivial⟩ ?_
    exact Along.cons _ rfl ⟨by decide, 1, rfl, ⟨_, rfl⟩, ⟨_, rfl⟩, trivial⟩ trivial
  · change (runAll .default sixthThrows fresh (drawn .insert :: [drawn .read, drawn .update, drawn .readModifyWrite])).1.map
      _ = _
    rw [runAll_fresh]
    rfl
  · have hall : (runAll .default sixthThrows fresh oneOfEach).1.all (fun o => o.ending.any Except.isOk) = true :=
      List.all_eq_true.mpr fun o ho => by
        rw [(hacc.each o ho).ending]
        rfl
    change (runAll .default sixthThrows fresh (drawn .insert :: _)).1.all _ = true at hall
    rw [runAll_fresh] at hall
    exact absurd hall (by decide)

/-- A mix of reads of the index only: no call is made, and the transaction may count as done. -/
theorem rdidx_counts_nothing :
    let s : Driver Unit := ⟨.init 3, ⟨(), [], []⟩⟩
    let ds : List (Draws × Status) := [(⟨.rdidx, [], 0, 0, fun _ => []⟩, .kOK)]
    let r := runAll .default (fun δ _ => (δ, .ok .kError, 1)) s ds
    r = ([⟨.rdidx, [], [], some (.ok true)⟩], s) ∧ ¬ Accounts s r.2 ds r.1 := by
  refine ⟨rfl, fun h => ?_⟩
  have hkinds := (h.each _ List.mem_cons_self).kinds
  cases hkinds

end Driver

end Ycsb
