import Ycsb.Benchmark
import Ycsb.KeySpaceSound
import Ycsb.WholeRecords

/-!
# What a benchmark run does to the store

With all fields written and keys from zero on, no call of a run fails, whatever
the threads do in between: the record of a published key is there, and each
record holds the values of one operation.
-/

namespace Ycsb

open Lib DB

/-! ## Calls of the store -/

/-- The bytes to put are those of a row that one operation has built. -/
def StoreCall.Holds (wl : CoreWorkload) (D : Draws → Prop) : StoreCall → Prop
  | .put data => ∃ d, D d ∧ data = RocksdbDB.serializeRow (wl.newValues d) []
  | _ => True

section
variable {S : KVStore Bytes Bytes} {wl : CoreWorkload} {hS : S.Ordered} {D : Draws → Prop} {db : S.State}
  {completed : Finset ℕ} {m : OrdMap Bytes Row} (hw : wl.WritesSchema) (hD : ∀ d, D d → wl.DrawsOk d)
include hw hD

theorem storeCall_ok (h : Whole wl hS D db completed m) {keyNum : ℕ} (hk : keyNum ∈ completed) {d : Draws} (hd : D d)
    {c : StoreCall} (hc : c.Holds wl D) :
    ∃ db' more m', wl.storeCall S db (wl.buildKeyName keyNum) d c = .ok (db', .kOK, more) ∧
      Whole wl hS D db' completed m' ∧ ∀ c ∈ more, c.Holds wl D := by
  obtain ⟨row, hrow⟩ := Option.isSome_iff_exists.mp ((h.keys _).mpr ⟨keyNum, hk, rfl⟩)
  have hnames := h.names hw hD (OrdMap.mem_of_get hrow)
  cases c with
  | read =>
    obtain ⟨result, hread⟩ := h.read hw hD (hD d hd) (wl.buildKeyName keyNum)
    have hsome : (S.get db (wl.buildKeyName keyNum)).isSome = true := by rw [h.coupled.get, hrow]; rfl
    rw [if_pos hsome] at hread
    refine ⟨db, [], m, ?_, h, fun _ hc => by cases hc⟩
    simp only [CoreWorkload.storeCall, hread, bind, Except.bind, pure, Except.pure]
  | scan =>
    have hsel : ∀ a ∈ (m.entries.filter fun a => decide (wl.buildKeyName keyNum ≤ a.1)).take
        (toInt (d.scanLen % 2 ^ 32)).toNat, RecordStore.Selects (wl.readFields d) a.2 := fun a ha =>
      CoreWorkload.selects_readFields (hD d hd)
        (h.names hw hD (List.mem_of_mem_filter (List.mem_of_mem_take ha)))
    refine ⟨db, [], m, ?_, h, fun _ hc => by cases hc⟩
    simp only [CoreWorkload.storeCall, scanSingle_coupled h.coupled hsel, bind, Except.bind, pure, Except.pure]
  | get =>
    obtain ⟨hvalues, hwf⟩ := CoreWorkload.newValues_wf hw (hD d hd)
    have hsame : Lib.names row = Lib.names (wl.newValues d) := hnames.trans hvalues.symm
    have hrow' := h.coupled.wf_get hrow
    -- the new values name every field, so nothing of the old row is left
    have hup : RocksdbDB.updateData wl.fieldCount (wl.newValues d) (rowBytes row) =
        .ok (RocksdbDB.serializeRow (wl.newValues d) []) := by
      have hfold := RocksdbDB.foldlM_updateField (wl.newValues d) row hrow'.nodup
        fun f hf => hsame ▸ List.mem_map_of_mem hf
      rw [overwrite_all hwf.nodup hsame] at hfold
      simp only [RocksdbDB.updateData, RocksdbDB.deserializeFull_rowBytes hrow', hfold, bind, Except.bind]
      rfl
    refine ⟨db, [.put _], m, ?_, h, fun c hc => List.mem_singleton.mp hc ▸ ⟨d, hd, rfl⟩⟩
    simp only [CoreWorkload.storeCall, h.coupled.get, hrow, Option.map_some, hup, bind, Except.bind, pure, Except.pure]
  | put data =>
    obtain ⟨d', hd', rfl⟩ := hc
    have hput := h.put hw hD hd' keyNum
    rw [Finset.insert_eq_of_mem hk] at hput
    exact ⟨_, [], _, rfl, hput, fun _ hc => by cases hc⟩

end

/-! ## The threads -/

def busy : Pc → ℕ
  | .idle => 0
  | _ => 1

/-- What a thread at this place has to show for its operation. -/
def Awaits (calls : List StoreCall) (status : Status) : Pc → Prop
  | .inserted _ => status = .kOK
  | .choosing | .chosen _ | .touching _ => calls ≠ [] ∨ status = .kOK
  | _ => True

def Settings.total (cfg : Settings) : ClientPhase → ℕ
  | .load => cfg.recordCount
  | .transaction => cfg.operationCount

def BenchmarkEvent.draws {T : ℕ} : BenchmarkEvent T → Draws
  | .client _ d | .call _ d => d

namespace Benchmark

variable {S : KVStore Bytes Bytes} {T : ℕ} (wl : CoreWorkload) (cfg : Settings) (D : Draws → Prop)

structure ThreadOk (b : Benchmark S T) (t : Fin T) : Prop where
  share : b.oks t + b.clients.left t + busy (b.clients.pc t) = threadOps (cfg.total b.clients.phase) T t
  awaits : Awaits (b.calls t) (b.status t) (b.clients.pc t)
  holds : ∀ c ∈ b.calls t, c.Holds wl D
  loading : b.clients.phase = .load → b.calls t = []

structure Same (b b' : Benchmark S T) (t : Fin T) : Prop where
  left : b'.clients.left t = b.clients.left t
  pc : b'.clients.pc t = b.clients.pc t
  calls : b'.calls t = b.calls t
  status : b'.status t = b.status t
  oks : b'.oks t = b.oks t

variable {wl} {cfg} {D} {b b' : Benchmark S T} {t : Fin T}

theorem ThreadOk.same (h : ThreadOk wl cfg D b t) (hs : Same b b' t) (hp : b'.clients.phase = b.clients.phase) :
    ThreadOk wl cfg D b' t where
  share := by rw [hs.oks, hs.left, hs.pc, hp]; exact h.share
  awaits := by rw [hs.calls, hs.status, hs.pc]; exact h.awaits
  holds := by rw [hs.calls]; exact h.holds
  loading := by rw [hs.calls, hp]; exact h.loading

/-- A step of one thread leaves the others as they are. -/
structure Turn (b b' : Benchmark S T) (t : Fin T) : Prop where
  phase : b'.clients.phase = b.clients.phase
  others : ∀ t', t' ≠ t → Same b b' t'

theorem Turn.threads (h : Turn b b' t) (hall : ∀ t, ThreadOk wl cfg D b t) (ht : ThreadOk wl cfg D b' t) :
    ∀ t, ThreadOk wl cfg D b' t := by
  intro t'
  by_cases he : t' = t
  · exact he ▸ ht
  · exact (hall t').same (h.others t' he) h.phase

/-! ## The steps -/

/-- Thread `t` goes to `pc`; nobody else moves. -/
structure Goes (σ σ' : Clients T) (t : Fin T) (pc : Pc) (left : ℕ) : Prop where
  phase : σ'.phase = σ.phase
  pc : σ'.pc = Function.update σ.pc t pc
  left : σ'.left = Function.update σ.left t left

/-- A place passed within an operation. -/
inductive Passes : Pc → Pc → Prop where
  | build (keyNum : ℕ) : Passes (.drawn keyNum) (.inserting keyNum)
  | choose (keyNum : ℕ) : Passes .choosing (.chosen keyNum)
  | retry (keyNum : ℕ) : Passes (.chosen keyNum) .choosing
  | accept (keyNum : ℕ) : Passes (.chosen keyNum) (.touching keyNum)

inductive Moves (wl : CoreWorkload) (cfg : Settings) (b : Benchmark S T) : BenchmarkEvent T → Benchmark S T → Prop where
  | draw (t : Fin T) (d : Draws) (keyNum : ℕ) (σ : Clients T) (hr : b.clients.Ready t)
      (hg : Goes b.clients σ t (.drawn keyNum) (b.clients.left t - 1)) (hc : σ.completed = b.clients.completed) :
      Moves wl cfg b (.client (.next t) d) { b with clients := σ }
  | choose (t : Fin T) (d : Draws) (sample keyNum : ℕ) (σ : Clients T) (hr : b.clients.Ready t)
      (hp : b.clients.phase = .transaction) (hcalls : d.op.calls ≠ [])
      (hg : Goes b.clients σ t (.chosen keyNum) (b.clients.left t - 1)) (hc : σ.completed = b.clients.completed) :
      Moves wl cfg b (.client (.choose t sample) d)
        { b with clients := σ, calls := Function.update b.calls t d.op.calls }
  | pass (e : ClientEvent T) (t : Fin T) (d : Draws) (pc : Pc) (σ : Clients T) (hpass : Passes (b.clients.pc t) pc)
      (hg : Goes b.clients σ t pc (b.clients.left t)) (hc : σ.completed = b.clients.completed) :
      Moves wl cfg b (.client e d) { b with clients := σ }
  | insert (t : Fin T) (d : Draws) (keyNum : ℕ) (σ : Clients T) (hpc : b.clients.pc t = .inserting keyNum)
      (hg : Goes b.clients σ t (if b.clients.phase = .load then .idle else .inserted keyNum) (b.clients.left t))
      (hc : σ.completed = Insert.insert keyNum b.clients.completed) :
      Moves wl cfg b (.client (.insert t) d)
        { if b.clients.phase = .load then (b.insertRecord wl t d).finish t else b.insertRecord wl t d with
          clients := σ }
  | finish (e : ClientEvent T) (t : Fin T) (d : Draws) (σ : Clients T)
      (hpc : (∃ keyNum, b.clients.pc t = .inserted keyNum) ∨
        ∃ keyNum, b.clients.pc t = .touching keyNum ∧ b.calls t = [])
      (hg : Goes b.clients σ t .idle (b.clients.left t)) (hc : σ.completed = b.clients.completed) :
      Moves wl cfg b (.client e d) { b.finish t with clients := σ }
  | join (d : Draws) (hp : b.clients.phase = .load) (hret : b.clients.Returned) :
      Moves wl cfg b (.client .join d) { b with
        clients := { b.clients with phase := .transaction, left := fun t => threadOps cfg.operationCount T t }
        oks := fun _ => 0 }
  | call (t : Fin T) (d : Draws) (keyNum : ℕ) (c : StoreCall) (rest more : List StoreCall) (db : S.State)
      (status : Status) (hpc : b.clients.pc t = .touching keyNum) (hcalls : b.calls t = c :: rest)
      (hok : wl.storeCall S b.db (wl.buildKeyName keyNum) d c = .ok (db, status, more)) :
      Moves wl cfg b (.call t d) { b with
        db
        calls := Function.update b.calls t (more ++ rest)
        status := Function.update b.status t status }

theorem goes_goto (σ : Clients T) (t : Fin T) (pc : Pc) : Goes σ (σ.goto t pc) t pc (σ.left t) :=
  ⟨rfl, rfl, (Function.update_eq_self t σ.left).symm⟩

theorem moves_insert {d : Draws} {σ : Clients T} {keyNum : ℕ} (hpc : b.clients.pc t = .inserting keyNum)
    (hg : Goes b.clients σ t (if b.clients.phase = .load then .idle else .inserted keyNum) (b.clients.left t))
    (hc : σ.completed = Insert.insert keyNum b.clients.completed) (he : b.effect wl d (.insert t) = some b') :
    Moves wl cfg b (.client (.insert t) d) { b' with clients := σ } := by
  cases he
  have hmove : Moves wl cfg b _ _ := .insert t d keyNum σ hpc hg hc
  have hsame : (b.insertRecord wl t d).clients.phase = b.clients.phase := by
    rw [insertRecord, hpc]
  simpa only [hsame] using hmove

theorem moves_choose {d : Draws} {σ : Clients T} {sample : ℕ} (hp : b.clients.phase = .transaction)
    (hs : b.clients.transactionStep cfg (.choose t sample) = some σ)
    (he : b.effect wl d (.choose t sample) = some b') :
    Moves wl cfg b (.client (.choose t sample) d) { b' with clients := σ } := by
  simp only [Clients.transactionStep] at hs
  split at hs
  · split at hs
    · rename_i hr
      cases hs
      simp only [effect, hr, if_true] at he
      split at he
      · cases he
      · rename_i hcalls
        cases he
        exact .choose t d sample _ _ hr hp (by simpa using hcalls) ⟨rfl, rfl, rfl⟩ rfl
    · rename_i hr
      split at hs
      · rename_i hpc
        cases hs
        simp only [effect, hr, if_false, Option.some.injEq] at he
        subst he
        exact .pass _ t d _ _ (hpc ▸ .choose _) (goes_goto ..) rfl
      · cases hs
  · cases hs

theorem effect_moves_load {e : ClientEvent T} {d : Draws} {σ : Clients T} (hp : b.clients.phase = .load)
    (hs : b.clients.loadStep cfg e = some σ) (he : b.effect wl d e = some b') :
    Moves wl cfg b (.client e d) { b' with clients := σ } := by
  rcases Clients.loadStep_cases hs with ⟨t, rfl, hr, rfl⟩ | ⟨t, rfl, hb⟩ | ⟨t, rfl, hi⟩ | ⟨rfl, hret, rfl⟩
  · simp only [effect, hp, true_or, if_true, Option.some.injEq] at he
    subst he
    exact .draw t d _ _ hr ⟨rfl, rfl, rfl⟩ rfl
  · obtain ⟨keyNum, hpc, rfl⟩ := Clients.build_iff.mp hb
    cases he
    have hg := goes_goto b.clients t (.inserting keyNum)
    exact .pass _ t d _ _ (hpc ▸ .build keyNum) ⟨hg.phase, hg.pc, hg.left⟩ rfl
  · obtain ⟨keyNum, hpc, rfl⟩ := Clients.insert_iff.mp hi
    have hg := goes_goto b.clients t .idle
    refine moves_insert hpc ?_ rfl he
    rw [if_pos hp]
    exact ⟨hg.phase, hg.pc, hg.left⟩
  · cases he
    exact .join d hp hret

theorem effect_moves_transaction {e : ClientEvent T} {d : Draws} {σ : Clients T} (hp : b.clients.phase = .transaction)
    (hs : b.clients.transactionStep cfg e = some σ) (he : b.effect wl d e = some b') :
    Moves wl cfg b (.client e d) { b' with clients := σ } := by
  have hnot : ¬ b.clients.phase = .load := by rw [hp]; decide
  cases e with
  | next t =>
    simp only [Clients.transactionStep] at hs
    split at hs
    · rename_i hr
      cases hs
      simp only [effect, hnot, false_or] at he
      split at he
      · cases he
        exact .draw t d _ _ hr ⟨rfl, rfl, rfl⟩ rfl
      · cases he
    · cases hs
  | build t =>
    obtain ⟨keyNum, hpc, rfl⟩ := Clients.build_iff.mp hs
    cases he
    have hg := goes_goto b.clients t (.inserting keyNum)
    exact .pass _ t d _ _ (hpc ▸ .build keyNum) ⟨hg.phase, hg.pc, hg.left⟩ rfl
  | insert t =>
    obtain ⟨keyNum, hpc, rfl⟩ := Clients.insert_iff.mp hs
    have hg := goes_goto b.clients t (.inserted keyNum)
    refine moves_insert hpc ?_ rfl he
    rw [if_neg hnot]
    exact ⟨hg.phase, hg.pc, hg.left⟩
  | acknowledge t =>
    obtain ⟨keyNum, gen, hpc, _, rfl⟩ := Clients.acknowledge_cases hs
    cases he
    have hg := goes_goto b.clients t .idle
    exact .finish _ t d _ (Or.inl ⟨keyNum, hpc⟩) ⟨hg.phase, hg.pc, hg.left⟩ rfl
  | choose t sample => exact moves_choose hp hs he
  | check t =>
    simp only [Clients.transactionStep] at hs
    cases hpc : b.clients.pc t with
    | chosen keyNum =>
      simp only [hpc, Option.some.injEq] at hs
      cases he
      subst hs
      refine .pass _ t d _ _ ?_ (goes_goto ..) rfl
      rw [hpc]
      split
      · -- a key beyond the limit is drawn anew
        exact .retry keyNum
      · exact .accept keyNum
    | _ => simp [hpc] at hs
  | touch t =>
    simp only [Clients.transactionStep] at hs
    cases hpc : b.clients.pc t with
    | touching keyNum =>
      simp only [hpc, Option.some.injEq] at hs
      simp only [effect] at he
      split at he
      · -- the calls of the transaction are all made
        rename_i hcalls
        cases he
        subst hs
        exact .finish _ t d _ (Or.inr ⟨keyNum, hpc, by simpa using hcalls⟩) (goes_goto ..) rfl
      · cases he
    | _ => simp [hpc] at hs
  | rdidx t => cases he
  | join => cases hs

theorem step_moves {e : BenchmarkEvent T} (h : b.step wl cfg e = some b') : Moves wl cfg b e b' := by
  cases e with
  | client e d =>
    obtain ⟨σ, hs, h⟩ := Option.bind_eq_some_iff.mp h
    obtain ⟨b₁, he, rfl⟩ := Option.map_eq_some_iff.mp h
    unfold Clients.step at hs
    cases hp : b.clients.phase with
    | load =>
      rw [hp] at hs
      exact effect_moves_load hp hs he
    | transaction =>
      rw [hp] at hs
      exact effect_moves_transaction hp hs he
  | call t d =>
    simp only [step] at h
    split at h
    · rename_i keyNum c rest hpc hcalls
      split at h
      · rename_i db status more hok
        cases h
        exact .call t d keyNum c rest more db status hpc hcalls hok
      · cases h
    · cases h

/-! ## What a step keeps -/

theorem Goes.others {σ σ' : Clients T} {pc : Pc} {left : ℕ} (h : Goes σ σ' t pc left) {t' : Fin T} (ht : t' ≠ t) :
    σ'.pc t' = σ.pc t' ∧ σ'.left t' = σ.left t' := by
  rw [h.pc, h.left]
  exact ⟨Function.update_of_ne ht _ _, Function.update_of_ne ht _ _⟩

theorem Goes.self {σ σ' : Clients T} {pc : Pc} {left : ℕ} (h : Goes σ σ' t pc left) :
    σ'.pc t = pc ∧ σ'.left t = left := by
  rw [h.pc, h.left]
  exact ⟨Function.update_self .., Function.update_self ..⟩

section
variable {σ : Clients T} {pc : Pc} {left : ℕ}

theorem threads_goes (h : ∀ t, ThreadOk wl cfg D b t) (hg : Goes b.clients σ t pc left)
    (hshare : left + busy pc = b.clients.left t + busy (b.clients.pc t))
    (hawaits : Awaits (b.calls t) (b.status t) pc) : ∀ t', ThreadOk wl cfg D { b with clients := σ } t' := by
  obtain ⟨hpc, hleft⟩ := hg.self
  have hturn : Turn b { b with clients := σ } t :=
    ⟨hg.phase, fun t' ht' => ⟨(hg.others ht').2, (hg.others ht').1, rfl, rfl, rfl⟩⟩
  refine hturn.threads h ⟨?_, ?_, (h t).holds, fun hp => (h t).loading (hg.phase ▸ hp)⟩
  · have hold := (h t).share
    simp only [hpc, hleft, hg.phase]
    omega
  · simp only [hpc]
    exact hawaits

theorem threads_choose (h : ∀ t, ThreadOk wl cfg D b t) (hr : b.clients.Ready t) (hp : b.clients.phase = .transaction)
    {op : Operation} (hcalls : op.calls ≠ []) {keyNum : ℕ}
    (hg : Goes b.clients σ t (.chosen keyNum) (b.clients.left t - 1)) :
    ∀ t', ThreadOk wl cfg D { b with clients := σ, calls := Function.update b.calls t op.calls } t' := by
  obtain ⟨hpc, hleft⟩ := hg.self
  obtain ⟨hidle, hpos⟩ := hr
  have hturn : Turn b { b with clients := σ, calls := Function.update b.calls t op.calls } t :=
    ⟨hg.phase, fun t' ht' => ⟨(hg.others ht').2, (hg.others ht').1, Function.update_of_ne ht' _ _, rfl, rfl⟩⟩
  refine hturn.threads h ⟨?_, ?_, ?_, fun hp' => absurd (hp.symm.trans (hg.phase.symm.trans hp')) (by decide)⟩
  · have hold := (h t).share
    simp only [hpc, hleft, hg.phase, hidle, busy] at hold ⊢
    omega
  · simp only [hpc, Function.update_self]
    exact Or.inl hcalls
  · simp only [Function.update_self]
    intro c hc
    cases op <;> simp only [Operation.calls, List.mem_cons, List.not_mem_nil, or_false] at hc
    · exact hc ▸ trivial
    · exact hc ▸ trivial
    · exact hc ▸ trivial
    · rcases hc with rfl | rfl <;> trivial

theorem threads_finish (h : ∀ t, ThreadOk wl cfg D b t) (hbusy : busy (b.clients.pc t) = 1) (hok : b.status t = .kOK)
    (hg : Goes b.clients σ t .idle (b.clients.left t)) :
    ∀ t', ThreadOk wl cfg D { b.finish t with clients := σ } t' := by
  obtain ⟨hpc, hleft⟩ := hg.self
  have hturn : Turn b { b.finish t with clients := σ } t :=
    ⟨hg.phase, fun t' ht' => ⟨(hg.others ht').2, (hg.others ht').1, rfl, rfl, Function.update_of_ne ht' _ _⟩⟩
  refine hturn.threads h ⟨?_, ?_, (h t).holds, fun hp => (h t).loading (hg.phase ▸ hp)⟩
  · have hold := (h t).share
    simp only [finish, Function.update_self, hok, if_true, hpc, hleft, hg.phase, busy]
    omega
  · simp only [hpc]
    trivial

end

theorem threads_call (h : ∀ t, ThreadOk wl cfg D b t) {keyNum : ℕ} (hpc : b.clients.pc t = .touching keyNum)
    {c : StoreCall} {rest more : List StoreCall} (hcalls : b.calls t = c :: rest) (hmore : ∀ c ∈ more, c.Holds wl D)
    (db : S.State) : ∀ t', ThreadOk wl cfg D { b with
      db
      calls := Function.update b.calls t (more ++ rest)
      status := Function.update b.status t .kOK } t' := by
  have hturn : Turn b { b with
      db
      calls := Function.update b.calls t (more ++ rest)
      status := Function.update b.status t .kOK } t :=
    ⟨rfl, fun t' ht' => ⟨rfl, rfl, Function.update_of_ne ht' _ _, Function.update_of_ne ht' _ _, rfl⟩⟩
  refine hturn.threads h ⟨(h t).share, ?_, ?_, fun hp => ?_⟩
  · simp only [hpc, Function.update_self]
    exact Or.inr rfl
  · simp only [Function.update_self]
    intro c' hc'
    rcases List.mem_append.mp hc' with hc' | hc'
    · exact hmore c' hc'
    · exact (h t).holds c' (hcalls ▸ List.mem_cons_of_mem c hc')
  · have hnil := (h t).loading hp
    rw [hcalls] at hnil
    cases hnil

theorem insertRecord_eq {keyNum : ℕ} {d : Draws} (hpc : b.clients.pc t = .inserting keyNum) :
    b.insertRecord wl t d = { b with
      db := S.put b.db (wl.buildKeyName keyNum) (RocksdbDB.serializeRow (wl.newValues d) [])
      status := Function.update b.status t .kOK } := by
  rw [insertRecord, hpc]
  rfl

theorem threads_insertRecord (h : ∀ t, ThreadOk wl cfg D b t) {keyNum : ℕ}
    (hpc : b.clients.pc t = .inserting keyNum) (d : Draws) : ∀ t', ThreadOk wl cfg D (b.insertRecord wl t d) t' := by
  rw [insertRecord_eq hpc]
  have hturn : Turn b { b with
      db := S.put b.db (wl.buildKeyName keyNum) (RocksdbDB.serializeRow (wl.newValues d) [])
      status := Function.update b.status t .kOK } t :=
    ⟨rfl, fun t' ht' => ⟨rfl, rfl, rfl, Function.update_of_ne ht' _ _, rfl⟩⟩
  refine hturn.threads h ⟨(h t).share, ?_, (h t).holds, (h t).loading⟩
  simp only [hpc]
  trivial

/-! ## The invariant -/

variable (wl) (cfg) (D) in
structure BenchInv (hS : S.Ordered) (b : Benchmark S T) : Prop where
  phase : Clients.PhaseInv cfg (Clients.RunInv cfg) b.clients
  stored : ∃ m, Whole wl hS D b.db b.clients.completed m
  threads : ∀ t, ThreadOk wl cfg D b t

def InWindow (b : Benchmark S T) : BenchmarkEvent T → Prop
  | .client e _ => Clients.InWindow b.clients e
  | .call _ _ => True

/-- The call that happens here returns `kOK`, and an acknowledgement does not throw. -/
def Answered (wl : CoreWorkload) (b : Benchmark S T) : BenchmarkEvent T → Prop
  | .call t d => ∀ keyNum c rest, b.clients.pc t = .touching keyNum → b.calls t = c :: rest →
      ∃ db more, wl.storeCall S b.db (wl.buildKeyName keyNum) d c = .ok (db, .kOK, more)
  | .client (.acknowledge t) _ => b.clients.phase = .transaction → ∀ keyNum, b.clients.pc t = .inserted keyNum →
      ∃ gen, b.clients.transactionInsertKeySequence.gen.acknowledge keyNum = .ok gen
  | .client _ _ => True

section
variable {hS : S.Ordered} (hw : wl.WritesSchema) (hD : ∀ d, D d → wl.DrawsOk d)
include hw hD

theorem BenchInv.call (h : BenchInv wl cfg D hS b) {keyNum : ℕ} {d : Draws} (hd : D d)
    (hpc : b.clients.pc t = .touching keyNum) {c : StoreCall} {rest : List StoreCall} (hcalls : b.calls t = c :: rest) :
    ∃ db more m, wl.storeCall S b.db (wl.buildKeyName keyNum) d c = .ok (db, .kOK, more) ∧
      Whole wl hS D db b.clients.completed m ∧ ∀ c ∈ more, c.Holds wl D := by
  have hp : b.clients.phase = .transaction := by
    cases hp : b.clients.phase with
    | load =>
      have hnil := (h.threads t).loading hp
      rw [hcalls] at hnil
      cases hnil
    | transaction => rfl
  obtain ⟨m, hm⟩ := h.stored
  have hkey := Clients.runInv_existing (e := .touch t) h.phase hp keyNum hpc
  exact storeCall_ok hw hD hm hkey hd ((h.threads t).holds c (hcalls ▸ List.mem_cons_self))

theorem BenchInv.stored_step (h : BenchInv wl cfg D hS b) {e : BenchmarkEvent T} (hd : D e.draws)
    (hm : Moves wl cfg b e b') : ∃ m, Whole wl hS D b'.db b'.clients.completed m := by
  obtain ⟨m, hstored⟩ := h.stored
  cases hm with
  | draw t d keyNum σ hr hg hc => exact ⟨m, hc ▸ hstored⟩
  | choose t d sample keyNum σ hr hp hcalls hg hc => exact ⟨m, hc ▸ hstored⟩
  | pass e t d pc σ hpass hg hc => exact ⟨m, hc ▸ hstored⟩
  | insert t d keyNum σ hpc hg hc =>
    have hput := hstored.put hw hD (d := d) hd keyNum
    have hdb : (if b.clients.phase = .load then (b.insertRecord wl t d).finish t else b.insertRecord wl t d).db =
        S.put b.db (wl.buildKeyName keyNum) (RocksdbDB.serializeRow (wl.newValues d) []) := by
      rw [insertRecord_eq hpc]
      split <;> rfl
    rw [← hdb, ← hc] at hput
    exact ⟨_, hput⟩
  | finish e t d σ hpc hg hc => exact ⟨m, hc ▸ hstored⟩
  | join d hp hret => exact ⟨m, hstored⟩
  | call t d keyNum c rest more db status hpc hcalls hok =>
    obtain ⟨db', more', m', hok', hm', _⟩ := h.call hw hD (d := d) hd hpc hcalls
    rw [hok] at hok'
    cases hok'
    exact ⟨m', hm'⟩

theorem BenchInv.threads_step (h : BenchInv wl cfg D hS b) {e : BenchmarkEvent T} (hd : D e.draws)
    (hm : Moves wl cfg b e b') : ∀ t, ThreadOk wl cfg D b' t := by
  cases hm with
  | draw t d keyNum σ hr hg hc =>
    refine threads_goes h.threads hg ?_ trivial
    rw [hr.1]
    exact Nat.sub_add_cancel hr.2
  | choose t d sample keyNum σ hr hp hcalls hg hc => exact threads_choose h.threads hr hp hcalls hg
  | pass e t d pc σ hpass hg hc =>
    have hawaits := (h.threads t).awaits
    generalize hpc : b.clients.pc t = pc₀ at hpass hawaits
    cases hpass with
    | build keyNum => exact threads_goes h.threads hg (by rw [hpc]; rfl) trivial
    | _ => exact threads_goes h.threads hg (by rw [hpc]; rfl) hawaits
  | insert t d keyNum σ hpc hg hc =>
    have hthreads := threads_insertRecord h.threads hpc d
    rw [insertRecord_eq hpc] at hthreads ⊢
    -- only in a load is the insert the whole turn
    by_cases hp : b.clients.phase = .load
    · simp only [hp, if_true] at hg ⊢
      exact threads_finish hthreads (by rw [hpc]; rfl) (Function.update_self ..) hg
    · simp only [hp, if_false] at hg ⊢
      exact threads_goes hthreads hg (by rw [hpc]; rfl) (Function.update_self ..)
  | finish e t d σ hpc hg hc =>
    have hawaits := (h.threads t).awaits
    rcases hpc with ⟨keyNum, hpc⟩ | ⟨keyNum, hpc, hcalls⟩
    · rw [hpc] at hawaits
      exact threads_finish h.threads (by rw [hpc]; rfl) hawaits hg
    · rw [hpc] at hawaits
      exact threads_finish h.threads (by rw [hpc]; rfl) (hawaits.resolve_left (not_not_intro hcalls)) hg
  | join d hp hret =>
    intro t
    refine ⟨?_, ?_, (h.threads t).holds, fun hp => by cases hp⟩
    · simp [(hret t).1, busy, Settings.total]
    · simp only [(hret t).1]
      trivial
  | call t d keyNum c rest more db status hpc hcalls hok =>
    obtain ⟨db', more', m', hok', _, hmore⟩ := h.call hw hD (d := d) hd hpc hcalls
    rw [hok] at hok'
    cases hok'
    exact threads_call h.threads hpc hcalls hmore _

theorem BenchInv.step (h0 : cfg.insertStart = 0) (hN : 1 ≤ cfg.recordCount) (hT : 0 < T)
    (h : BenchInv wl cfg D hS b) {e : BenchmarkEvent T} (hC : InWindow b e) (hd : D e.draws)
    (hs : b.step wl cfg e = some b') : BenchInv wl cfg D hS b' := by
  have hm := step_moves hs
  refine ⟨?_, h.stored_step hw hD hd hm, h.threads_step hw hD hd hm⟩
  cases e with
  | client e d =>
    obtain ⟨σ, hσ, hs⟩ := Option.bind_eq_some_iff.mp hs
    obtain ⟨b₁, _, rfl⟩ := Option.map_eq_some_iff.mp hs
    exact Clients.phaseRun_step h0 hN hT h.phase (Clients.InWindow.noOverrun hC) hσ
  | call t d =>
    cases hm with
    | call => exact h.phase

theorem BenchInv.answered (h : BenchInv wl cfg D hS b) {e : BenchmarkEvent T} (hC : InWindow b e) (hd : D e.draws) :
    Answered wl b e := by
  cases e with
  | call t d =>
    intro keyNum c rest hpc hcalls
    obtain ⟨db, more, _, hok, _⟩ := h.call hw hD (d := d) hd hpc hcalls
    exact ⟨db, more, hok⟩
  | client e d =>
    cases e with
    | acknowledge t =>
      intro hp keyNum hpc
      have hinv := h.phase.transaction hp
      have hout : b.clients.ackThreads.outstanding t = some keyNum := congrArg Clients.heldKey hpc
      obtain ⟨hh, hn⟩ := hinv.owned.pending t keyNum hout
      obtain ⟨L', win, hok, _⟩ := acknowledge_spec hinv.ack hh hn (hC keyNum hpc)
      exact ⟨_, hok⟩
    | _ => trivial

end

/-! ## Runs -/

theorem BenchInv.sum (hT : 0 < T) {hS : S.Ordered} (h : BenchInv wl cfg D hS b) (hret : b.clients.Returned) :
    ∑ t, b.oks t = cfg.total b.clients.phase := by
  have hshare : ∀ t, b.oks t = threadOps (cfg.total b.clients.phase) T t := fun t => by
    have hold := (h.threads t).share
    rw [(hret t).1, (hret t).2] at hold
    exact hold
  rw [← sum_threadOps (cfg.total b.clients.phase) hT]
  exact Finset.sum_congr rfl fun t _ => hshare t

def twoFields : CoreWorkload := { CoreWorkload.default with fieldCount := 2, writeAllFields := true }

def draw (op : Operation) (byte : Byte) : Draws := ⟨op, [], 0, 1, fun _ => [byte]⟩

end Benchmark

end Ycsb
