import Ycsb.Lib.Bytes
import Ycsb.Lib.Merge
import Ycsb.Lib.OrdMap

/-!
# Stores with a merge operator

A key holds a value and the operands that came since, or operands without a value.
The store combines neighbours when it likes, and a reader gets some grouping of all
of them. `Merges` says what the store promises. Where the operator multiplies in a
semigroup, only the product of the items matters.
-/

namespace Lib

/-- The items of a key, oldest first. The first one is a value if `stored`, otherwise an operand too. -/
structure Chain (α : Type) where
  stored : Bool
  items : FreeSemigroup α

def listOf {α : Type} (s : FreeSemigroup α) : List α := s.head :: s.tail

namespace Chain

section
variable {α β ε : Type}

def value (a : α) : Chain α := ⟨true, FreeSemigroup.of a⟩

def operand (a : α) : Chain α := ⟨false, FreeSemigroup.of a⟩

def push (c : Chain α) (a : α) : Chain α := ⟨c.stored, c.items * FreeSemigroup.of a⟩

def map (f : β → α) (c : Chain β) : Chain α := ⟨c.stored, FreeSemigroup.map f c.items⟩

theorem map_push (f : β → α) (c : Chain β) (b : β) : (c.push b).map f = (c.map f).push (f b) := by
  rw [map, push, map_mul]
  rfl

/-! ## Groups of items -/

/-- What is under a chain of groups. -/
def leaves (c : Chain (FreeMagma α)) : Chain α :=
  ⟨c.stored, FreeSemigroup.lift FreeMagma.toFreeSemigroup c.items⟩

theorem leaves_push (c : Chain (FreeMagma α)) (a : α) : (c.push (.of a)).leaves = c.leaves.push a := by
  rw [leaves, push, map_mul]
  rfl

variable (op : Option α → α → Except ε α)

/-- Neighbours are combined, and what they give with its neighbours. -/
def combine : FreeMagma α → Except ε α
  | .of a => .ok a
  | .mul s t => do
    let existing ← combine s
    let second ← combine t
    op (some existing) second

/-- The groups are merged into the value from the left, without a value into nothing. -/
def resolve (c : Chain (FreeMagma α)) : Except ε α := do
  let first ← combine op c.items.head
  let first ← if c.stored then pure first else op none first
  c.items.tail.foldlM (fun existing t => do
    let second ← combine op t
    op (some existing) second) first

/-- A reader of the chain may get `r`. -/
def Resolves (c : Chain α) (r : Except ε α) : Prop :=
  ∃ g : Chain (FreeMagma α), g.leaves = c ∧ g.resolve op = r

/-- The operator fails on some of the items, which have no value below them only if the key has none. -/
def Fails (c : Chain α) (e : ε) : Prop :=
  ∃ g : Chain (FreeMagma α), (c.stored = true → g.stored = true) ∧ listOf g.leaves.items ⊆ listOf c.items ∧
    g.resolve op = .error e

variable {f : β → α}

/-- Groups whose leaves are images are the images of groups. -/
theorem exists_map_groups : ∀ (ts : List (FreeMagma α)) (t : FreeMagma α) {s : FreeSemigroup β},
    FreeSemigroup.lift FreeMagma.toFreeSemigroup ⟨t, ts⟩ = FreeSemigroup.map f s →
      ∃ g : FreeSemigroup (FreeMagma β), FreeSemigroup.map (FreeMagma.map f) g = ⟨t, ts⟩ ∧
        FreeSemigroup.lift FreeMagma.toFreeSemigroup g = s
  | [], t, s, h => by
    obtain ⟨u, rfl, hu⟩ := exists_map_tree f t h
    exact ⟨FreeSemigroup.of u, rfl, hu⟩
  | t' :: ts, t, s, h => by
    have hcons : (⟨t, t' :: ts⟩ : FreeSemigroup (FreeMagma α)) = FreeSemigroup.of t * ⟨t', ts⟩ := rfl
    rw [hcons, map_mul] at h
    obtain ⟨u, v, rfl, hu, hv⟩ := exists_map_mul h
    obtain ⟨w, rfl, hw⟩ := exists_map_tree f t hu
    obtain ⟨g, hg, hleaves⟩ := exists_map_groups ts t' hv
    refine ⟨FreeSemigroup.of w * g, ?_, ?_⟩
    · rw [map_mul, hg]
      rfl
    · rw [map_mul, hleaves]
      exact congrArg (· * v) hw

theorem exists_groups {g : Chain (FreeMagma α)} {s : FreeSemigroup β}
    (h : g.leaves.items = FreeSemigroup.map f s) : ∃ g' : Chain (FreeMagma β),
      g = g'.map (FreeMagma.map f) ∧ g'.leaves = ⟨g.stored, s⟩ := by
  obtain ⟨stored, t, ts⟩ := g
  obtain ⟨g', hg, hleaves⟩ := exists_map_groups ts t h
  exact ⟨⟨stored, g'⟩, congrArg (Chain.mk stored) hg.symm, congrArg (Chain.mk stored) hleaves⟩

theorem exists_map_items {s : FreeSemigroup α} (h : ∀ a ∈ listOf s, ∃ b, f b = a) :
    ∃ u, s = FreeSemigroup.map f u := by
  obtain ⟨a, as⟩ := s
  obtain ⟨b, rfl⟩ := h a List.mem_cons_self
  obtain ⟨bs, rfl⟩ : ∃ bs, as = List.map f bs := by
    have hmem : as ∈ Set.range (List.map f) := by
      rw [Set.range_list_map]
      exact fun x hx => h x (List.mem_cons_of_mem _ hx)
    exact hmem.imp fun _ h => h.symm
  exact ⟨⟨b, bs⟩, (map_mk f b bs).symm⟩

theorem mem_listOf_map {s : FreeSemigroup β} {a : α} (h : a ∈ listOf (FreeSemigroup.map f s)) : ∃ b, f b = a := by
  obtain ⟨b, bs⟩ := s
  rw [map_mk, listOf] at h
  rcases List.mem_cons.mp h with rfl | h
  · exact ⟨b, rfl⟩
  · exact (List.mem_map.mp h).imp fun _ h => h.2

/-! ## The product of a chain -/

variable [Semigroup β]

def total (c : Chain β) : Bool × β := (c.stored, FreeSemigroup.lift id c.items)

/-- The operator is the product of `β`, of which `α` is the encoding, and fails with `e` without a value. -/
structure Multiplies (f : β → α) (e : ε) : Prop where
  some_eq : ∀ a b, op (some (f a)) (f b) = .ok (f (a * b))
  none_eq : ∀ b, op none (f b) = .error e

/-- What a reader gets. -/
def read (f : β → α) (e : ε) (p : Bool × β) : Except ε α := if p.1 then .ok (f p.2) else .error e

variable {op} {e : ε}

theorem total_push (c : Chain β) (b : β) : (c.push b).total = (c.total.1, c.total.2 * b) := by
  rw [total, push, map_mul]
  rfl

theorem combine_map (h : Multiplies op f e) (t : FreeMagma β) :
    combine op (FreeMagma.map f t) = .ok (f (FreeMagma.lift id t)) := by
  induction t with
  | ih1 b => rfl
  | ih2 s t hs ht =>
    rw [map_mul, ← FreeMagma.mul_eq, combine, hs, ht, map_mul]
    exact h.some_eq _ _

theorem lift_leaves (s : FreeSemigroup (FreeMagma β)) :
    FreeSemigroup.lift id (FreeSemigroup.lift FreeMagma.toFreeSemigroup s) =
      FreeSemigroup.lift (FreeMagma.lift id) s := by
  induction s using FreeSemigroup.recOnMul with
  | ih1 t => exact (lift_tree id t).symm
  | ih2 t s ht hs => rw [map_mul, map_mul, ht, hs, map_mul]

theorem foldlM_groups (h : Multiplies op f e) : ∀ (ts : List (FreeMagma β)) (b : β),
    (ts.map (FreeMagma.map f)).foldlM (fun existing t => do
      let second ← combine op t
      op (some existing) second) (f b) = .ok (f (ts.foldl (fun b t => b * FreeMagma.lift id t) b))
  | [], _ => rfl
  | t :: ts, b => by
    rw [List.map_cons, List.foldlM_cons, combine_map h]
    simp only [bind, Except.bind, h.some_eq]
    exact foldlM_groups h ts _

/-- Groups of encodings give the product of what is under them. -/
theorem resolve_map (h : Multiplies op f e) (c : Chain (FreeMagma β)) :
    (c.map (FreeMagma.map f)).resolve op = read f e c.leaves.total := by
  obtain ⟨stored, t, ts⟩ := c
  rw [map, map_mk, resolve, combine_map h, read, total, leaves, lift_leaves]
  cases stored with
  | false =>
    simp only [Bool.false_eq_true, if_false, bind, Except.bind, h.none_eq]
  | true =>
    rw [FreeSemigroup.lift_mk_eq_foldl]
    exact foldlM_groups h ts _

theorem resolves_map (h : Multiplies op f e) {c : Chain β} {r : Except ε α} (hr : Resolves op (c.map f) r) :
    r = read f e c.total := by
  obtain ⟨g, hleaves, rfl⟩ := hr
  obtain ⟨g', rfl, hg⟩ := exists_groups (congrArg Chain.items hleaves)
  have hstored : g'.stored = c.stored := congrArg Chain.stored hleaves
  rw [resolve_map h, hg]
  exact congrArg (fun b => read f e (⟨b, c.items⟩ : Chain β).total) hstored

/-- The operator fails only where there is no value, and then with `e`. -/
theorem fails_map (h : Multiplies op f e) {c : Chain β} {e' : ε} (hf : Fails op (c.map f) e') :
    c.stored = false ∧ e' = e := by
  obtain ⟨g, hstored, hsub, hres⟩ := hf
  obtain ⟨u, hu⟩ := exists_map_items fun a ha => mem_listOf_map (hsub ha)
  obtain ⟨g', rfl, hg⟩ := exists_groups hu
  rw [resolve_map h, hg, read, total] at hres
  cases hc : c.stored with
  | true =>
    rw [if_pos (hstored hc)] at hres
    cases hres
  | false =>
    refine ⟨rfl, ?_⟩
    split at hres
    · cases hres
    · cases hres
      rfl

end

end Chain

/-! ## Many keys -/

namespace OrdMap

section
variable {κ α : Type} [LinearOrder κ]

/-- An operand for `k`, behind what is there. -/
def mergeIn (m : OrdMap κ (Chain α)) (k : κ) (a : α) : OrdMap κ (Chain α) :=
  m.put k ((m.get k).elim (.operand a) fun c => c.push a)

/-- What `mergeIn` does to the products. -/
def mulIn {β : Type} [Mul β] (t : OrdMap κ (Bool × β)) (k : κ) (b : β) : OrdMap κ (Bool × β) :=
  t.put k ((t.get k).elim (false, b) fun p => (p.1, p.2 * b))

theorem map_mergeIn {γ : Type} {g : Chain α → γ} {a : α} {b : γ} (push : γ → γ) (hb : g (.operand a) = b)
    (hpush : ∀ c, g (c.push a) = push (g c)) (m : OrdMap κ (Chain α)) (k : κ) :
    (m.mergeIn k a).map g = (m.map g).put k (((m.map g).get k).elim b push) := by
  rw [mergeIn, map_put, get_map]
  cases m.get k with
  | none => exact congrArg _ hb
  | some c => exact congrArg _ (hpush c)

end

end OrdMap

/-- The calls of a store, and what it does by itself. Only the operator fails. -/
structure MergeStore (κ α ε : Type) where
  State : Type
  Iter : Type
  Work : Type
  empty : State
  get : State → κ → Except ε (Option α)
  put : State → κ → α → State
  delete : State → κ → State
  merge : State → κ → α → State
  seek : State → κ → Except ε Iter
  entry : Iter → Option (κ × α)
  next : Iter → Except ε Iter
  work : State → Work → Except ε State

namespace MergeStore

section
variable {κ α ε : Type}

/-- An iterator goes to the first of `l` and resolves what it finds there. -/
def Lands (S : MergeStore κ α ε) (op : Option α → α → Except ε α) (rest : S.Iter → List (κ × Chain α))
    (r : Except ε S.Iter) : List (κ × Chain α) → Prop
  | [] => ∃ it, r = .ok it ∧ rest it = [] ∧ S.entry it = none
  | a :: l => ∃ v, a.2.Resolves op v ∧ (∀ e, v = .error e → r = .error e) ∧
      ∀ x, v = .ok x → ∃ it, r = .ok it ∧ rest it = a :: l ∧ S.entry it = some (a.1, x)

/-- What the store promises. `past` holds of what a key has had: the store may still merge that after
the key was overwritten. -/
structure Merges [LinearOrder κ] (S : MergeStore κ α ε) (op : Option α → α → Except ε α) where
  items : S.State → OrdMap κ (Chain α)
  past : S.State → κ → Chain α → Prop
  rest : S.Iter → List (κ × Chain α)
  items_empty : items S.empty = OrdMap.empty
  items_put : ∀ s k a, items (S.put s k a) = (items s).put k (.value a)
  items_delete : ∀ s k, items (S.delete s k) = (items s).del k
  items_merge : ∀ s k a, items (S.merge s k a) = (items s).mergeIn k a
  past_empty : ∀ k c, ¬ past S.empty k c
  past_put : ∀ {s k a k' c}, past (S.put s k a) k' c → past s k' c ∨ (items (S.put s k a)).get k' = some c
  past_delete : ∀ {s k k' c}, past (S.delete s k) k' c → past s k' c ∨ (items (S.delete s k)).get k' = some c
  past_merge : ∀ {s k a k' c}, past (S.merge s k a) k' c → past s k' c ∨ (items (S.merge s k a)).get k' = some c
  get_none : ∀ {s k}, (items s).get k = none → S.get s k = .ok none
  get_some : ∀ {s k c}, (items s).get k = some c → ∃ r, c.Resolves op r ∧ S.get s k = r.map some
  seek_lands : ∀ s k, S.Lands op rest (S.seek s k) ((items s).seek k)
  next_lands : ∀ {it a l}, rest it = a :: l → S.Lands op rest (S.next it) l
  work_ok : ∀ {s w s'}, S.work s w = .ok s' → items s' = items s ∧ ∀ k c, past s' k c → past s k c
  work_error : ∀ {s w e}, S.work s w = .error e → ∃ k c, past s k c ∧ c.Fails op e

/-- `for (i = 0; it->Valid() && i < n; i++) { f; it->Next(); }` -/
def forEach {σ : Type} (S : MergeStore κ α ε) (f : σ → κ × α → Except ε σ) : ℕ → S.Iter → σ → Except ε σ
  | 0, _, s => .ok s
  | n + 1, it, s =>
    match S.entry it with
    | none => .ok s
    | some e => (f s e).bind fun s => (S.next it).bind fun it => forEach S f n it s

end

/-! ## Where the operator multiplies -/

section
variable {κ α β ε : Type} [LinearOrder κ] [Semigroup β] {S : MergeStore κ α ε} {op : Option α → α → Except ε α}
variable (hS : S.Merges op) (f : β → α)

/-- The chains of `db` encode chains with the products of `t`. A key has had operands without a value only
if `bare`. -/
structure Multiplied (db : S.State) (t : OrdMap κ (Bool × β)) (bare : Prop) : Prop where
  items : ∃ g : OrdMap κ (Chain β), hS.items db = g.map (Chain.map f) ∧ t = g.map Chain.total
  now : ∀ k b, t.get k = some (false, b) → bare
  past : ∀ k c, hS.past db k c → ∃ c' : Chain β, c = c'.map f ∧ (c'.stored = false → bare)

variable {hS f} {db db' : S.State} {t t' : OrdMap κ (Bool × β)} {bare : Prop} {e : ε}

namespace Multiplied

theorem empty : Multiplied hS f S.empty OrdMap.empty bare where
  items := ⟨OrdMap.empty, hS.items_empty, rfl⟩
  now k b h := by cases h
  past k c h := absurd h (hS.past_empty k c)

theorem mono (h : Multiplied hS f db t bare) {bare' : Prop} (hbare : bare → bare') : Multiplied hS f db t bare' where
  items := h.items
  now k b hk := hbare (h.now k b hk)
  past k c hc := (h.past k c hc).imp fun _ hc => ⟨hc.1, fun hfalse => hbare (hc.2 hfalse)⟩

theorem step (h : Multiplied hS f db t bare) {bare' : Prop} (hbare : bare → bare') {g : OrdMap κ (Chain β)}
    (hitems : hS.items db' = g.map (Chain.map f)) (hnow : ∀ k b, (g.map Chain.total).get k = some (false, b) → bare')
    (hpast : ∀ k c, hS.past db' k c → hS.past db k c ∨ (hS.items db').get k = some c) :
    Multiplied hS f db' (g.map Chain.total) bare' where
  items := ⟨g, hitems, rfl⟩
  now := hnow
  past k c hc := by
    rcases hpast k c hc with hc | hc
    · obtain ⟨c', rfl, hstored⟩ := h.past k c hc
      exact ⟨c', rfl, fun hfalse => hbare (hstored hfalse)⟩
    · rw [hitems, OrdMap.get_map] at hc
      obtain ⟨c', hget, rfl⟩ := Option.map_eq_some_iff.mp hc
      refine ⟨c', rfl, fun hfalse => hnow k c'.total.2 ?_⟩
      rw [OrdMap.get_map, hget, ← hfalse]
      rfl

theorem put (h : Multiplied hS f db t bare) (k : κ) (b : β) :
    Multiplied hS f (S.put db k (f b)) (t.put k (true, b)) bare := by
  obtain ⟨g, hitems, rfl⟩ := h.items
  have hput : (g.map Chain.total).put k (true, b) = (g.put k (.value b)).map Chain.total :=
    (OrdMap.map_put Chain.total g k (.value b)).symm
  rw [hput]
  refine h.step id ?_ (fun k' b' hk' => ?_) fun _ _ hc => hS.past_put hc
  · rw [hS.items_put, hitems, OrdMap.map_put]
    rfl
  · rw [← hput, OrdMap.get_put] at hk'
    split at hk'
    · cases hk'
    · exact h.now k' b' hk'

theorem delete (h : Multiplied hS f db t bare) (k : κ) : Multiplied hS f (S.delete db k) (t.del k) bare := by
  obtain ⟨g, hitems, rfl⟩ := h.items
  have hdel : (g.map Chain.total).del k = (g.del k).map Chain.total := (OrdMap.map_del ..).symm
  rw [hdel]
  refine h.step id ?_ (fun k' b' hk' => ?_) fun _ _ hc => hS.past_delete hc
  · rw [hS.items_delete, hitems, OrdMap.map_del]
  · rw [← hdel] at hk'
    exact h.now k' b' (OrdMap.get_of_mem (OrdMap.mem_del (OrdMap.mem_of_get hk')))

theorem merge (h : Multiplied hS f db t bare) (k : κ) (b : β) :
    Multiplied hS f (S.merge db k (f b)) (t.mulIn k b) (bare ∨ t.get k = none) := by
  obtain ⟨g, hitems, rfl⟩ := h.items
  have hmul : (g.map Chain.total).mulIn k b = (g.mergeIn k b).map Chain.total :=
    (OrdMap.map_mergeIn (fun p => (p.1, p.2 * b)) rfl (fun c => c.total_push b) g k).symm
  rw [hmul]
  refine h.step Or.inl ?_ (fun k' b' hk' => ?_) fun _ _ hc => hS.past_merge hc
  · rw [hS.items_merge, hitems, OrdMap.map_mergeIn (fun c => c.push (f b)) rfl fun c => c.map_push f b]
    rfl
  · rw [← hmul, OrdMap.mulIn, OrdMap.get_put] at hk'
    split at hk'
    · cases hk : (g.map Chain.total).get k with
      | none => exact Or.inr rfl
      | some p =>
        rw [hk, Option.elim_some, Option.some.injEq, Prod.mk.injEq] at hk'
        exact Or.inl (h.now k p.2 (hk.trans (by rw [← hk'.1])))
    · exact Or.inl (h.now k' b' hk')

theorem work (h : Multiplied hS f db t bare) {w : S.Work} (hw : S.work db w = .ok db') :
    Multiplied hS f db' t bare where
  items := by
    rw [(hS.work_ok hw).1]
    exact h.items
  now := h.now
  past k c hc := h.past k c ((hS.work_ok hw).2 k c hc)

/-- Background work fails only if some key has had operands without a value. -/
theorem work_error (h : Multiplied hS f db t bare) (hop : Chain.Multiplies op f e) {w : S.Work} {e' : ε}
    (hw : S.work db w = .error e') : bare ∧ e' = e := by
  obtain ⟨k, c, hc, hfails⟩ := hS.work_error hw
  obtain ⟨c', rfl, hstored⟩ := h.past k c hc
  obtain ⟨hfalse, he⟩ := Chain.fails_map hop hfails
  exact ⟨hstored hfalse, he⟩

theorem get (h : Multiplied hS f db t bare) (hop : Chain.Multiplies op f e) (k : κ) :
    S.get db k = (t.get k).elim (.ok none) fun p => (Chain.read f e p).map some := by
  obtain ⟨g, hitems, rfl⟩ := h.items
  have hget : (hS.items db).get k = (g.get k).map (Chain.map f) := by rw [hitems, OrdMap.get_map]
  rw [OrdMap.get_map]
  cases hk : g.get k with
  | none => exact hS.get_none (by rw [hget, hk]; rfl)
  | some c =>
    obtain ⟨r, hr, hread⟩ := hS.get_some (hget.trans (by rw [hk]; rfl))
    rw [hread, Chain.resolves_map hop hr]
    rfl

end Multiplied

/-! ## Iteration -/

/-- The iterator is on the first of `l`, which has a value. -/
structure At (hS : S.Merges op) (f : β → α) (it : S.Iter) (l : List (κ × Chain β)) : Prop where
  rest : hS.rest it = l.map fun a => (a.1, a.2.map f)
  entry : S.entry it = l.head?.map fun a => (a.1, f a.2.total.2)

variable {r : Except ε S.Iter}

theorem lands_ok (hop : Chain.Multiplies op f e) {l : List (κ × Chain β)}
    (h : S.Lands op hS.rest r (l.map fun a => (a.1, a.2.map f))) (hl : ∀ a ∈ l.take 1, a.2.stored = true) :
    ∃ it, r = .ok it ∧ At hS f it l := by
  cases l with
  | nil =>
    obtain ⟨it, hr, hrest, hentry⟩ := h
    exact ⟨it, hr, hrest, hentry⟩
  | cons a l =>
    obtain ⟨v, hv, -, hok⟩ := h
    have hread : v = .ok (f a.2.total.2) := (Chain.resolves_map hop hv).trans (if_pos (hl a List.mem_cons_self))
    obtain ⟨it, hr, hrest, hentry⟩ := hok _ hread
    exact ⟨it, hr, hrest, hentry⟩

theorem lands_error (hop : Chain.Multiplies op f e) {l : List (κ × Chain β)}
    (h : S.Lands op hS.rest r (l.map fun a => (a.1, a.2.map f))) (hl : ¬ ∀ a ∈ l.take 1, a.2.stored = true) :
    r = .error e := by
  cases l with
  | nil => exact absurd (fun a ha => absurd ha List.not_mem_nil) hl
  | cons a l =>
    obtain ⟨v, hv, herror, -⟩ := h
    have ha : ¬ a.2.stored = true := fun ha => hl fun b hb => by
      rw [List.take_succ_cons, List.take_zero, List.mem_singleton] at hb
      rwa [hb]
    exact herror e ((Chain.resolves_map hop hv).trans (if_neg ha))

variable {σ : Type} {body : σ → κ × α → Except ε σ}

theorem forEach_ok (hop : Chain.Multiplies op f e) : ∀ (n : ℕ) {l : List (κ × Chain β)} {it : S.Iter} (s : σ),
    At hS f it l → (∀ a ∈ l.take (n + 1), a.2.stored = true) →
      S.forEach body n it s = ((l.take n).map fun a => (a.1, f a.2.total.2)).foldlM body s
  | 0, _, _, _, _, _ => by
    rw [List.take_zero]
    rfl
  | n + 1, [], it, s, h, _ => by
    rw [forEach, h.entry]
    rfl
  | n + 1, a :: l, it, s, h, hl => by
    rw [List.take_succ_cons] at hl
    have htail : ∀ b ∈ l.take (n + 1), b.2.stored = true := fun b hb => hl b (List.mem_cons_of_mem a hb)
    obtain ⟨it', hnext, h'⟩ := lands_ok hop (hS.next_lands h.rest) fun b hb =>
      htail b (List.take_subset_take_left _ (by omega) hb)
    rw [forEach, h.entry, hnext]
    exact congrArg (Except.bind (body s (a.1, f a.2.total.2))) (funext fun s => forEach_ok hop n s h' htail)

/-- The entry behind the last one that is used is resolved as well. -/
theorem forEach_error (hop : Chain.Multiplies op f e) : ∀ (n : ℕ) {l : List (κ × Chain β)} {it : S.Iter} (s : σ),
    (∀ a ∈ l, a.2.stored = true → ∀ s, ∃ s', body s (a.1, f a.2.total.2) = .ok s') → At hS f it l →
      (∀ a ∈ l.take 1, a.2.stored = true) → ¬ (∀ a ∈ l.take (n + 1), a.2.stored = true) →
        S.forEach body n it s = .error e
  | 0, _, _, _, _, _, hone, hl => absurd hone hl
  | n + 1, [], _, _, _, _, _, hl => absurd (fun a ha => absurd ha List.not_mem_nil) hl
  | n + 1, a :: l, it, s, hbody, h, hone, hl => by
    have ha := hone a List.mem_cons_self
    obtain ⟨s', hs'⟩ := hbody a List.mem_cons_self ha s
    have htail : ¬ ∀ b ∈ l.take (n + 1), b.2.stored = true := fun htail => hl fun b hb => by
      rw [List.take_succ_cons] at hb
      rcases List.mem_cons.mp hb with rfl | hb
      · exact ha
      · exact htail b hb
    rw [forEach, h.entry]
    simp only [List.head?_cons, Option.map_some, hs', Except.bind]
    by_cases hnext : ∀ b ∈ l.take 1, b.2.stored = true
    · obtain ⟨it', hit, h'⟩ := lands_ok hop (hS.next_lands h.rest) hnext
      rw [hit]
      exact forEach_error hop n s' (fun b hb => hbody b (List.mem_cons_of_mem a hb)) h' hnext htail
    · rw [lands_error hop (hS.next_lands h.rest) hnext]

theorem Multiplied.seek (h : Multiplied hS f db t bare) (k : κ) : ∃ l : List (κ × Chain β),
    S.Lands op hS.rest (S.seek db k) (l.map fun a => (a.1, a.2.map f)) ∧
      t.seek k = l.map fun a => (a.1, a.2.total) := by
  obtain ⟨g, hitems, rfl⟩ := h.items
  refine ⟨g.seek k, ?_, OrdMap.seek_map ..⟩
  have hlands := hS.seek_lands db k
  rwa [hitems, OrdMap.seek_map] at hlands

omit [LinearOrder κ] in
theorem forall_take_total {n : ℕ} {l : List (κ × Chain β)} :
    (∀ a ∈ (l.map fun a => (a.1, a.2.total)).take n, a.2.1 = true) ↔ ∀ a ∈ l.take n, a.2.stored = true := by
  rw [← List.map_take]
  exact List.forall_mem_map

theorem Multiplied.forEach_ok (h : Multiplied hS f db t bare) (hop : Chain.Multiplies op f e) (k : κ) (n : ℕ) (s : σ)
    (ht : ∀ a ∈ (t.seek k).take (n + 1), a.2.1 = true) : ((S.seek db k).bind fun it => S.forEach body n it s) =
      (((t.seek k).take n).map fun a => (a.1, f a.2.2)).foldlM body s := by
  obtain ⟨l, hlands, hl⟩ := h.seek k
  rw [hl] at ht ⊢
  have hstored := forall_take_total.mp ht
  obtain ⟨it, hit, hat⟩ := lands_ok hop hlands fun a ha =>
    hstored a (List.take_subset_take_left _ (by omega) ha)
  rw [hit, ← List.map_take, List.map_map]
  exact MergeStore.forEach_ok hop n s hat hstored

theorem Multiplied.forEach_error (h : Multiplied hS f db t bare) (hop : Chain.Multiplies op f e) (k : κ) (n : ℕ)
    (s : σ) (hbody : ∀ a ∈ t.seek k, a.2.1 = true → ∀ s, ∃ s', body s (a.1, f a.2.2) = .ok s')
    (ht : ¬ ∀ a ∈ (t.seek k).take (n + 1), a.2.1 = true) :
    ((S.seek db k).bind fun it => S.forEach body n it s) = .error e := by
  obtain ⟨l, hlands, hl⟩ := h.seek k
  rw [hl] at ht hbody
  by_cases hone : ∀ a ∈ l.take 1, a.2.stored = true
  · obtain ⟨it, hit, hat⟩ := lands_ok hop hlands hone
    rw [hit]
    exact MergeStore.forEach_error hop n s (fun a ha => hbody _ (List.mem_map_of_mem ha)) hat hone
      (mt forall_take_total.mpr ht)
  · rw [lands_error hop hlands hone]
    rfl

end

end MergeStore

/-! ## A store in memory -/

namespace Groups

section
variable {κ α ε : Type} (op : Option α → α → Except ε α)

/-- Group `n` and the next one become one. -/
def join : ℕ → FreeSemigroup (FreeMagma α) → Except ε (FreeSemigroup (FreeMagma α))
  | 0, ⟨s, t :: l⟩ => do
    let _ ← Chain.combine op (s * t)
    return ⟨s * t, l⟩
  | n + 1, ⟨s, t :: l⟩ => do
    let g ← join n ⟨t, l⟩
    return FreeSemigroup.of s * g
  | _, ⟨s, []⟩ => return ⟨s, []⟩

def land : List (κ × Chain (FreeMagma α)) → Except ε (Option (κ × α) × List (κ × Chain (FreeMagma α)))
  | [] => .ok (none, [])
  | a :: l => (a.2.resolve op).map fun x => (some (a.1, x), a :: l)

variable [LinearOrder κ]

def get (s : OrdMap κ (Chain (FreeMagma α))) (k : κ) : Except ε (Option α) :=
  (s.get k).elim (.ok none) fun c => (c.resolve op).map some

def work (s : OrdMap κ (Chain (FreeMagma α))) (w : κ × ℕ) : Except ε (OrdMap κ (Chain (FreeMagma α))) :=
  (s.get w.1).elim (.ok s) fun c => (join op w.2 c.items).map fun items => s.put w.1 ⟨c.stored, items⟩

variable (κ) in
/-- A state is the groups that were joined so far. -/
def store : MergeStore κ α ε where
  State := OrdMap κ (Chain (FreeMagma α))
  Iter := Option (κ × α) × List (κ × Chain (FreeMagma α))
  Work := κ × ℕ
  empty := OrdMap.empty
  get := get op
  put s k a := s.put k (.value (.of a))
  delete := OrdMap.del
  merge s k a := s.mergeIn k (.of a)
  seek s k := land op (s.seek k)
  entry := Prod.fst
  next it := land op it.2.tail
  work := work op

def itemsOf (s : OrdMap κ (Chain (FreeMagma α))) : OrdMap κ (Chain α) := s.map Chain.leaves

def leavesOf (l : List (κ × Chain (FreeMagma α))) : List (κ × Chain α) := l.map fun a => (a.1, a.2.leaves)

variable {op}

theorem lift_join (s t : FreeMagma α) (l : List (FreeMagma α)) :
    FreeSemigroup.lift FreeMagma.toFreeSemigroup (⟨s * t, l⟩ : FreeSemigroup (FreeMagma α)) =
      FreeSemigroup.lift FreeMagma.toFreeSemigroup ⟨s, t :: l⟩ := by
  rw [FreeSemigroup.lift_mk_eq_foldl, FreeSemigroup.lift_mk_eq_foldl, map_mul]
  rfl

theorem join_ok : ∀ (n : ℕ) {g g' : FreeSemigroup (FreeMagma α)}, join op n g = .ok g' →
    FreeSemigroup.lift FreeMagma.toFreeSemigroup g' = FreeSemigroup.lift FreeMagma.toFreeSemigroup g
  | n, ⟨s, []⟩, g', h => by
    cases n <;> cases h <;> rfl
  | 0, ⟨s, t :: l⟩, g', h => by
    obtain ⟨a, -, hg⟩ := bind_ok.mp h
    cases hg
    exact lift_join s t l
  | n + 1, ⟨s, t :: l⟩, g', h => by
    obtain ⟨g, hg, hg'⟩ := bind_ok.mp h
    cases hg'
    rw [map_mul, join_ok n hg, ← map_mul]
    rfl

theorem listOf_mul (s t : FreeSemigroup α) : listOf (s * t) = listOf s ++ listOf t := rfl

theorem subset_leaves (t : FreeMagma α) : ∀ l : List (FreeMagma α), listOf (FreeMagma.toFreeSemigroup t) ⊆
    listOf (FreeSemigroup.lift FreeMagma.toFreeSemigroup (⟨t, l⟩ : FreeSemigroup (FreeMagma α)))
  | [] => List.Subset.refl _
  | u :: l => by
    have hcons : (⟨t, u :: l⟩ : FreeSemigroup (FreeMagma α)) = FreeSemigroup.of t * ⟨u, l⟩ := rfl
    rw [hcons, map_mul, listOf_mul]
    exact List.subset_append_left _ _

theorem join_error : ∀ (n : ℕ) {g : FreeSemigroup (FreeMagma α)} {e : ε}, join op n g = .error e →
    ∃ t, Chain.combine op t = .error e ∧
      listOf (FreeMagma.toFreeSemigroup t) ⊆ listOf (FreeSemigroup.lift FreeMagma.toFreeSemigroup g)
  | n, ⟨s, []⟩, e, h => by cases n <;> cases h
  | 0, ⟨s, t :: l⟩, e, h => by
    rcases bind_error.mp h with h | ⟨a, -, h⟩
    · refine ⟨s * t, h, ?_⟩
      rw [← lift_join]
      exact subset_leaves (s * t) l
    · cases h
  | n + 1, ⟨s, t :: l⟩, e, h => by
    rcases bind_error.mp h with h | ⟨a, -, h⟩
    · obtain ⟨u, hu, hsub⟩ := join_error n h
      have hcons : (⟨s, t :: l⟩ : FreeSemigroup (FreeMagma α)) = FreeSemigroup.of s * ⟨t, l⟩ := rfl
      refine ⟨u, hu, ?_⟩
      rw [hcons, map_mul, listOf_mul]
      exact List.subset_append_of_subset_right _ hsub
    · cases h

theorem get_itemsOf (s : OrdMap κ (Chain (FreeMagma α))) (k : κ) :
    (itemsOf s).get k = (s.get k).map Chain.leaves := OrdMap.get_map ..

variable {s s' : OrdMap κ (Chain (FreeMagma α))} {k : κ} {w : κ × ℕ}

theorem get_none (h : (itemsOf s).get k = none) : get op s k = .ok none := by
  rw [get_itemsOf, Option.map_eq_none_iff] at h
  rw [get, h]
  rfl

theorem get_some {c : Chain α} (h : (itemsOf s).get k = some c) : ∃ r, c.Resolves op r ∧ get op s k = r.map some := by
  rw [get_itemsOf] at h
  obtain ⟨g, hg, rfl⟩ := Option.map_eq_some_iff.mp h
  refine ⟨g.resolve op, ⟨g, rfl, rfl⟩, ?_⟩
  rw [get, hg]
  rfl

theorem land_lands : ∀ l : List (κ × Chain (FreeMagma α)),
    (store κ op).Lands op (fun it => leavesOf (Prod.snd it)) (land op l) (leavesOf l)
  | [] => ⟨(none, []), rfl, rfl, rfl⟩
  | a :: l => by
    refine ⟨a.2.resolve op, ⟨a.2, rfl, rfl⟩, fun e he => ?_, fun x hx => ⟨(some (a.1, x), a :: l), ?_, rfl, rfl⟩⟩
    · rw [land, he]
      rfl
    · rw [land, hx]
      rfl

theorem seek_lands (s : OrdMap κ (Chain (FreeMagma α))) (k : κ) :
    (store κ op).Lands op (fun it => leavesOf (Prod.snd it)) (land op (s.seek k)) ((itemsOf s).seek k) := by
  rw [itemsOf, OrdMap.seek_map]
  exact land_lands _

theorem next_lands {groups : List (κ × Chain (FreeMagma α))} {a : κ × Chain α} {l : List (κ × Chain α)}
    (h : leavesOf groups = a :: l) :
    (store κ op).Lands op (fun it => leavesOf (Prod.snd it)) (land op groups.tail) l := by
  obtain ⟨b, m, rfl, -, rfl⟩ := List.map_eq_cons_iff.mp h
  exact land_lands m

theorem work_ok (h : work op s w = .ok s') : itemsOf s' = itemsOf s := by
  rw [work] at h
  cases hk : s.get w.1 with
  | none =>
    rw [hk] at h
    cases h
    rfl
  | some c =>
    rw [hk] at h
    obtain ⟨items, hjoin, rfl⟩ := map_ok.mp h
    have hleaves : Chain.leaves ⟨c.stored, items⟩ = c.leaves := congrArg (Chain.mk c.stored) (join_ok w.2 hjoin)
    rw [itemsOf, OrdMap.map_put, hleaves]
    exact OrdMap.put_self ((get_itemsOf s w.1).trans (by rw [hk]; rfl))

theorem work_error {e : ε} (h : work op s w = .error e) : ∃ k c, (itemsOf s).get k = some c ∧ c.Fails op e := by
  rw [work] at h
  cases hk : s.get w.1 with
  | none =>
    rw [hk] at h
    cases h
  | some c =>
    rw [hk, Option.elim_some] at h
    cases hjoin : join op w.2 c.items with
    | ok items =>
      rw [hjoin] at h
      cases h
    | error e' =>
      rw [hjoin] at h
      cases h
      obtain ⟨t, ht, hsub⟩ := join_error w.2 hjoin
      refine ⟨w.1, c.leaves, (get_itemsOf s w.1).trans (by rw [hk]; rfl), ⟨true, FreeSemigroup.of t⟩,
        fun _ => rfl, hsub, ?_⟩
      simp only [Chain.resolve, FreeSemigroup.of, ht]
      rfl

variable (κ op) in
def merges : (store κ op).Merges op where
  items := itemsOf
  past s k c := (itemsOf s).get k = some c
  rest it := leavesOf (Prod.snd it)
  items_empty := rfl
  items_put s k a := OrdMap.map_put Chain.leaves s k (.value (.of a))
  items_delete s k := OrdMap.map_del Chain.leaves s k
  items_merge s k a := OrdMap.map_mergeIn (fun c => Chain.push c a) rfl (fun c => c.leaves_push a) s k
  past_empty k c h := by cases h
  past_put := Or.inr
  past_delete := Or.inr
  past_merge := Or.inr
  get_none := get_none
  get_some := get_some
  seek_lands := seek_lands
  next_lands := next_lands
  work_ok h := ⟨work_ok h, fun k c hc => work_ok h ▸ hc⟩
  work_error := work_error

end

end Groups

end Lib
