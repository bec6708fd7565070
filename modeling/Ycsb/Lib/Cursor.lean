import Ycsb.Lib.OrdMap

/-!
# Cursors

A cursor stands on an entry of a table, finds a key or one near it, and moves on
by one entry. Programs that use one are proved against a position in an ordered
map.
-/

namespace Lib

/-- The calls of a cursor. `searchNear` also compares the key it stands on with the
one searched for. `none` is a return code that is not zero. -/
structure Cursor (κ ν : Type) where
  Pos : Type
  searchNear : κ → Option (Pos × ℤ)
  next : Pos → Option Pos
  entry : Pos → κ × ν

namespace Cursor

section
variable {κ ν : Type} [LinearOrder κ]

structure Over (C : Cursor κ ν) (m : OrdMap κ ν) where
  rest : C.Pos → List (κ × ν)
  suffix : ∀ p, rest p <:+ m.entries
  rest_head : ∀ p, (rest p).head? = some (C.entry p)
  rest_next : ∀ p q, C.next p = some q → rest q = (rest p).tail
  next_none : ∀ p, C.next p = none → (rest p).tail = []
  found : m.entries ≠ [] → ∀ k, ∃ p exact, C.searchNear k = some (p, exact)
  exact_neg : ∀ k p exact, C.searchNear k = some (p, exact) → (exact < 0 ↔ (C.entry p).1 < k)
  exact_zero : ∀ k p exact, C.searchNear k = some (p, exact) → (exact = 0 ↔ (C.entry p).1 = k)
  greatest : ∀ k p exact, C.searchNear k = some (p, exact) → exact < 0 → ∀ a ∈ m.entries, a.1 < k →
    a.1 ≤ (C.entry p).1

/-- Where a cursor stands that moves on from a smaller key. -/
def start (C : Cursor κ ν) (k : κ) : Option C.Pos :=
  match C.searchNear k with
  | none => none
  | some (p, exact) => if exact < 0 then C.next p else some p

variable {C : Cursor κ ν} {m : OrdMap κ ν}

omit [LinearOrder κ] in
theorem start_eq_some {k : κ} {p : C.Pos} (h : C.start k = some p) : ∃ q exact, C.searchNear k = some (q, exact) ∧
    (exact < 0 ∧ C.next q = some p ∨ 0 ≤ exact ∧ q = p) := by
  unfold start at h
  cases hsearch : C.searchNear k with
  | none =>
    rw [hsearch] at h
    cases h
  | some r =>
    obtain ⟨q, exact⟩ := r
    rw [hsearch] at h
    by_cases hneg : exact < 0
    · simp only [if_pos hneg] at h
      exact ⟨q, exact, rfl, Or.inl ⟨hneg, h⟩⟩
    · simp only [if_neg hneg, Option.some.injEq] at h
      exact ⟨q, exact, rfl, Or.inr ⟨not_lt.mp hneg, h⟩⟩

namespace Over

theorem entry_mem (h : C.Over m) (p : C.Pos) : C.entry p ∈ m.entries :=
  (h.suffix p).subset (List.mem_of_mem_head? (h.rest_head p))

theorem tail_eq_seek (h : C.Over m) {k : κ} {p : C.Pos} {exact : ℤ} (hs : C.searchNear k = some (p, exact))
    (hneg : exact < 0) : (h.rest p).tail = m.seek k := by
  obtain ⟨pre, hpre⟩ := h.suffix p
  have hcons : h.rest p = C.entry p :: (h.rest p).tail := List.eq_cons_of_mem_head? (h.rest_head p)
  have hlt := (h.exact_neg k p exact hs).mp hneg
  have hsorted := m.sorted
  rw [← hpre, hcons, List.pairwise_append] at hsorted
  obtain ⟨_, htail, hpre'⟩ := hsorted
  rw [OrdMap.seek_eq_filter, ← hpre, hcons, List.filter_append, List.tail_cons]
  have hbefore : pre.filter (fun a => decide (k ≤ a.1)) = [] := by
    apply List.filter_eq_nil_iff.mpr
    intro a ha
    simpa using (hpre' a ha _ List.mem_cons_self).trans hlt
  rw [hbefore, List.nil_append, List.filter_cons_of_neg (by simpa using hlt), List.filter_eq_self.mpr]
  intro a ha
  -- no smaller key lies behind the greatest one
  refine decide_eq_true (not_lt.mp fun hak => ?_)
  have hmem : a ∈ m.entries := (h.suffix p).subset (List.mem_of_mem_tail ha)
  exact absurd (h.greatest k p exact hs hneg a hmem hak) (not_le.mpr ((List.pairwise_cons.mp htail).1 a ha))

theorem seek_nil_of_start_none (h : C.Over m) (hm : m.entries ≠ []) {k : κ} (hs : C.start k = none) :
    m.seek k = [] := by
  obtain ⟨p, exact, hsearch⟩ := h.found hm k
  rw [start, hsearch] at hs
  by_cases hneg : exact < 0
  · simp only [if_pos hneg] at hs
    rw [← h.tail_eq_seek hsearch hneg, h.next_none p hs]
  · simp only [if_neg hneg] at hs
    cases hs

theorem entry_mem_seek (h : C.Over m) {k : κ} {p : C.Pos} (hs : C.start k = some p) : C.entry p ∈ m.seek k := by
  obtain ⟨q, exact, hsearch, ⟨hneg, hnext⟩ | ⟨hpos, rfl⟩⟩ := start_eq_some hs
  · rw [← h.tail_eq_seek hsearch hneg, ← h.rest_next q p hnext]
    exact List.mem_of_mem_head? (h.rest_head p)
  · have hle : k ≤ (C.entry q).1 := not_lt.mp fun hlt => not_lt.mpr hpos ((h.exact_neg k q exact hsearch).mpr hlt)
    exact OrdMap.mem_seek.mpr ⟨h.entry_mem q, hle⟩

/-- A larger key that the cursor stands on is the next one. -/
def Adjacent (_ : C.Over m) : Prop := ∀ k p exact, C.searchNear k = some (p, exact) → 0 ≤ exact →
  ∀ a ∈ m.entries, k ≤ a.1 → (C.entry p).1 ≤ a.1

theorem Adjacent.seek_head {h : C.Over m} (hadj : h.Adjacent) {k : κ} {p : C.Pos} (hs : C.start k = some p) :
    (m.seek k).head? = some (C.entry p) := by
  have hmem := h.entry_mem_seek hs
  obtain ⟨q, exact, hsearch, ⟨hneg, hnext⟩ | ⟨hpos, rfl⟩⟩ := start_eq_some hs
  · rw [← h.tail_eq_seek hsearch hneg, ← h.rest_next q p hnext, h.rest_head]
  · have hsorted := m.seek_sorted k
    cases hl : m.seek k with
    | nil =>
      rw [hl] at hmem
      cases hmem
    | cons a l =>
      obtain ⟨hin, hk⟩ := OrdMap.mem_seek.mp (hl ▸ List.mem_cons_self : a ∈ m.seek k)
      have hle := hadj k q exact hsearch hpos a hin hk
      rw [hl] at hmem hsorted
      rcases List.mem_cons.mp hmem with heq | htail
      · rw [heq, List.head?_cons]
      · exact absurd ((List.pairwise_cons.mp hsorted).1 _ htail) (not_lt.mpr hle)

end Over

/-! ## The cursor of a map -/

theorem seek_suffix (m : OrdMap κ ν) (k : κ) : m.seek k <:+ m.entries := List.dropWhile_suffix _

omit [LinearOrder κ] in
theorem getLast_suffix {l : List (κ × ν)} (h : l ≠ []) : [l.getLast h] <:+ l :=
  ⟨l.dropLast, List.dropLast_append_getLast h⟩

def ofMap (m : OrdMap κ ν) : Cursor κ ν where
  Pos := { l : List (κ × ν) // l <:+ m.entries ∧ l ≠ [] }
  searchNear k :=
    if h : m.seek k ≠ [] then
      some (⟨m.seek k, seek_suffix m k, h⟩, if ((m.seek k).head h).1 = k then 0 else 1)
    else if h' : m.entries ≠ [] then
      some (⟨[m.entries.getLast h'], getLast_suffix h', List.cons_ne_nil _ _⟩, -1)
    else none
  next p := if h : p.1.tail = [] then none else some ⟨p.1.tail, (List.tail_suffix p.1).trans p.2.1, h⟩
  entry p := p.1.head p.2.2

theorem ofMap_searchNear {k : κ} {p : (ofMap m).Pos} {exact : ℤ} (h : (ofMap m).searchNear k = some (p, exact)) :
    (p.1 = m.seek k ∧ k ≤ ((ofMap m).entry p).1 ∧ exact = if ((ofMap m).entry p).1 = k then 0 else 1) ∨
      (m.seek k = [] ∧ exact = -1 ∧ p.1 = [(ofMap m).entry p]) := by
  unfold ofMap at h
  by_cases hseek : m.seek k ≠ []
  · simp only [dif_pos hseek, Option.some.injEq] at h
    obtain ⟨rfl, rfl⟩ := h
    exact Or.inl ⟨rfl, (OrdMap.mem_seek.mp (List.head_mem hseek)).2, rfl⟩
  · by_cases hm : m.entries ≠ []
    · simp only [dif_neg hseek, dif_pos hm, Option.some.injEq] at h
      obtain ⟨rfl, rfl⟩ := h
      exact Or.inr ⟨not_not.mp hseek, rfl, rfl⟩
    · simp only [dif_neg hseek, dif_neg hm] at h
      cases h

theorem lt_of_seek_nil {k : κ} (h : m.seek k = []) : ∀ a ∈ m.entries, a.1 < k := fun _ ha =>
  not_le.mp fun hle => List.not_mem_nil (h ▸ OrdMap.mem_seek.mpr ⟨ha, hle⟩)

def ofMapOver (m : OrdMap κ ν) : (ofMap m).Over m where
  rest p := p.1
  suffix p := p.2.1
  rest_head p := List.head?_eq_some_head p.2.2
  rest_next p q h := by
    by_cases hnil : p.1.tail = []
    · simp only [ofMap, dif_pos hnil] at h
      cases h
    · simp only [ofMap, dif_neg hnil] at h
      exact congrArg Subtype.val (Option.some.inj h).symm
  next_none p h := by
    by_contra hnil
    simp only [ofMap, dif_neg hnil] at h
    cases h
  found hm k := by
    by_cases hseek : m.seek k ≠ []
    · exact ⟨_, _, dif_pos hseek⟩
    · exact ⟨_, _, (dif_neg hseek).trans (dif_pos hm)⟩
  exact_neg k p exact h := by
    rcases ofMap_searchNear h with ⟨_, hle, rfl⟩ | ⟨hnil, rfl, _⟩
    · refine ⟨fun hneg => ?_, fun hlt => absurd hle (not_le.mpr hlt)⟩
      split at hneg <;> cases hneg
    · exact ⟨fun _ => lt_of_seek_nil hnil _ (p.2.1.subset (List.head_mem p.2.2)), fun _ => by decide⟩
  exact_zero k p exact h := by
    rcases ofMap_searchNear h with ⟨_, _, rfl⟩ | ⟨hnil, rfl, _⟩
    · split
      · exact ⟨fun _ => by assumption, fun _ => rfl⟩
      · exact ⟨fun h0 => absurd h0 one_ne_zero, fun heq => absurd heq (by assumption)⟩
    · have hlt := lt_of_seek_nil hnil _ (p.2.1.subset (List.head_mem p.2.2))
      exact ⟨fun h0 => absurd h0 (by decide), fun heq => absurd heq hlt.ne⟩
  greatest k p exact h hneg a ha _ := by
    rcases ofMap_searchNear h with ⟨_, _, rfl⟩ | ⟨_, _, hp⟩
    · split at hneg <;> cases hneg
    · obtain ⟨pre, hpre⟩ := p.2.1
      have hsorted := m.sorted
      rw [hp] at hpre
      rw [← hpre, List.pairwise_append] at hsorted
      rw [← hpre, List.mem_append, List.mem_singleton] at ha
      rcases ha with ha | rfl
      · exact (hsorted.2.2 a ha _ List.mem_cons_self).le
      · exact le_rfl

theorem ofMap_adjacent (m : OrdMap κ ν) : (ofMapOver m).Adjacent := by
  intro k p exact h hpos a ha hle
  rcases ofMap_searchNear h with ⟨hp, _, _⟩ | ⟨_, rfl, _⟩
  · have hin : a ∈ p.1 := hp ▸ OrdMap.mem_seek.mpr ⟨ha, hle⟩
    have hsorted := m.sorted.sublist p.2.1.sublist
    rw [← List.cons_head_tail p.2.2] at hin hsorted
    rcases List.mem_cons.mp hin with rfl | hin
    · exact le_rfl
    · exact ((List.pairwise_cons.mp hsorted).1 a hin).le
  · exact absurd hpos (by decide)

end

end Cursor

end Lib
