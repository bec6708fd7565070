import Mathlib.Data.Finset.Sort
import Mathlib.Data.List.Pairwise
import Mathlib.Order.Lattice
import Mathlib.Tactic.Common

/-!
# Ordered maps

A finite map over a linear order, as the list of its entries in increasing key
order. `seek` is the position of an iterator: the entries from a key on.
-/

namespace Lib

section
variable {κ : Type} [LinearOrder κ] {ν μ : Type}

structure OrdMap (κ : Type) [LinearOrder κ] (ν : Type) where
  entries : List (κ × ν)
  sorted : entries.Pairwise fun a b => a.1 < b.1

def insertEntry (k : κ) (v : ν) : List (κ × ν) → List (κ × ν)
  | [] => [(k, v)]
  | a :: l => if k < a.1 then (k, v) :: a :: l else if k = a.1 then (k, v) :: l else a :: insertEntry k v l

theorem mem_insertEntry {k : κ} {v : ν} {b : κ × ν} : ∀ {l : List (κ × ν)},
    b ∈ insertEntry k v l → b = (k, v) ∨ b ∈ l
  | [], h => Or.inl (List.mem_singleton.mp h)
  | a :: l, h => by
    simp only [insertEntry] at h
    split at h
    · rcases List.mem_cons.mp h with h | h
      · exact Or.inl h
      · exact Or.inr h
    · split at h
      · rcases List.mem_cons.mp h with h | h
        · exact Or.inl h
        · exact Or.inr (List.mem_cons_of_mem _ h)
      · rcases List.mem_cons.mp h with h | h
        · exact Or.inr (List.mem_cons.mpr (Or.inl h))
        · rcases mem_insertEntry h with h | h
          · exact Or.inl h
          · exact Or.inr (List.mem_cons_of_mem _ h)

theorem insertEntry_sorted (k : κ) (v : ν) : ∀ {l : List (κ × ν)},
    l.Pairwise (fun a b => a.1 < b.1) → (insertEntry k v l).Pairwise fun a b => a.1 < b.1
  | [], _ => List.pairwise_singleton _ _
  | a :: l, h => by
    have h' := List.pairwise_cons.mp h
    simp only [insertEntry]
    split
    · rename_i hk
      refine List.pairwise_cons.mpr ⟨fun b hb => ?_, h⟩
      rcases List.mem_cons.mp hb with rfl | hb
      · exact hk
      · exact lt_trans hk (h'.1 b hb)
    · split
      · rename_i hk
        exact List.pairwise_cons.mpr ⟨fun b hb => hk ▸ h'.1 b hb, h'.2⟩
      · rename_i hlt hne
        refine List.pairwise_cons.mpr ⟨fun b hb => ?_, insertEntry_sorted k v h'.2⟩
        rcases mem_insertEntry hb with rfl | hb
        · exact lt_of_le_of_ne (not_lt.mp hlt) (Ne.symm hne)
        · exact h'.1 b hb

/-! ## Lookups in lists -/

theorem lookup_insertEntry (k k' : κ) (v : ν) : ∀ (l : List (κ × ν)),
    (insertEntry k v l).lookup k' = if k' = k then some v else l.lookup k'
  | [] => by
    by_cases h : k' = k
    · simp [insertEntry, h]
    · simp [insertEntry, List.lookup_cons, h, beq_eq_false_iff_ne.mpr h]
  | a :: l => by
    simp only [insertEntry]
    split
    · by_cases h : k' = k
      · simp [h]
      · rw [if_neg h, List.lookup_cons, beq_eq_false_iff_ne.mpr h]
    · split
      · rename_i ha
        by_cases h : k' = k
        · simp [h]
        · rw [if_neg h, List.lookup_cons, beq_eq_false_iff_ne.mpr h, List.lookup_cons,
            beq_eq_false_iff_ne.mpr (ha ▸ h)]
      · rename_i hne
        rw [List.lookup_cons, List.lookup_cons, lookup_insertEntry k k' v l]
        by_cases h : k' = a.1
        · have hk : k' ≠ k := fun e => hne (e ▸ h)
          simp [h, h ▸ hk]
        · rw [beq_eq_false_iff_ne.mpr h]

theorem lookup_map_snd (f : ν → μ) (k : κ) (l : List (κ × ν)) :
    (l.map fun a => (a.1, f a.2)).lookup k = (l.lookup k).map f := by
  induction l with
  | nil => rfl
  | cons a l ih =>
    rw [List.map_cons, List.lookup_cons, List.lookup_cons, ih]
    split <;> rfl

theorem mem_of_lookup {k : κ} {v : ν} : ∀ {l : List (κ × ν)}, l.lookup k = some v → (k, v) ∈ l
  | [], h => by cases h
  | a :: l, h => by
    rw [List.lookup_cons] at h
    by_cases hk : k = a.1
    · simp only [hk, beq_self_eq_true, Option.some.injEq] at h
      exact List.mem_cons.mpr (Or.inl (Prod.ext hk h.symm))
    · rw [beq_eq_false_iff_ne.mpr hk] at h
      exact List.mem_cons_of_mem _ (mem_of_lookup h)

theorem lookup_of_mem {k : κ} {v : ν} : ∀ {l : List (κ × ν)}, l.Pairwise (fun a b => a.1 < b.1) →
    (k, v) ∈ l → l.lookup k = some v
  | b :: l, hl, h => by
    obtain ⟨hb, hl⟩ := List.pairwise_cons.mp hl
    rw [List.lookup_cons]
    rcases List.mem_cons.mp h with rfl | h
    · simp
    · rw [beq_eq_false_iff_ne.mpr (ne_of_gt (hb _ h))]
      exact lookup_of_mem hl h

namespace OrdMap

def empty : OrdMap κ ν := ⟨[], List.Pairwise.nil⟩

def get (m : OrdMap κ ν) (k : κ) : Option ν := m.entries.lookup k

def put (m : OrdMap κ ν) (k : κ) (v : ν) : OrdMap κ ν :=
  ⟨insertEntry k v m.entries, insertEntry_sorted k v m.sorted⟩

def del (m : OrdMap κ ν) (k : κ) : OrdMap κ ν :=
  ⟨m.entries.filter fun a => decide (a.1 ≠ k), m.sorted.filter _⟩

def seek (m : OrdMap κ ν) (k : κ) : List (κ × ν) := m.entries.dropWhile fun a => decide (a.1 < k)

def map (f : ν → μ) (m : OrdMap κ ν) : OrdMap κ μ :=
  ⟨m.entries.map fun a => (a.1, f a.2), List.pairwise_map.mpr m.sorted⟩

@[ext] theorem ext {m m' : OrdMap κ ν} (h : m.entries = m'.entries) : m = m' := by
  cases m; cases m'; subst h; rfl

/-! ## Reading after writing -/

theorem get_put (m : OrdMap κ ν) (k k' : κ) (v : ν) :
    (m.put k v).get k' = if k' = k then some v else m.get k' := lookup_insertEntry k k' v m.entries

theorem mem_of_get {m : OrdMap κ ν} {k : κ} {v : ν} (h : m.get k = some v) : (k, v) ∈ m.entries :=
  mem_of_lookup h

theorem get_of_mem {m : OrdMap κ ν} {k : κ} {v : ν} (h : (k, v) ∈ m.entries) : m.get k = some v :=
  lookup_of_mem m.sorted h

theorem mem_put {m : OrdMap κ ν} {k : κ} {v : ν} {b : κ × ν} (h : b ∈ (m.put k v).entries) :
    b = (k, v) ∨ b ∈ m.entries := mem_insertEntry h

theorem mem_del {m : OrdMap κ ν} {k : κ} {b : κ × ν} (h : b ∈ (m.del k).entries) : b ∈ m.entries :=
  (List.mem_filter.mp h).1

theorem seek_eq_filter (m : OrdMap κ ν) (k : κ) :
    m.seek k = m.entries.filter fun a => decide (k ≤ a.1) := by
  obtain ⟨l, hl⟩ := m
  simp only [seek]
  induction l with
  | nil => rfl
  | cons a l ih =>
    have hl' := List.pairwise_cons.mp hl
    by_cases h : a.1 < k
    · rw [List.dropWhile_cons_of_pos (by simpa using h), List.filter_cons_of_neg (by simpa using h), ih hl'.2]
    · rw [List.dropWhile_cons_of_neg (by simpa using h), List.filter_cons_of_pos (by simpa using h),
        List.filter_eq_self.mpr]
      intro b hb
      exact decide_eq_true (le_trans (not_lt.mp h) (le_of_lt (hl'.1 b hb)))

theorem mem_seek {m : OrdMap κ ν} {k : κ} {a : κ × ν} : a ∈ m.seek k ↔ a ∈ m.entries ∧ k ≤ a.1 := by
  rw [seek_eq_filter, List.mem_filter, decide_eq_true_iff]

theorem seek_sorted (m : OrdMap κ ν) (k : κ) : (m.seek k).Pairwise fun a b => a.1 < b.1 := by
  rw [seek_eq_filter]
  exact m.sorted.filter _

/-! ## Several writes -/

def putAll (l : List (κ × ν)) (m : OrdMap κ ν) : OrdMap κ ν := l.foldl (fun m a => m.put a.1 a.2) m

theorem get_putAll : ∀ {l : List (κ × ν)} {m : OrdMap κ ν} {k : κ} {v : ν}, (l.map Prod.fst).Nodup →
    ((m.putAll l).get k = some v ↔ (k, v) ∈ l ∨ k ∉ l.map Prod.fst ∧ m.get k = some v)
  | [], m, k, v, _ => by simp [putAll]
  | a :: l, m, k, v, hn => by
    obtain ⟨ha, hn⟩ := List.nodup_cons.mp hn
    have hput : (m.putAll (a :: l)) = (m.put a.1 a.2).putAll l := rfl
    rw [hput, get_putAll hn, get_put]
    by_cases hk : k = a.1
    · subst hk
      have hnot : (a.1, v) ∉ l := fun h => ha (List.mem_map.mpr ⟨_, h, rfl⟩)
      simp [hnot, ha, Prod.ext_iff, eq_comm]
    · simp [hk, Prod.ext_iff]

theorem putAll_append (l l' : List (κ × ν)) (m : OrdMap κ ν) : putAll (l ++ l') m = putAll l' (putAll l m) :=
  List.foldl_append ..

def lastValue (k : κ) (l : List (κ × ν)) : Option ν := l.reverse.lookup k

theorem lastValue_append (k : κ) (l l' : List (κ × ν)) :
    lastValue k (l ++ l') = (lastValue k l').or (lastValue k l) := by
  rw [lastValue, List.reverse_append, List.lookup_append]
  rfl

theorem lastValue_singleton (k : κ) (a : κ × ν) : lastValue k [a] = if k = a.1 then some a.2 else none := by
  rw [lastValue, List.reverse_singleton, List.lookup_cons]
  by_cases h : k = a.1
  · simp [h]
  · rw [beq_eq_false_iff_ne.mpr h, if_neg h]
    rfl

theorem get_putAll_eq (k : κ) : ∀ (l : List (κ × ν)) (m : OrdMap κ ν),
    (putAll l m).get k = (lastValue k l).or (m.get k)
  | [], m => rfl
  | a :: l, m => by
    rw [← List.singleton_append, putAll_append, get_putAll_eq k l, lastValue_append, lastValue_singleton,
      Option.or_assoc]
    congr 1
    change (m.put a.1 a.2).get k = _
    rw [get_put]
    by_cases h : k = a.1 <;> simp [h]

theorem exists_get_putAll {l : List (κ × ν)} {k : κ} (h : k ∈ l.map Prod.fst) :
    ∃ v, (putAll l empty).get k = some v := by
  induction l using List.reverseRecOn with
  | nil => cases h
  | append_singleton l a ih =>
    have hput : putAll (l ++ [a]) empty = (putAll l empty).put a.1 a.2 := putAll_append ..
    rw [hput, get_put]
    by_cases hk : k = a.1
    · exact ⟨a.2, if_pos hk⟩
    · rw [List.map_append, List.mem_append] at h
      rw [if_neg hk]
      exact ih (h.resolve_right fun hmem => hk (List.mem_singleton.mp hmem))

theorem mem_putAll_empty {l : List (κ × ν)} (hn : (l.map Prod.fst).Nodup) {a : κ × ν} :
    a ∈ (putAll l empty).entries ↔ a ∈ l := by
  have hget : (putAll l empty).get a.1 = some a.2 ↔ a ∈ l := by
    rw [get_putAll hn]
    simp [empty, get]
  exact ⟨fun h => hget.mp (get_of_mem h), fun h => mem_of_get (hget.mpr h)⟩

/-! ## A block of entries -/

/-- A sorted part of a sorted list is its beginning if the rest lies above it. -/
theorem prefix_of_sorted : ∀ {block l : List (κ × ν)}, block.Pairwise (fun a b => a.1 < b.1) →
    l.Pairwise (fun a b => a.1 < b.1) → block ⊆ l → (∀ a ∈ l, a ∈ block ∨ ∀ b ∈ block, b.1 < a.1) → block <+: l
  | [], l, _, _, _, _ => List.nil_prefix
  | b :: block, [], _, _, hsub, _ => absurd (hsub List.mem_cons_self) List.not_mem_nil
  | b :: block, a :: l, hb, hl, hsub, habove => by
    obtain ⟨hb, hblock⟩ := List.pairwise_cons.mp hb
    obtain ⟨ha, hl⟩ := List.pairwise_cons.mp hl
    have hab : a = b := by
      by_contra hne
      have hlt : a.1 < b.1 := ha b ((List.mem_cons.mp (hsub List.mem_cons_self)).resolve_left fun h => hne h.symm)
      rcases habove a List.mem_cons_self with h | h
      · exact lt_asymm hlt (hb a ((List.mem_cons.mp h).resolve_left hne))
      · exact lt_asymm hlt (h b List.mem_cons_self)
    subst hab
    refine (List.prefix_cons_inj a).mpr (prefix_of_sorted hblock hl (fun c hc => ?_) fun c hc => ?_)
    · apply (List.mem_cons.mp (hsub (List.mem_cons_of_mem _ hc))).resolve_left
      rintro rfl
      exact lt_irrefl _ (hb c hc)
    · rcases habove c (List.mem_cons_of_mem _ hc) with h | h
      · refine Or.inl ((List.mem_cons.mp h).resolve_left ?_)
        rintro rfl
        exact lt_irrefl _ (ha c hc)
      · exact Or.inr fun d hd => h d (List.mem_cons_of_mem _ hd)

/-- A sorted list with the members of the map is its list of entries. -/
theorem entries_eq_of_mem {m : OrdMap κ ν} {l : List (κ × ν)} (hl : l.Pairwise fun a b => a.1 < b.1)
    (h : ∀ a, a ∈ l ↔ a ∈ m.entries) : m.entries = l := by
  have hpre := prefix_of_sorted m.sorted hl (fun a ha => (h a).mpr ha) fun a ha => Or.inl ((h a).mp ha)
  have hpre' := prefix_of_sorted hl m.sorted (fun a ha => (h a).mp ha) fun a ha => Or.inl ((h a).mpr ha)
  exact hpre.eq_of_length (Nat.le_antisymm hpre.length_le hpre'.length_le)

theorem seek_of_get {m : OrdMap κ ν} {k : κ} {v : ν} (h : m.get k = some v) : ∃ l, m.seek k = (k, v) :: l := by
  have hsorted := m.seek_sorted k
  have hmem : (k, v) ∈ m.seek k := mem_seek.mpr ⟨mem_of_get h, le_rfl⟩
  cases hseek : m.seek k with
  | nil =>
    rw [hseek] at hmem
    cases hmem
  | cons a l =>
    have ha : k ≤ a.1 := (mem_seek.mp (hseek ▸ List.mem_cons_self : a ∈ m.seek k)).2
    rw [hseek] at hmem hsorted
    rcases List.mem_cons.mp hmem with heq | hin
    · exact ⟨l, by rw [← heq]⟩
    · exact absurd ((List.pairwise_cons.mp hsorted).1 _ hin) (not_lt.mpr ha)

/-! ## Maps of blocks -/

section
variable {κ' μ : Type} [LinearOrder κ'] {P : κ × ν → Prop} {block : κ × ν → List (κ' × μ)}

/-- Entries spread over sorted blocks, in the order of their keys. -/
structure Spread (P : κ × ν → Prop) (block : κ × ν → List (κ' × μ)) : Prop where
  sorted : ∀ r, P r → (block r).Pairwise fun a b => a.1 < b.1
  lt : ∀ r r', P r → P r' → r.1 < r'.1 → ∀ a ∈ block r, ∀ b ∈ block r', a.1 < b.1
  keys : ∀ r r', P r → P r' → r.1 = r'.1 → (block r).map Prod.fst = (block r').map Prod.fst

theorem Spread.flatMap_sorted (h : Spread P block) {l : List (κ × ν)} (hl : l.Pairwise fun a b => a.1 < b.1)
    (hP : ∀ r ∈ l, P r) : (l.flatMap block).Pairwise fun a b => a.1 < b.1 := by
  rw [List.pairwise_flatMap]
  exact ⟨fun r hr => h.sorted r (hP r hr), hl.imp_of_mem fun ha hb hab => h.lt _ _ (hP _ ha) (hP _ hb) hab⟩

theorem Spread.mem_keys_iff (h : Spread P block) {r r' : κ × ν} (hr : P r) (hr' : P r') {a : κ' × μ}
    (ha : a ∈ block r) : a.1 ∈ (block r').map Prod.fst ↔ r.1 = r'.1 := by
  constructor
  · intro hmem
    obtain ⟨b, hb, hab⟩ := List.mem_map.mp hmem
    rcases lt_trichotomy r.1 r'.1 with hlt | heq | hlt
    · exact absurd hab (h.lt r r' hr hr' hlt a ha b hb).ne'
    · exact heq
    · exact absurd hab (h.lt r' r hr' hr hlt b hb a ha).ne
  · intro heq
    rw [← h.keys r r' hr hr' heq]
    exact List.mem_map_of_mem ha

theorem mem_put_iff {m : OrdMap κ ν} {k : κ} {v : ν} {a : κ × ν} :
    a ∈ (m.put k v).entries ↔ a = (k, v) ∨ a.1 ≠ k ∧ a ∈ m.entries := by
  have hget : a ∈ (m.put k v).entries ↔ (m.put k v).get a.1 = some a.2 := ⟨get_of_mem, mem_of_get⟩
  rw [hget, get_put]
  by_cases h : a.1 = k
  · rw [if_pos h, Option.some.injEq]
    exact ⟨fun hv => Or.inl (Prod.ext h hv.symm), fun ho => (ho.resolve_right fun hn => hn.1 h) ▸ rfl⟩
  · rw [if_neg h]
    exact ⟨fun hg => Or.inr ⟨h, mem_of_get hg⟩,
      fun ho => get_of_mem (ho.resolve_left fun heq => h (heq ▸ rfl)).2⟩

theorem put_self {m : OrdMap κ ν} {k : κ} {v : ν} (h : m.get k = some v) : m.put k v = m := by
  refine ext (entries_eq_of_mem m.sorted fun a => ?_)
  rw [mem_put_iff]
  constructor
  · intro ha
    by_cases hk : a.1 = k
    · left
      have hget := get_of_mem (k := a.1) (v := a.2) ha
      rw [hk, h] at hget
      exact Prod.ext hk (Option.some.inj hget).symm
    · exact Or.inr ⟨hk, ha⟩
  · rintro (rfl | ⟨_, ha⟩)
    · exact mem_of_get h
    · exact ha

theorem mem_putAll {l : List (κ × ν)} (hn : (l.map Prod.fst).Nodup) {m : OrdMap κ ν} {a : κ × ν} :
    a ∈ (putAll l m).entries ↔ a ∈ l ∨ a.1 ∉ l.map Prod.fst ∧ a ∈ m.entries := by
  have hget : ∀ m : OrdMap κ ν, a ∈ m.entries ↔ m.get a.1 = some a.2 := fun _ => ⟨get_of_mem, mem_of_get⟩
  rw [hget, hget, get_putAll hn]

/-- Writing each block entry by entry spreads the map that the writes of whole entries leave. -/
theorem Spread.putAll_flatMap (h : Spread P block) (recs : List (κ × ν)) : (∀ r ∈ recs, P r) →
    (putAll (recs.flatMap block) empty).entries = (putAll recs empty).entries.flatMap block ∧
      ∀ r ∈ (putAll recs empty).entries, P r := by
  induction recs using List.reverseRecOn with
  | nil => exact fun _ => ⟨rfl, fun _ hr => absurd hr List.not_mem_nil⟩
  | append_singleton recs r ih =>
    intro hP
    obtain ⟨ihe, ihP⟩ := ih fun s hs => hP s (List.mem_append_left _ hs)
    have hr : P r := hP r (List.mem_append_right _ List.mem_cons_self)
    have hput : putAll (recs ++ [r]) empty = (putAll recs empty).put r.1 r.2 := putAll_append ..
    have hP' : ∀ s ∈ (putAll (recs ++ [r]) empty).entries, P s := by
      intro s hs
      rw [hput, mem_put_iff] at hs
      rcases hs with rfl | ⟨_, hs⟩
      · exact hr
      · exact ihP s hs
    have hnodup : ((block r).map Prod.fst).Nodup :=
      (List.pairwise_map.mpr (h.sorted r hr)).imp fun hlt => hlt.ne
    refine ⟨entries_eq_of_mem (h.flatMap_sorted (putAll (recs ++ [r]) empty).sorted hP') fun a => ?_, hP'⟩
    rw [hput, List.flatMap_append, List.flatMap_singleton, putAll_append, mem_putAll hnodup, ihe]
    simp only [List.mem_flatMap, mem_put_iff]
    constructor
    · intro hmem
      obtain ⟨s, rfl | ⟨hne, hs⟩, ha⟩ := hmem
      · exact Or.inl ha
      · exact Or.inr ⟨fun hk => hne ((h.mem_keys_iff (ihP s hs) hr ha).mp hk), s, hs, ha⟩
    · intro hmem
      rcases hmem with ha | ⟨hk, s, hs, ha⟩
      · exact ⟨r, Or.inl rfl, ha⟩
      · exact ⟨s, Or.inr ⟨fun heq => hk ((h.mem_keys_iff (ihP s hs) hr ha).mpr heq), hs⟩, ha⟩

omit [LinearOrder κ] [LinearOrder κ'] in
/-- A position that no block lies across. -/
theorem filter_flatMap_block {p : κ' × μ → Bool} {q : κ × ν → Bool} {l : List (κ × ν)}
    (h : ∀ r ∈ l, ∀ a ∈ block r, p a = q r) : (l.flatMap block).filter p = (l.filter q).flatMap block := by
  induction l with
  | nil => rfl
  | cons r l ih =>
    have hr := h r List.mem_cons_self
    rw [List.flatMap_cons, List.filter_append, ih fun s hs => h s (List.mem_cons_of_mem _ hs)]
    by_cases hq : q r = true
    · rw [List.filter_cons_of_pos hq, List.flatMap_cons, List.filter_eq_self.mpr fun a ha => (hr a ha).trans hq]
    · rw [List.filter_cons_of_neg hq, List.filter_eq_nil_iff.mpr fun a ha => by rw [hr a ha]; exact hq, List.nil_append]

end

/-! ## Keys numbered in order -/

theorem mem_keys {m : OrdMap κ ν} {k : κ} : k ∈ m.entries.map Prod.fst ↔ (m.get k).isSome := by
  constructor
  · intro hk
    obtain ⟨a, ha, rfl⟩ := List.mem_map.mp hk
    simp [get_of_mem ha]
  · intro hk
    obtain ⟨v, hv⟩ := Option.isSome_iff_exists.mp hk
    exact List.mem_map.mpr ⟨(k, v), mem_of_get hv, rfl⟩

/-- If the keys are the images of a finite set under a map that keeps the order,
an iterator from the image of `a` visits the images of the elements from `a` on,
in their order. -/
theorem seek_keys {ι : Type} [LinearOrder ι] {m : OrdMap κ ν} {s : Finset ι} {f : ι → κ} {a : ι}
    (hf : ∀ i ∈ insert a s, ∀ j ∈ insert a s, i < j ↔ f i < f j) (hm : ∀ k, (m.get k).isSome ↔ ∃ i ∈ s, k = f i) :
    (m.seek (f a)).map Prod.fst = ((s.sort (· ≤ ·)).filter fun i => decide (a ≤ i)).map f := by
  have hmem : ∀ {i}, i ∈ s → i ∈ insert a s := fun h => Finset.mem_insert_of_mem h
  have hle : ∀ i ∈ s, f a ≤ f i ↔ a ≤ i := fun i hi => by
    rw [← not_lt, ← not_lt, hf i (hmem hi) a (Finset.mem_insert_self a s)]
  have hkeys : (m.entries.map Prod.fst).Pairwise (· < ·) := List.pairwise_map.mpr m.sorted
  have hsort : ((s.sort (· ≤ ·)).map f).Pairwise (· < ·) := by
    refine List.pairwise_map.mpr (s.sortedLT_sort.pairwise.imp_of_mem ?_)
    intro i j hi hj hij
    exact (hf i (hmem (Finset.mem_sort _ |>.mp hi)) j (hmem (Finset.mem_sort _ |>.mp hj))).mp hij
  have heq : m.entries.map Prod.fst = (s.sort (· ≤ ·)).map f := by
    apply hkeys.eq_of_mem_iff hsort
    intro k
    rw [mem_keys, hm k, List.mem_map]
    simp [eq_comm]
  have hfilter := congrArg (List.filter fun k => decide (f a ≤ k)) heq
  rw [List.filter_map, List.filter_map] at hfilter
  rw [seek_eq_filter]
  refine hfilter.trans (congrArg (List.map f) (List.filter_congr fun i hi => ?_))
  exact decide_eq_decide.mpr (hle i ((Finset.mem_sort _).mp hi))

/-! ## Mapping the values -/

theorem map_insertEntry (f : ν → μ) (k : κ) (v : ν) : ∀ (l : List (κ × ν)),
    (insertEntry k v l).map (fun a => (a.1, f a.2)) = insertEntry k (f v) (l.map fun a => (a.1, f a.2))
  | [] => rfl
  | a :: l => by
    simp only [insertEntry, List.map_cons]
    split
    · rfl
    · split
      · rfl
      · rw [List.map_cons, map_insertEntry f k v l]

theorem map_put (f : ν → μ) (m : OrdMap κ ν) (k : κ) (v : ν) : (m.put k v).map f = (m.map f).put k (f v) :=
  ext (map_insertEntry f k v m.entries)

theorem map_putAll (f : ν → μ) : ∀ (l : List (κ × ν)) (m : OrdMap κ ν),
    (putAll l m).map f = putAll (l.map fun a => (a.1, f a.2)) (m.map f)
  | [], _ => rfl
  | a :: l, m => by
    have hcons : putAll (a :: l) m = putAll l (m.put a.1 a.2) := rfl
    rw [hcons, map_putAll f l, map_put]
    rfl

theorem map_del (f : ν → μ) (m : OrdMap κ ν) (k : κ) : (m.del k).map f = (m.map f).del k := by
  apply ext
  simp only [map, del, List.filter_map]
  rfl

theorem get_map (f : ν → μ) (m : OrdMap κ ν) (k : κ) : (m.map f).get k = (m.get k).map f :=
  lookup_map_snd f k m.entries

theorem seek_map (f : ν → μ) (m : OrdMap κ ν) (k : κ) :
    (m.map f).seek k = (m.seek k).map fun a => (a.1, f a.2) := by
  simp only [seek, map, List.dropWhile_map]
  rfl

end OrdMap

end

end Lib
