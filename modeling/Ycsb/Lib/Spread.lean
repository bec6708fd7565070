import Ycsb.Lib.Assoc
import Ycsb.Lib.OrdMap

/-!
# Maps spread over blocks

A map whose every entry is a block of entries of another map. Writing a block,
overwriting some of it and deleting it are what writing, updating and deleting
an entry come to below.
-/

namespace Lib

namespace OrdMap

section
variable {κ ν : Type} [LinearOrder κ]

theorem insertEntry_of_mem [DecidableEq κ] {k : κ} (v : ν) : ∀ {l : List (κ × ν)},
    l.Pairwise (fun a b => a.1 < b.1) → k ∈ names l → insertEntry k v l = assign l k v
  | [], _, hk => by cases hk
  | a :: l, hl, hk => by
    obtain ⟨ha, hl⟩ := List.pairwise_cons.mp hl
    have hmem : ∀ b ∈ names l, a.1 < b := by
      intro b hb
      obtain ⟨c, hc, rfl⟩ := List.mem_map.mp hb
      exact ha c hc
    rw [insertEntry]
    rcases lt_trichotomy k a.1 with hlt | heq | hgt
    · rcases List.mem_cons.mp hk with hk | hk
      · exact absurd hk hlt.ne
      · exact absurd (hmem k hk) (lt_asymm hlt)
    · subst heq
      have htail : assign l a.1 v = l := assign_of_not_mem (fun hk => lt_irrefl _ (hmem _ hk)) v
      rw [if_neg (lt_irrefl _), if_pos rfl, assign, List.map_cons, if_pos rfl, ← assign, htail]
    · have hk : k ∈ names l := (List.mem_cons.mp hk).resolve_left hgt.ne'
      rw [if_neg (lt_asymm hgt), if_neg hgt.ne', insertEntry_of_mem v hl hk, assign, assign, List.map_cons,
        if_neg hgt.ne]

theorem entries_put_of_mem [DecidableEq κ] {m : OrdMap κ ν} {k : κ} (v : ν) (h : k ∈ names m.entries) :
    (m.put k v).entries = assign m.entries k v := insertEntry_of_mem v m.sorted h

theorem entries_putAll_of_subset [DecidableEq κ] : ∀ {new : List (κ × ν)} {m : OrdMap κ ν}, names new ⊆ names m.entries →
    (putAll new m).entries = overwrite m.entries new
  | [], _, _ => rfl
  | a :: new, m, h => by
    obtain ⟨ha, hnew⟩ := List.cons_subset.mp h
    have hput := entries_put_of_mem a.2 ha
    have hcons : putAll (a :: new) m = putAll new (m.put a.1 a.2) := rfl
    rw [hcons, entries_putAll_of_subset (by rw [hput, names_assign]; exact hnew), hput, overwrite_cons]

theorem entries_delAll (keys : List κ) (m : OrdMap κ ν) :
    (keys.foldl del m).entries = m.entries.filter fun a => decide (a.1 ∉ keys) := by
  induction keys generalizing m with
  | nil => exact (List.filter_eq_self.mpr fun _ _ => by simp).symm
  | cons k keys ih =>
    rw [List.foldl_cons, ih, del, List.filter_filter]
    exact List.filter_congr fun a _ => by simp [Bool.and_comm]

theorem putAll_entries (m : OrdMap κ ν) : putAll m.entries empty = m := by
  have hn : (m.entries.map Prod.fst).Nodup := (List.pairwise_map.mpr m.sorted).imp fun hlt => hlt.ne
  exact ext (entries_eq_of_mem m.sorted fun a => (mem_putAll_empty hn).symm)

end

/-! ## Overwriting in blocks -/

section
variable {α κ ν : Type} [DecidableEq κ]

theorem overwrite_append_left (l l' new : List (κ × ν)) : overwrite (l ++ l') new = overwrite l new ++ overwrite l' new := by
  induction new generalizing l l' with
  | nil => rfl
  | cons a new ih => rw [overwrite_cons, assign, List.map_append, ← assign, ← assign, ih, overwrite_cons, overwrite_cons]

theorem overwrite_of_disjoint {l new : List (κ × ν)} (h : ∀ k ∈ names new, k ∉ names l) : overwrite l new = l := by
  induction new with
  | nil => rfl
  | cons a new ih =>
    rw [overwrite_cons, assign_of_not_mem (h a.1 List.mem_cons_self)]
    exact ih fun k hk => h k (List.mem_cons_of_mem _ hk)

theorem overwrite_flatMap (f : α → List (κ × ν)) (new : List (κ × ν)) (l : List α) :
    overwrite (l.flatMap f) new = l.flatMap fun a => overwrite (f a) new := by
  induction l with
  | nil => exact overwrite_of_disjoint fun _ _ => List.not_mem_nil
  | cons a l ih => rw [List.flatMap_cons, List.flatMap_cons, overwrite_append_left, ih]

end

/-! ## A map and its blocks -/

section
variable {κ ν κ' μ : Type} [LinearOrder κ] [LinearOrder κ'] {P : κ × ν → Prop} {block : κ × ν → List (κ' × μ)}

/-- `m'` holds the blocks of the entries of `m`. -/
structure SpreadOver (P : κ × ν → Prop) (block : κ × ν → List (κ' × μ)) (m' : OrdMap κ' μ) (m : OrdMap κ ν) : Prop where
  entries : m'.entries = m.entries.flatMap block
  all : ∀ r ∈ m.entries, P r

theorem spreadOver_empty : SpreadOver P block (empty : OrdMap κ' μ) (empty : OrdMap κ ν) where
  entries := rfl
  all _ hr := absurd hr List.not_mem_nil

variable {m' : OrdMap κ' μ} {m : OrdMap κ ν}

theorem SpreadOver.put (hs : Spread P block) (h : SpreadOver P block m' m) {r : κ × ν} (hr : P r) :
    SpreadOver P block (putAll (block r) m') (m.put r.1 r.2) := by
  have hput : putAll (m.entries ++ [r]) empty = m.put r.1 r.2 := by
    rw [putAll_append, putAll_entries]
    rfl
  have hput' : putAll ((m.entries ++ [r]).flatMap block) empty = putAll (block r) m' := by
    rw [List.flatMap_append, List.flatMap_singleton, putAll_append, ← h.entries, putAll_entries]
  have hall : ∀ s ∈ m.entries ++ [r], P s := by
    intro s hmem
    rcases List.mem_append.mp hmem with hmem | hmem
    · exact h.all s hmem
    · exact List.mem_singleton.mp hmem ▸ hr
  obtain ⟨hentries, hP⟩ := hs.putAll_flatMap _ hall
  rw [hput, hput'] at hentries
  exact ⟨hentries, hput ▸ hP⟩

/-- The writes are of keys of the block of an entry that is there. -/
theorem SpreadOver.overwrite [DecidableEq κ] [DecidableEq κ'] (hs : Spread P block) (h : SpreadOver P block m' m)
    {k : κ} {v v' : ν} {new : List (κ' × μ)} (hget : m.get k = some v) (hr : P (k, v'))
    (hnew : names new ⊆ names (block (k, v))) (hblock : block (k, v') = Lib.overwrite (block (k, v)) new) :
    SpreadOver P block (putAll new m') (m.put k v') := by
  have hmem := mem_of_get hget
  have hv := h.all _ hmem
  have hsub : names new ⊆ names m'.entries := by
    intro a ha
    obtain ⟨b, hb, rfl⟩ := List.mem_map.mp (hnew ha)
    rw [h.entries]
    exact List.mem_map_of_mem (List.mem_flatMap.mpr ⟨_, hmem, hb⟩)
  constructor
  · rw [entries_putAll_of_subset hsub, h.entries, overwrite_flatMap,
      entries_put_of_mem v' (List.mem_map.mpr ⟨_, hmem, rfl⟩), assign, List.flatMap_map]
    refine List.flatMap_congr fun r hmem' => ?_
    by_cases hk : r.1 = k
    · have hrv : r = (k, v) := by
        have hget' := get_of_mem (m := m) (k := r.1) (v := r.2) hmem'
        rw [hk, hget, Option.some.injEq] at hget'
        exact Prod.ext hk hget'.symm
      rw [if_pos hk, hrv, hblock]
    · rw [if_neg hk]
      refine overwrite_of_disjoint fun a ha hin => ?_
      obtain ⟨b, hb, rfl⟩ := List.mem_map.mp hin
      exact hk ((hs.mem_keys_iff (h.all r hmem') hv hb).mp (hnew ha))
  · intro s hin
    rcases mem_put hin with rfl | hin
    · exact hr
    · exact h.all s hin

theorem SpreadOver.del (h : SpreadOver P block m' m) {k : κ} {keys : List κ'}
    (hkeys : ∀ r ∈ m.entries, ∀ a ∈ block r, a.1 ∈ keys ↔ r.1 = k) :
    SpreadOver P block (keys.foldl OrdMap.del m') (m.del k) where
  entries := by
    rw [entries_delAll, h.entries, OrdMap.del]
    exact filter_flatMap_block fun r hr a ha => decide_eq_decide.mpr (not_congr (hkeys r hr a ha))
  all r hr := h.all r (mem_del hr)

theorem SpreadOver.seek (h : SpreadOver P block m' m) {k : κ} {k' : κ'}
    (hk : ∀ r ∈ m.entries, ∀ a ∈ block r, k' ≤ a.1 ↔ k ≤ r.1) : m'.seek k' = (m.seek k).flatMap block := by
  rw [seek_eq_filter, seek_eq_filter, h.entries]
  exact filter_flatMap_block fun r hr a ha => decide_eq_decide.mpr (hk r hr a ha)

end

end OrdMap

end Lib
