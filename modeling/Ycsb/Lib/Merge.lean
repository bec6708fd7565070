import Mathlib.Algebra.Free
import Ycsb.Lib.Assoc

/-!
# Merging association lists

To merge is to overwrite the first pair of each name, and to append the names
that are missing. Lists with distinct names form a semigroup, so that the result
of a merge tree depends on its leaves only.
-/

namespace Lib

section
variable {κ ν : Type} [DecidableEq κ]

def upsert (l : List (κ × ν)) (a : κ × ν) : List (κ × ν) := (replaceFirst a.1 a.2 l).getD (l ++ [a])

def merge (l new : List (κ × ν)) : List (κ × ν) := new.foldl upsert l

/-! ## One pair -/

theorem upsert_cons_of_eq {a b : κ × ν} (h : b.1 = a.1) (l : List (κ × ν)) : upsert (b :: l) a = a :: l := by
  rw [upsert, replaceFirst, if_pos h, h]
  rfl

theorem upsert_cons_of_ne {a b : κ × ν} (h : b.1 ≠ a.1) (l : List (κ × ν)) :
    upsert (b :: l) a = b :: upsert l a := by
  rw [upsert, upsert, replaceFirst, if_neg h]
  cases replaceFirst a.1 a.2 l <;> rfl

theorem names_upsert (a : κ × ν) : ∀ l : List (κ × ν),
    names (upsert l a) = if a.1 ∈ names l then names l else names l ++ [a.1]
  | [] => rfl
  | b :: l => by
    by_cases h : b.1 = a.1
    · have ha : a.1 ∈ names (b :: l) := List.mem_cons.mpr (Or.inl h.symm)
      rw [upsert_cons_of_eq h, if_pos ha]
      simp only [names, List.map_cons, h]
    · rw [upsert_cons_of_ne h, names, List.map_cons, ← names, names_upsert a l]
      simp only [names, List.map_cons, List.mem_cons, Ne.symm h, false_or]
      split <;> rfl

theorem mem_names_upsert (l : List (κ × ν)) (a : κ × ν) : a.1 ∈ names (upsert l a) := by
  rw [names_upsert]
  split
  · assumption
  · exact List.mem_append_right _ List.mem_cons_self

theorem nodup_upsert {l : List (κ × ν)} (h : (names l).Nodup) (a : κ × ν) : (names (upsert l a)).Nodup := by
  rw [names_upsert]
  split
  · exact h
  · rename_i hn
    exact List.nodup_append.mpr ⟨h, List.nodup_singleton _, fun k hk k' hk' =>
      fun e => hn (List.mem_singleton.mp hk' ▸ e ▸ hk)⟩

theorem mem_upsert {a b : κ × ν} : ∀ {l : List (κ × ν)}, b ∈ upsert l a → b = a ∨ b ∈ l
  | [], hb => Or.inl (List.mem_singleton.mp hb)
  | c :: l, hb => by
    by_cases h : c.1 = a.1
    · rw [upsert_cons_of_eq h] at hb
      exact (List.mem_cons.mp hb).imp_right (List.mem_cons_of_mem c)
    · rw [upsert_cons_of_ne h] at hb
      rcases List.mem_cons.mp hb with rfl | hb
      · exact Or.inr List.mem_cons_self
      · exact (mem_upsert hb).imp_right (List.mem_cons_of_mem c)

theorem upsert_upsert {a b : κ × ν} (h : b.1 = a.1) : ∀ l : List (κ × ν), upsert (upsert l a) b = upsert l b
  | [] => upsert_cons_of_eq h.symm []
  | c :: l => by
    by_cases hc : c.1 = a.1
    · rw [upsert_cons_of_eq hc, upsert_cons_of_eq h.symm, upsert_cons_of_eq (hc.trans h.symm)]
    · rw [upsert_cons_of_ne hc, upsert_cons_of_ne (h ▸ hc), upsert_cons_of_ne (h ▸ hc), upsert_upsert h l]

theorem upsert_comm {a b : κ × ν} (h : a.1 ≠ b.1) : ∀ {l : List (κ × ν)}, a.1 ∈ names l →
    upsert (upsert l b) a = upsert (upsert l a) b
  | c :: l, ha => by
    by_cases hc : c.1 = a.1
    · have hcb : c.1 ≠ b.1 := hc ▸ h
      rw [upsert_cons_of_ne hcb, upsert_cons_of_eq hc, upsert_cons_of_eq hc, upsert_cons_of_ne h]
    · have hl : a.1 ∈ names l := (List.mem_cons.mp ha).resolve_left (Ne.symm hc)
      by_cases hcb : c.1 = b.1
      · rw [upsert_cons_of_eq hcb, upsert_cons_of_ne (Ne.symm h), upsert_cons_of_ne hc, upsert_cons_of_eq hcb]
      · rw [upsert_cons_of_ne hcb, upsert_cons_of_ne hc, upsert_cons_of_ne hc, upsert_cons_of_ne hcb,
          upsert_comm h hl]

/-! ## Merging -/

theorem merge_cons (l : List (κ × ν)) (a : κ × ν) (new : List (κ × ν)) :
    merge l (a :: new) = merge (upsert l a) new := rfl

theorem nodup_merge : ∀ (new : List (κ × ν)) {l : List (κ × ν)}, (names l).Nodup → (names (merge l new)).Nodup
  | [], _, h => h
  | a :: new, _, h => nodup_merge new (nodup_upsert h a)

theorem mem_merge {b : κ × ν} : ∀ {new l : List (κ × ν)}, b ∈ merge l new → b ∈ l ∨ b ∈ new
  | [], _, hb => Or.inl hb
  | a :: new, l, hb => by
    rw [merge_cons] at hb
    rcases mem_merge hb with hb | hb
    · rcases mem_upsert hb with rfl | hb
      · exact Or.inr List.mem_cons_self
      · exact Or.inl hb
    · exact Or.inr (List.mem_cons_of_mem a hb)

/-- Where all names are there already, nothing is appended. -/
theorem merge_eq_overwrite : ∀ {new l : List (κ × ν)}, (names l).Nodup → names new ⊆ names l →
    merge l new = overwrite l new
  | [], _, _, _ => rfl
  | a :: new, l, hn, h => by
    have ha : upsert l a = assign l a.1 a.2 := by
      rw [upsert, replaceFirst_eq a.1 a.2 hn (h List.mem_cons_self)]
      rfl
    rw [merge_cons, overwrite_cons, ha]
    apply merge_eq_overwrite (by rwa [names_assign])
    intro k hk
    rw [names_assign]
    exact h (List.mem_cons_of_mem _ hk)

/-- A name that is there may be overwritten before the others or after them. -/
theorem upsert_merge {a : κ × ν} : ∀ {new l : List (κ × ν)}, a.1 ∈ names l → a.1 ∉ names new →
    upsert (merge l new) a = merge (upsert l a) new
  | [], _, _, _ => rfl
  | b :: new, l, hl, hn => by
    have hb : a.1 ≠ b.1 := fun h => hn (h ▸ List.mem_cons_self)
    have hl' : a.1 ∈ names (upsert l b) := by
      rw [names_upsert]
      split
      · exact hl
      · exact List.mem_append_left _ hl
    rw [merge_cons, merge_cons, upsert_merge hl' fun h => hn (List.mem_cons_of_mem _ h), upsert_comm hb hl]

theorem merge_upsert (a : κ × ν) : ∀ {new : List (κ × ν)} (l : List (κ × ν)), (names new).Nodup →
    merge l (upsert new a) = upsert (merge l new) a
  | [], _, _ => rfl
  | b :: new, l, hn => by
    obtain ⟨hb, hn⟩ := List.nodup_cons.mp hn
    by_cases h : b.1 = a.1
    · have ha : a.1 ∈ names (upsert l b) := h ▸ mem_names_upsert l b
      rw [upsert_cons_of_eq h, merge_cons, merge_cons, upsert_merge ha (h ▸ hb), upsert_upsert h.symm]
    · rw [upsert_cons_of_ne h, merge_cons, merge_cons, merge_upsert a _ hn]

theorem merge_assoc : ∀ (l : List (κ × ν)) {new : List (κ × ν)} (new' : List (κ × ν)), (names new).Nodup →
    merge (merge l new) new' = merge l (merge new new')
  | _, _, [], _ => rfl
  | l, new, a :: new', hn => by
    rw [merge_cons, merge_cons, ← merge_upsert a l hn, merge_assoc l new' (nodup_upsert hn a)]

/-! ## The semigroup -/

/-- An association list with distinct names, each pair of which satisfies `P`. -/
@[ext]
structure Table (P : κ × ν → Prop) where
  entries : List (κ × ν)
  nodup : (names entries).Nodup
  holds : ∀ a ∈ entries, P a

namespace Table

variable {P : κ × ν → Prop}

instance mulTable : Mul (Table P) where
  mul s t :=
    { entries := merge s.entries t.entries
      nodup := nodup_merge t.entries s.nodup
      holds := fun a ha => (mem_merge ha).elim (s.holds a) (t.holds a) }

@[simp] theorem entries_mul (s t : Table P) : (s * t).entries = merge s.entries t.entries := rfl

instance semigroupTable : Semigroup (Table P) where
  mul_assoc s t u := Table.ext (merge_assoc s.entries u.entries t.nodup)

theorem entries_foldl (ts : List (Table P)) (s : Table P) :
    (ts.foldl (fun s t => s * t) s).entries = ts.foldl (fun l t => merge l t.entries) s.entries := by
  induction ts generalizing s with
  | nil => rfl
  | cons t ts ih => rw [List.foldl_cons, ih, entries_mul, List.foldl_cons]

end Table

end

/-! ## Trees and their leaves -/

section
variable {α β : Type}

/-- In a semigroup only the leaves of a tree matter, and their order. -/
theorem lift_tree [Semigroup β] (f : α → β) (t : FreeMagma α) :
    FreeMagma.lift f t = FreeSemigroup.lift f (FreeMagma.toFreeSemigroup t) := by
  induction t with
  | ih1 a => rfl
  | ih2 s t hs ht => rw [map_mul, map_mul, map_mul, hs, ht]

theorem map_mk (f : α → β) (a : α) (as : List α) : FreeSemigroup.map f ⟨a, as⟩ = ⟨f a, as.map f⟩ := by
  have hfold : ∀ (as : List α) (bs : List β), as.foldl (fun s a => s * FreeSemigroup.of (f a)) ⟨f a, bs⟩ =
      (⟨f a, bs ++ as.map f⟩ : FreeSemigroup β) := by
    intro as
    induction as with
    | nil => intro bs; rw [List.map_nil, List.append_nil]; rfl
    | cons c as ih =>
      intro bs
      have hc : (⟨f a, bs⟩ * FreeSemigroup.of (f c) : FreeSemigroup β) = ⟨f a, bs ++ [f c]⟩ := rfl
      rw [List.foldl_cons, hc, ih, List.append_assoc, List.map_cons, List.singleton_append]
  exact (hfold as []).trans (by rw [List.nil_append])

theorem exists_map_mul {f : α → β} {s : FreeSemigroup α} {x y : FreeSemigroup β} (h : x * y = FreeSemigroup.map f s) :
    ∃ u v, s = u * v ∧ x = FreeSemigroup.map f u ∧ y = FreeSemigroup.map f v := by
  obtain ⟨a, as⟩ := s
  obtain ⟨b, bs⟩ := x
  obtain ⟨c, cs⟩ := y
  rw [map_mk, FreeSemigroup.mk_mul_mk, FreeSemigroup.mk.injEq] at h
  obtain ⟨rfl, h⟩ := h
  obtain ⟨us, vs, rfl, rfl, hv⟩ := List.map_eq_append_iff.mp h.symm
  obtain ⟨v, vs, rfl, rfl, rfl⟩ := List.map_eq_cons_iff.mp hv
  exact ⟨⟨a, us⟩, ⟨v, vs⟩, rfl, (map_mk f a us).symm, (map_mk f v vs).symm⟩

/-- A tree whose leaves are images is the image of a tree. -/
theorem exists_map_tree (f : α → β) (t : FreeMagma β) {s : FreeSemigroup α}
    (h : FreeMagma.toFreeSemigroup t = FreeSemigroup.map f s) :
    ∃ u, FreeMagma.map f u = t ∧ FreeMagma.toFreeSemigroup u = s := by
  induction t generalizing s with
  | ih1 b =>
    obtain ⟨a, as⟩ := s
    rw [map_mk, FreeMagma.toFreeSemigroup_of, FreeSemigroup.of, FreeSemigroup.mk.injEq] at h
    obtain ⟨rfl, h⟩ := h
    rw [List.map_eq_nil_iff.mp h.symm]
    exact ⟨FreeMagma.of a, rfl, rfl⟩
  | ih2 t t' ht ht' =>
    rw [map_mul] at h
    obtain ⟨u, v, rfl, hu, hv⟩ := exists_map_mul h
    obtain ⟨w, rfl, hw⟩ := ht hu
    obtain ⟨w', rfl, hw'⟩ := ht' hv
    exact ⟨w * w', map_mul _ _ _, by rw [map_mul, hw, hw']⟩

end

end Lib
