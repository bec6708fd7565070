import Mathlib.Data.List.Nodup
import Mathlib.Data.List.Sublists

/-!
# Association lists

Rows of named values: overwriting by name, and picking out a list of names by a
single greedy pass.
-/

namespace Lib

section
variable {κ ν : Type} [DecidableEq κ]

abbrev names (l : List (κ × ν)) : List κ := l.map Prod.fst

/-! ## Overwriting -/

/-- Overwrite the first pair named `k` and stop; `none` if there is none. -/
def replaceFirst (k : κ) (v : ν) : List (κ × ν) → Option (List (κ × ν))
  | [] => none
  | a :: l => if a.1 = k then some ((a.1, v) :: l) else (replaceFirst k v l).map (a :: ·)

def assign (l : List (κ × ν)) (k : κ) (v : ν) : List (κ × ν) :=
  l.map fun a => if a.1 = k then (a.1, v) else a

/-- Overwrite by each of `new` in turn. Names and their order stay; pairs that
`new` does not name stay as they are. -/
def overwrite (l new : List (κ × ν)) : List (κ × ν) := new.foldl (fun l a => assign l a.1 a.2) l

@[simp] theorem names_assign (l : List (κ × ν)) (k : κ) (v : ν) : names (assign l k v) = names l := by
  simp only [names, assign, List.map_map]
  apply List.map_congr_left
  intro a _
  simp only [Function.comp]
  split <;> rfl

theorem assign_of_not_mem {l : List (κ × ν)} {k : κ} (h : k ∉ names l) (v : ν) : assign l k v = l := by
  have hid : ∀ a ∈ l, (if a.1 = k then (a.1, v) else a) = id a := fun a ha =>
    if_neg fun e : a.1 = k => h (e ▸ List.mem_map_of_mem ha)
  rw [assign, List.map_congr_left hid, List.map_id]

theorem replaceFirst_eq (k : κ) (v : ν) : ∀ {l : List (κ × ν)}, (names l).Nodup → k ∈ names l →
    replaceFirst k v l = some (assign l k v)
  | [], _, h => by simp at h
  | a :: l, hn, h => by
    have hn' := List.nodup_cons.mp hn
    by_cases ha : a.1 = k
    · have hl : assign l k v = l := assign_of_not_mem (ha ▸ hn'.1) v
      simp only [replaceFirst, assign, if_pos ha, List.map_cons]
      rw [← assign, hl]
    · have hk : k ∈ names l := (List.mem_cons.mp h).resolve_left (Ne.symm ha)
      simp only [replaceFirst, assign, if_neg ha, List.map_cons, replaceFirst_eq k v hn'.2 hk, Option.map_some]

theorem mem_of_replaceFirst {k : κ} {v : ν} : ∀ {l l' : List (κ × ν)}, replaceFirst k v l = some l' → k ∈ names l
  | [], _, h => by cases h
  | a :: l, l', h => by
    by_cases ha : a.1 = k
    · exact ha ▸ List.mem_cons_self
    · rw [replaceFirst, if_neg ha] at h
      obtain ⟨l₁, hl, _⟩ := Option.map_eq_some_iff.mp h
      exact List.mem_cons_of_mem _ (mem_of_replaceFirst hl)

theorem overwrite_cons (l : List (κ × ν)) (a : κ × ν) (new : List (κ × ν)) :
    overwrite l (a :: new) = overwrite (assign l a.1 a.2) new := rfl

@[simp] theorem names_overwrite (l new : List (κ × ν)) : names (overwrite l new) = names l := by
  induction new generalizing l with
  | nil => rfl
  | cons a new ih => rw [overwrite_cons, ih, names_assign]

theorem assign_lookup (l : List (κ × ν)) (k : κ) (v : ν) {a : κ × ν} (ha : a ∈ assign l k v) :
    (a.1 = k ∧ a.2 = v) ∨ (a.1 ≠ k ∧ a ∈ l) := by
  obtain ⟨b, hb, rfl⟩ := List.mem_map.mp ha
  by_cases h : b.1 = k
  · rw [if_pos h]; exact Or.inl ⟨h, rfl⟩
  · rw [if_neg h]; exact Or.inr ⟨h, hb⟩

theorem mem_overwrite {l new : List (κ × ν)} {a : κ × ν} (ha : a ∈ overwrite l new) :
    a ∈ new ∨ (a ∈ l ∧ a.1 ∉ names new) := by
  induction new generalizing l with
  | nil => exact Or.inr ⟨ha, by simp⟩
  | cons b new ih =>
    rw [overwrite_cons] at ha
    rcases ih ha with h | ⟨h, hn⟩
    · exact Or.inl (List.mem_cons_of_mem _ h)
    · rcases assign_lookup l b.1 b.2 h with ⟨h1, h2⟩ | ⟨h1, h2⟩
      · exact Or.inl (List.mem_cons.mpr (Or.inl (Prod.ext h1 h2)))
      · refine Or.inr ⟨h2, fun hm => ?_⟩
        rcases List.mem_cons.mp hm with e | hm
        · exact h1 e
        · exact hn hm

theorem mem_overwrite_of_not_mem {a : κ × ν} : ∀ {new l : List (κ × ν)}, a ∈ l → a.1 ∉ names new →
    a ∈ overwrite l new
  | [], _, ha, _ => ha
  | b :: new, l, ha, hn => by
    have hne : a.1 ≠ b.1 := fun h => hn (h ▸ List.mem_cons_self)
    have hb : a ∈ assign l b.1 b.2 := List.mem_map.mpr ⟨a, ha, if_neg hne⟩
    rw [overwrite_cons]
    exact mem_overwrite_of_not_mem hb fun h => hn (List.mem_cons_of_mem _ h)

theorem subset_overwrite : ∀ {new l : List (κ × ν)}, (names new).Nodup → names new ⊆ names l →
    new ⊆ overwrite l new
  | [], l, _, _ => List.nil_subset _
  | b :: new, l, hn, hl => by
    obtain ⟨hb, hn⟩ := List.nodup_cons.mp hn
    obtain ⟨c, hc, hcb⟩ := List.mem_map.mp (hl List.mem_cons_self)
    have hassign : b ∈ assign l b.1 b.2 := List.mem_map.mpr ⟨c, hc, by rw [if_pos hcb]; exact Prod.ext hcb rfl⟩
    rw [overwrite_cons]
    refine List.cons_subset.mpr ⟨mem_overwrite_of_not_mem hassign hb, subset_overwrite hn ?_⟩
    rw [names_assign]
    exact fun k hk => hl (List.mem_cons_of_mem _ hk)

/-! ### Overwriting several times -/

theorem overwrite_append (l new new' : List (κ × ν)) : overwrite l (new ++ new') = overwrite (overwrite l new) new' :=
  List.foldl_append ..

theorem foldl_overwrite {ι : Type} (new : ι → List (κ × ν)) (is : List ι) (l : List (κ × ν)) :
    is.foldl (fun l i => overwrite l (new i)) l = overwrite l (is.flatMap new) := by
  induction is generalizing l with
  | nil => rfl
  | cons i is ih => rw [List.foldl_cons, ih, List.flatMap_cons, overwrite_append]

theorem assign_assign (l : List (κ × ν)) (k : κ) (v v' : ν) : assign (assign l k v) k v' = assign l k v' := by
  simp only [assign, List.map_map]
  apply List.map_congr_left
  intro a _
  by_cases h : a.1 = k <;> simp [h]

theorem assign_comm (l : List (κ × ν)) {k k' : κ} (hk : k ≠ k') (v v' : ν) :
    assign (assign l k v) k' v' = assign (assign l k' v') k v := by
  simp only [assign, List.map_map]
  apply List.map_congr_left
  intro a _
  by_cases h : a.1 = k
  · simp [h, hk]
  · by_cases h' : a.1 = k' <;> simp [h, h', Ne.symm hk]

theorem overwrite_assign {k : κ} (v : ν) : ∀ {new : List (κ × ν)} (l : List (κ × ν)), k ∈ names new →
    overwrite (assign l k v) new = overwrite l new
  | b :: new, l, hk => by
    rw [overwrite_cons, overwrite_cons]
    by_cases hb : k = b.1
    · rw [hb, assign_assign]
    · rw [assign_comm l hb, overwrite_assign v _ ((List.mem_cons.mp hk).resolve_left hb)]

theorem overwrite_overwrite : ∀ {new new' : List (κ × ν)} (l : List (κ × ν)), names new ⊆ names new' →
    overwrite (overwrite l new) new' = overwrite l new'
  | [], _, _, _ => rfl
  | b :: new, new', l, h => by
    obtain ⟨hb, hnew⟩ := List.cons_subset.mp h
    rw [overwrite_cons, overwrite_overwrite _ hnew, overwrite_assign b.2 l hb]

theorem mem_overwrite_of_forall {l new : List (κ × ν)} {k : κ} {v : ν} (hk : k ∈ names l) (hnew : k ∈ names new)
    (hv : ∀ a ∈ new, a.1 = k → a.2 = v) : (k, v) ∈ overwrite l new := by
  rw [← names_overwrite l new] at hk
  obtain ⟨a, ha, rfl⟩ := List.mem_map.mp hk
  rcases mem_overwrite ha with h | ⟨_, h⟩
  · rwa [← hv a h rfl]
  · exact absurd hnew h

omit [DecidableEq κ] in
theorem eq_of_names {r : List (κ × ν)} (hn : (names r).Nodup) : ∀ {l l' : List (κ × ν)}, l ⊆ r → l' ⊆ r →
    names l = names l' → l = l'
  | [], [], _, _, _ => rfl
  | a :: l, b :: l', hl, hl', h => by
    obtain ⟨hab, h⟩ := List.cons.inj h
    have hab : a = b := List.inj_on_of_nodup_map hn (hl List.mem_cons_self) (hl' List.mem_cons_self) hab
    have htail := eq_of_names hn (fun c hc => hl (List.mem_cons_of_mem _ hc))
      (fun c hc => hl' (List.mem_cons_of_mem _ hc)) h
    rw [hab, htail]

/-! ## Picking names -/

/-- A single pass over `l` that keeps the pairs with the next wanted name. -/
def pick : List κ → List (κ × ν) → List (κ × ν)
  | _, [] => []
  | [], _ :: _ => []
  | f :: fs, a :: l => if f = a.1 then a :: pick fs l else pick (f :: fs) l

@[simp] theorem pick_nil_left (l : List (κ × ν)) : pick ([] : List κ) l = [] := by cases l <;> rfl

theorem pick_sublist : ∀ (fs : List κ) (l : List (κ × ν)), (pick fs l).Sublist l
  | _, [] => by simp [pick]
  | [], _ :: _ => by simp
  | f :: fs, a :: l => by
    simp only [pick]
    split
    · exact (pick_sublist fs l).cons_cons a
    · exact (pick_sublist (f :: fs) l).cons a

theorem names_pick_initial : ∀ (fs : List κ) (l : List (κ × ν)), names (pick fs l) <+: fs
  | fs, [] => by simp [pick]
  | [], _ :: _ => by simp
  | f :: fs, a :: l => by
    simp only [pick]
    split
    · rename_i h
      subst h
      exact List.prefix_cons_inj _ |>.mpr (names_pick_initial fs l)
    · exact names_pick_initial (f :: fs) l

theorem names_pick : ∀ {fs : List κ} {l : List (κ × ν)}, fs.Sublist (names l) → names (pick fs l) = fs
  | [], l, _ => by simp
  | f :: fs, [], h => by simp at h
  | f :: fs, a :: l, h => by
    simp only [pick]
    split
    · rename_i hf
      subst hf
      have h' : fs.Sublist (names l) := List.cons_sublist_cons.mp h
      rw [names, List.map_cons, ← names, names_pick h']
    · rename_i hf
      rw [names, List.map_cons] at h
      rcases List.sublist_cons_iff.mp h with h' | ⟨r, hr, h'⟩
      · exact names_pick h'
      · exact absurd (List.cons.inj hr).1 hf

theorem pick_length_iff {fs : List κ} {l : List (κ × ν)} :
    (pick fs l).length = fs.length ↔ fs.Sublist (names l) := by
  constructor
  · intro h
    have hp := names_pick_initial fs l
    have he : names (pick fs l) = fs := hp.eq_of_length (by rw [List.length_map, h])
    exact he ▸ (pick_sublist fs l).map Prod.fst
  · intro h
    rw [← List.length_map (f := Prod.fst), ← names, names_pick h]

theorem pick_eq_filter : ∀ {fs : List κ} {l : List (κ × ν)}, (names l).Nodup → fs.Sublist (names l) →
    pick fs l = l.filter fun a => decide (a.1 ∈ fs)
  | [], l, _, _ => by simp
  | f :: fs, [], _, h => by simp at h
  | f :: fs, a :: l, hn, h => by
    have hn' := List.nodup_cons.mp hn
    simp only [pick]
    split
    · rename_i hf
      subst hf
      have h' : fs.Sublist (names l) := List.cons_sublist_cons.mp h
      rw [List.filter_cons_of_pos (by simp), pick_eq_filter hn'.2 h']
      congr 1
      apply List.filter_congr
      intro b hb
      have hne : b.1 ≠ a.1 := fun e => hn'.1 (e ▸ List.mem_map_of_mem hb)
      simp [hne]
    · rename_i hf
      rw [names, List.map_cons] at h
      rcases List.sublist_cons_iff.mp h with h' | ⟨r, hr, h'⟩
      · have ha : a.1 ∉ f :: fs := fun hm => hn'.1 (h'.subset hm)
        rw [List.filter_cons_of_neg (by simpa using ha), pick_eq_filter hn'.2 h']
      · exact absurd (List.cons.inj hr).1 hf

end

end Lib
