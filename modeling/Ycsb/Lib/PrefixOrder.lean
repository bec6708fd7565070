import Mathlib.Data.List.Lex
import Mathlib.Order.Lattice

/-!
# Lexicographic order and prefixes

Two lists of which neither begins the other keep their order whatever is
appended. With a separator above what may follow, the longer of two names that
begin alike comes first.
-/

namespace Lib

section
variable {α : Type} [LinearOrder α]

theorem append_lt_append_left : ∀ (l : List α) {as bs : List α}, l ++ as < l ++ bs ↔ as < bs
  | [], _, _ => Iff.rfl
  | a :: l, as, bs => by
    rw [List.cons_append, List.cons_append, List.cons_lt_cons_iff]
    simp [append_lt_append_left l]

theorem append_lt_append_of_lt : ∀ {as bs : List α}, as < bs → ¬ as <+: bs → ∀ (xs ys : List α), as ++ xs < bs ++ ys
  | [], _, _, h, _, _ => absurd List.nil_prefix h
  | _ :: _, [], hlt, _, _, _ => absurd hlt (List.not_lt_nil _)
  | a :: as, b :: bs, hlt, h, xs, ys => by
    rw [List.cons_append, List.cons_append, List.cons_lt_cons_iff]
    rcases List.cons_lt_cons_iff.mp hlt with hab | ⟨rfl, htail⟩
    · exact Or.inl hab
    · exact Or.inr ⟨rfl, append_lt_append_of_lt htail (fun hp => h ((List.prefix_cons_inj a).mpr hp)) xs ys⟩

/-- Names whose proper extensions continue below the separator. -/
def Separated (sep : α) (a b : List α) : Prop := ∀ d t, b = a ++ d :: t → d < sep

variable {sep : α} {a b : List α}

theorem Separated.lt (h : Separated sep a b) (hp : a <+: b) (hne : a ≠ b) (xs ys : List α) :
    b ++ xs < a ++ sep :: ys := by
  obtain ⟨t, rfl⟩ := hp
  cases t with
  | nil => simp at hne
  | cons d t =>
    rw [List.append_assoc, append_lt_append_left, List.cons_append, List.cons_lt_cons_iff]
    exact Or.inl (h d t rfl)

/-- An entry of `b` that an iterator from `a` meets lies above the entries of `a`,
unless `a` begins `b`. -/
theorem Separated.lt_of_le (h : Separated sep b a) (hne : a ≠ b) (hp : ¬ a <+: b) {ys : List α}
    (hle : a ≤ b ++ sep :: ys) (xs : List α) : a ++ xs < b ++ sep :: ys := by
  by_cases hp' : b <+: a
  · exact h.lt hp' hne.symm xs ys
  · refine append_lt_append_of_lt (lt_of_le_of_ne (not_lt.mp fun hlt => ?_) hne) hp xs _
    have hlt' := append_lt_append_of_lt hlt hp' (sep :: ys) []
    rw [List.append_nil] at hlt'
    exact absurd hle (not_le.mpr hlt')

end

end Lib
