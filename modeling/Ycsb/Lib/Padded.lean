import Mathlib.Data.Nat.Digits.Lemmas
import Ycsb.Lib.Bytes

/-!
# Zero-padded decimals

Leading zeros do not change the value of a decimal. Among decimals of one length
the byte order is the order of the values.
-/

namespace Lib

def IsDigit (b : Byte) : Prop := 48 ≤ b.val ∧ b.val < 58

def decimalValue : Bytes → ℕ
  | [] => 0
  | b :: bs => (b.val - 48) * 10 ^ bs.length + decimalValue bs

/-! ## Values -/

theorem decimalValue_eq_ofDigits : ∀ (bs : Bytes),
    decimalValue bs = Nat.ofDigits 10 (bs.reverse.map fun b => b.val - 48)
  | [] => rfl
  | b :: bs => by
    rw [decimalValue, decimalValue_eq_ofDigits bs, List.reverse_cons, List.map_append, Nat.ofDigits_append]
    simp [Nat.mul_comm, Nat.add_comm]

theorem decimalValue_decimal (n : ℕ) : decimalValue (decimal n) = n := by
  rw [decimalValue_eq_ofDigits]
  exact ofDigits_decimal n

theorem decimalValue_zeros (bs : Bytes) : ∀ (k : ℕ), decimalValue (List.replicate k 48 ++ bs) = decimalValue bs
  | 0 => rfl
  | k + 1 => by
    rw [List.replicate_succ, List.cons_append, decimalValue, decimalValue_zeros bs k]
    simp

theorem zeros_decimal_injective {i j m n : ℕ} (h : List.replicate i 48 ++ decimal m = List.replicate j 48 ++ decimal n) :
    m = n := by
  have h' := congrArg decimalValue h
  rwa [decimalValue_zeros, decimalValue_zeros, decimalValue_decimal, decimalValue_decimal] at h'

/-! ## Digits -/

theorem digitByte_val {d : ℕ} (h : d < 10) : (digitByte d).val = 48 + d := by
  change (48 + d) % 256 = 48 + d
  exact Nat.mod_eq_of_lt (by omega)

theorem isDigit_zeros {k : ℕ} : ∀ b ∈ List.replicate k (48 : Byte), IsDigit b := by
  intro b hb
  rw [List.eq_of_mem_replicate hb]
  exact ⟨le_rfl, by decide⟩

theorem isDigit_decimal (n : ℕ) : ∀ b ∈ decimal n, IsDigit b := by
  have hdigit : ∀ d < 10, IsDigit (digitByte d) := fun d hd => by
    rw [IsDigit, digitByte_val hd]
    omega
  intro b hb
  unfold decimal at hb
  split at hb
  · rw [List.mem_singleton.mp hb]
    exact hdigit 0 (by decide)
  · obtain ⟨d, hd, rfl⟩ := List.mem_map.mp hb
    exact hdigit d (Nat.digits_lt_base (by decide) (List.mem_reverse.mp hd))

theorem decimal_length_le {n k : ℕ} (hk : 0 < k) : (decimal n).length ≤ k ↔ n < 10 ^ k := by
  by_cases h : n = 0
  · subst h
    simp [decimal]
    omega
  · rw [decimal, if_neg h, List.length_map, List.length_reverse]
    exact Nat.digits_length_le_iff (by decide) n

/-! ## Order -/

theorem decimalValue_lt : ∀ {bs : Bytes}, (∀ b ∈ bs, IsDigit b) → decimalValue bs < 10 ^ bs.length
  | [], _ => Nat.one_pos
  | b :: bs, h => by
    have hb := h b List.mem_cons_self
    have ih := decimalValue_lt fun b hb => h b (List.mem_cons_of_mem _ hb)
    have hmul : (b.val - 48) * 10 ^ bs.length ≤ 9 * 10 ^ bs.length :=
      Nat.mul_le_mul_right _ (by have := hb.2; omega)
    rw [decimalValue, List.length_cons, Nat.pow_succ]
    omega

theorem lt_iff_decimalValue_lt : ∀ {as bs : Bytes}, (∀ b ∈ as, IsDigit b) → (∀ b ∈ bs, IsDigit b) →
    as.length = bs.length → (as < bs ↔ decimalValue as < decimalValue bs)
  | [], [], _, _, _ => by simp [decimalValue]
  | [], _ :: _, _, _, h => by cases h
  | _ :: _, [], _, _, h => by cases h
  | a :: as, b :: bs, ha, hb, h => by
    have hlen : as.length = bs.length := Nat.succ.inj h
    have hda := ha a List.mem_cons_self
    have hdb := hb b List.mem_cons_self
    have has := fun c hc => ha c (List.mem_cons_of_mem _ hc)
    have hbs := fun c hc => hb c (List.mem_cons_of_mem _ hc)
    have hva := decimalValue_lt has
    have hvb := decimalValue_lt hbs
    rw [List.cons_lt_cons_iff, lt_iff_decimalValue_lt has hbs hlen, decimalValue, decimalValue, hlen]
    rw [hlen] at hva
    rcases Nat.lt_trichotomy a.val b.val with hlt | heq | hgt
    · -- the first digits decide: the rest is below one unit of them
      have hmul : (a.val - 48 + 1) * 10 ^ bs.length ≤ (b.val - 48) * 10 ^ bs.length :=
        Nat.mul_le_mul_right _ (by have := hda.1; omega)
      rw [Nat.add_mul, Nat.one_mul] at hmul
      exact iff_of_true (Or.inl hlt) (by omega)
    · have hab : a = b := Fin.ext heq
      subst hab
      simp
    · have hmul : (b.val - 48 + 1) * 10 ^ bs.length ≤ (a.val - 48) * 10 ^ bs.length :=
        Nat.mul_le_mul_right _ (by have := hdb.1; omega)
      rw [Nat.add_mul, Nat.one_mul] at hmul
      refine iff_of_false ?_ (by omega)
      rintro (hlt | ⟨rfl, _⟩)
      · exact absurd hlt (Nat.lt_asymm hgt)
      · exact Nat.lt_irrefl _ hgt

theorem padded_lt_iff {w m n : ℕ} (hm : (decimal m).length ≤ w) (hn : (decimal n).length ≤ w) :
    List.replicate (w - (decimal m).length) 48 ++ decimal m < List.replicate (w - (decimal n).length) 48 ++ decimal n ↔
      m < n := by
  have hdigits : ∀ i n, ∀ b ∈ List.replicate i 48 ++ decimal n, IsDigit b := fun i n b hb =>
    (List.mem_append.mp hb).elim (isDigit_zeros b) (isDigit_decimal n b)
  have hlen : ∀ {n}, (decimal n).length ≤ w → (List.replicate (w - (decimal n).length) 48 ++ decimal n).length = w := by
    intro n h
    rw [List.length_append, List.length_replicate]
    omega
  rw [lt_iff_decimalValue_lt (hdigits _ _) (hdigits _ _) ((hlen hm).trans (hlen hn).symm), decimalValue_zeros,
    decimalValue_zeros, decimalValue_decimal, decimalValue_decimal]

end Lib
