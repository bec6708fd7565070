import Mathlib.Data.List.Lex
import Mathlib.Data.Nat.Digits.Defs
import Mathlib.Order.Fin.Basic

/-!
# Byte buffers, little-endian lengths and frames

A buffer is a list of bytes, a pointer an offset into it. Reads and writes
outside the buffer are faults. A frame is a 32-bit length followed by that many
bytes.
-/

namespace Lib

abbrev Byte := Fin 256

instance byteNeZero : NeZero 256 := ⟨by decide⟩

abbrev Bytes := List Byte

theorem byte_succ {n : Byte} (h : n.val < 255) : (n + 1).val = n.val + 1 := by
  rw [Fin.val_add]
  exact Nat.mod_eq_of_lt (by simpa using Nat.succ_lt_succ h)

theorem byte_pred {n : Byte} (h : 0 < n.val) : (n - 1).val + 1 = n.val := by
  have h1 : (1 : Byte) ≤ n := Fin.le_def.mpr h
  rw [Fin.sub_val_of_le h1]
  exact Nat.sub_add_cancel h

inductive Fault where
  | read
  | write
  | assertion
  deriving DecidableEq, Repr

theorem bind_ok {ε α β : Type} {x : Except ε α} {f : α → Except ε β} {b : β} :
    (x >>= f) = .ok b ↔ ∃ a, x = .ok a ∧ f a = .ok b := by
  cases x <;> simp [bind, Except.bind]

theorem bind_error {ε α β : Type} {x : Except ε α} {f : α → Except ε β} {e : ε} :
    (x >>= f) = .error e ↔ x = .error e ∨ ∃ a, x = .ok a ∧ f a = .error e := by
  cases x <;> simp [bind, Except.bind]

theorem map_ok {ε α β : Type} {x : Except ε α} {f : α → β} {b : β} :
    x.map f = .ok b ↔ ∃ a, x = .ok a ∧ f a = b := by
  cases x <;> simp [Except.map]

/-! ## 32-bit words -/

def byteAt (n i : ℕ) : Byte := ⟨n / 256 ^ i % 256, Nat.mod_lt _ (by decide)⟩

/-- The memory of `uint32_t len = n` on a little-endian host; the upper bits of `n` are lost. -/
def le32 (n : ℕ) : Bytes := [byteAt n 0, byteAt n 1, byteAt n 2, byteAt n 3]

def word (a b c d : Byte) : ℕ := a + 256 * b + 65536 * c + 16777216 * d

def read32 (mem : Bytes) (p : ℕ) : Except Fault ℕ :=
  match mem.drop p with
  | a :: b :: c :: d :: _ => .ok (word a b c d)
  | _ => .error .read

def readBytes (mem : Bytes) (p len : ℕ) : Except Fault Bytes :=
  if p + len ≤ mem.length then .ok ((mem.drop p).take len) else .error .read

def toInt (n : ℕ) : ℤ := if n < 2 ^ 31 then n else n - 2 ^ 32

@[simp] theorem le32_length (n : ℕ) : (le32 n).length = 4 := rfl

theorem word_lt (a b c d : Byte) : word a b c d < 2 ^ 32 := by
  have ha := a.isLt
  have hb := b.isLt
  have hc := c.isLt
  have hd := d.isLt
  unfold word
  omega

theorem le32_word (a b c d : Byte) : le32 (word a b c d) = [a, b, c, d] := by
  have ha := a.isLt
  have hb := b.isLt
  have hc := c.isLt
  have hd := d.isLt
  simp only [le32, byteAt, word, List.cons.injEq, Fin.ext_iff, Nat.reducePow, and_true]
  refine ⟨?_, ?_, ?_, ?_⟩ <;> omega

theorem read32_le32 {mem t : Bytes} {p n : ℕ} (h : mem.drop p = le32 n ++ t) (hn : n < 2 ^ 32) :
    read32 mem p = .ok n := by
  simp only [read32, h, le32, List.cons_append, byteAt, word, Except.ok.injEq]
  omega

theorem read32_ok {mem : Bytes} {p n : ℕ} (h : read32 mem p = .ok n) :
    mem.drop p = le32 n ++ mem.drop (p + 4) ∧ n < 2 ^ 32 := by
  unfold read32 at h
  split at h
  · rename_i a b c d t hd
    simp only [Except.ok.injEq] at h
    subst h
    refine ⟨?_, word_lt a b c d⟩
    rw [le32_word, ← List.drop_drop, hd]
    rfl
  · cases h

theorem readBytes_append {mem bs t : Bytes} {p : ℕ} (h : mem.drop p = bs ++ t)
    (hp : p ≤ mem.length) : readBytes mem p bs.length = .ok bs := by
  have hlen := congrArg List.length h
  simp only [List.length_drop, List.length_append] at hlen
  rw [readBytes, if_pos (by omega), h, List.take_left]

theorem readBytes_ok {mem bs : Bytes} {p len : ℕ} (h : readBytes mem p len = .ok bs) :
    mem.drop p = bs ++ mem.drop (p + len) ∧ bs.length = len ∧ p + len ≤ mem.length := by
  unfold readBytes at h
  split at h
  · rename_i hle
    simp only [Except.ok.injEq] at h
    subst h
    refine ⟨?_, ?_, hle⟩
    · rw [← List.drop_drop, List.take_append_drop]
    · rw [List.length_take, List.length_drop]; omega
  · cases h

/-! ## Frames -/

def frame (bs : Bytes) : Bytes := le32 bs.length ++ bs

def readFrame (mem : Bytes) (p : ℕ) : Except Fault (Bytes × ℕ) := do
  let len ← read32 mem p
  let bs ← readBytes mem (p + 4) len
  return (bs, p + 4 + len)

theorem frame_length (bs : Bytes) : (frame bs).length = 4 + bs.length := by
  simp [frame]

theorem drop_after {mem a t : Bytes} {p : ℕ} (h : mem.drop p = a ++ t) :
    mem.drop (p + a.length) = t := by
  rw [← List.drop_drop, h, List.drop_left]

theorem le_length_of_drop {mem a t : Bytes} {p : ℕ} (h : mem.drop p = a ++ t) (ha : a ≠ []) :
    p + a.length ≤ mem.length := by
  have hlen := congrArg List.length h
  have hpos := List.length_pos_iff.mpr ha
  simp only [List.length_drop, List.length_append] at hlen
  omega

theorem readFrame_frame {mem bs t : Bytes} {p : ℕ} (h : mem.drop p = frame bs ++ t)
    (hbs : bs.length < 2 ^ 32) : readFrame mem p = .ok (bs, p + (frame bs).length) := by
  have h4 : mem.drop p = le32 bs.length ++ (bs ++ t) := by rw [h, frame, List.append_assoc]
  have hrest : mem.drop (p + 4) = bs ++ t := drop_after h4
  have hle : p + 4 ≤ mem.length := le_length_of_drop h4 (by simp [le32])
  rw [readFrame, read32_le32 h4 hbs]
  simp only [bind, Except.bind, readBytes_append hrest hle, frame_length]
  rw [Nat.add_assoc]
  rfl

theorem readFrame_ok {mem bs : Bytes} {p q : ℕ} (h : readFrame mem p = .ok (bs, q)) :
    mem.drop p = frame bs ++ mem.drop q ∧ bs.length < 2 ^ 32 ∧ q = p + (frame bs).length ∧
      q ≤ mem.length := by
  unfold readFrame at h
  obtain ⟨len, h1, h⟩ := bind_ok.mp h
  obtain ⟨bs', h2, h⟩ := bind_ok.mp h
  cases h
  obtain ⟨hd, hlt⟩ := read32_ok h1
  obtain ⟨hd', hlen, hle⟩ := readBytes_ok h2
  refine ⟨?_, hlen ▸ hlt, by rw [frame_length, hlen, Nat.add_assoc], hle⟩
  rw [hd, hd', frame, hlen, List.append_assoc]

/-! ## Writing into a buffer -/

def write (buf : Bytes) (off : ℕ) (src : Bytes) : Except Fault Bytes :=
  if off + src.length ≤ buf.length then
    .ok (buf.take off ++ (src ++ buf.drop (off + src.length)))
  else .error .write

theorem write_ok {buf src : Bytes} {off : ℕ} (h : off + src.length ≤ buf.length) :
    write buf off src = .ok (buf.take off ++ (src ++ buf.drop (off + src.length))) := if_pos h

theorem write_length {buf src buf' : Bytes} {off : ℕ} (h : write buf off src = .ok buf') :
    buf'.length = buf.length := by
  unfold write at h
  split at h
  · simp only [Except.ok.injEq] at h
    subst h
    simp only [List.length_append, List.length_take, List.length_drop]
    omega
  · cases h

theorem write_error {buf src : Bytes} {off : ℕ} (h : buf.length < off + src.length) :
    write buf off src = .error .write := if_neg (Nat.not_le.mpr h)

theorem write_fits {buf buf' src : Bytes} {off : ℕ} (h : write buf off src = .ok buf') :
    off + src.length ≤ buf.length := by
  by_contra hfit
  rw [write_error (not_le.mp hfit)] at h
  cases h

theorem write_write (buf : Bytes) (off : ℕ) (a b : Bytes) :
    (write buf off a >>= fun buf => write buf (off + a.length) b) = write buf off (a ++ b) := by
  rcases Nat.lt_or_ge buf.length (off + a.length) with ha | ha
  · rw [write_error ha, write_error (by rw [List.length_append]; omega)]
    rfl
  · -- the buffer splits into what is kept in front, what `a` replaces, and the rest
    obtain ⟨pre, mid, post, hbuf, hpre, hmid⟩ : ∃ pre mid post, buf = pre ++ (mid ++ post) ∧
        pre.length = off ∧ mid.length = a.length :=
      ⟨buf.take off, (buf.drop off).take a.length, (buf.drop off).drop a.length, by simp only [List.take_append_drop],
        by rw [List.length_take]; omega, by rw [List.length_take, List.length_drop]; omega⟩
    have hsplit : ∀ m : Bytes, m.length = a.length →
        (pre ++ (m ++ post)).take off = pre ∧ (pre ++ (m ++ post)).drop (off + a.length) = post := by
      intro m hm
      rw [← hpre, ← hm]
      exact ⟨List.take_left .., by rw [← List.drop_drop, List.drop_left, List.drop_left]⟩
    subst hbuf
    obtain ⟨ht, hd⟩ := hsplit mid hmid
    rw [write_ok ha, ht, hd]
    change write (pre ++ (a ++ post)) (off + a.length) b = _
    rcases Nat.lt_or_ge post.length b.length with hb | hb
    · have hlen : (pre ++ (mid ++ post)).length < off + (a ++ b).length := by
        simp only [List.length_append]; omega
      rw [write_error hlen, write_error (by simp only [List.length_append]; omega)]
    · have hlen : off + (a ++ b).length ≤ (pre ++ (mid ++ post)).length := by
        simp only [List.length_append]; omega
      rw [write_ok hlen, write_ok (by simp only [List.length_append]; omega), ht, List.length_append]
      have hta : (pre ++ (a ++ post)).take (off + a.length) = pre ++ a := by
        rw [← List.append_assoc, ← hpre, ← List.length_append, List.take_left]
      have hda := (hsplit a rfl).2
      rw [hta, ← List.drop_drop, hda, ← Nat.add_assoc, ← List.drop_drop, hd]
      simp only [List.append_assoc]

theorem write_behind {buf buf' a b : Bytes} {off : ℕ} (h : write buf off a = .ok buf') :
    write buf' (off + a.length) b = write buf off (a ++ b) := by
  rw [← write_write, h]
  rfl

/-! ## Decimal numbers -/

def digitByte (d : ℕ) : Byte := Fin.ofNat 256 (48 + d)

def decimal (n : ℕ) : Bytes := if n = 0 then [digitByte 0] else (Nat.digits 10 n).reverse.map digitByte

theorem ofDigits_decimal (n : ℕ) : Nat.ofDigits 10 ((decimal n).reverse.map fun b => b.val - 48) = n := by
  by_cases h : n = 0
  · subst h; rfl
  · have hd : ((Nat.digits 10 n).map digitByte).map (fun b => b.val - 48) = Nat.digits 10 n := by
      rw [List.map_map]
      refine (List.map_congr_left fun d hd => ?_).trans (List.map_id _)
      have hlt : d < 10 := Nat.digits_lt_base (by decide) hd
      change (48 + d) % 256 - 48 = d
      omega
    simp only [decimal, if_neg h, List.map_reverse, List.reverse_reverse]
    rw [hd, Nat.ofDigits_digits]

theorem decimal_injective : Function.Injective decimal := by
  intro m n h
  rw [← ofDigits_decimal m, h, ofDigits_decimal]

theorem decimal_ne_nil (n : ℕ) : decimal n ≠ [] := by
  by_cases h : n = 0
  · simp [decimal, h]
  · simp [decimal, h, Nat.digits_ne_nil_iff_ne_zero]

end Lib
