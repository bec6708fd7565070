import Mathlib.Data.List.TakeWhile
import Mathlib.Logic.Function.Iterate
import Ycsb.Lib.Padded

/-!
# Formatted input

`std::istream` as what is left to read and two state bits. An extraction skips
space first; it fails without a value at the end of the input, and on a stream
that is not good. A number that does not fit is read to its end, and fails with
the nearest one that does.
-/

namespace Lib

def isSpace (b : Byte) : Bool := decide (b.val = 32 ∨ 9 ≤ b.val ∧ b.val ≤ 13)

def isDigit (b : Byte) : Bool := decide (48 ≤ b.val ∧ b.val < 58)

structure IStream where
  input : Bytes
  eof : Bool
  fail : Bool
  deriving DecidableEq

namespace IStream

def ofInput (input : Bytes) : IStream := ⟨input, false, false⟩

def good (s : IStream) : Bool := !s.eof && !s.fail

/-- `sentry(is, false)`. -/
def sentry (s : IStream) : IStream :=
  if s.good then
    match s.input.dropWhile isSpace with
    | [] => ⟨[], true, true⟩
    | b :: input => ⟨b :: input, false, false⟩
  else { s with fail := true }

/-- An optional sign, and what follows it. -/
def sign : Bytes → Bool × Bytes
  | [] => (false, [])
  | b :: input => if b = 45 then (true, input) else if b = 43 then (false, input) else (false, b :: input)

def int64Max : ℤ := 9223372036854775807

def int64Min : ℤ := -9223372036854775808

/-- `num_get` of an `int64_t` in base ten. -/
def getInt64 (input : Bytes) : ℤ × IStream :=
  let (negative, field) := sign input
  let digits := field.takeWhile isDigit
  let rest := field.dropWhile isDigit
  if digits = [] then (0, ⟨rest, rest.isEmpty, true⟩)
  else
    let n : ℤ := if negative then -decimalValue digits else decimalValue digits
    if int64Max < n then (int64Max, ⟨rest, rest.isEmpty, true⟩)
    else if n < int64Min then (int64Min, ⟨rest, rest.isEmpty, true⟩)
    else (n, ⟨rest, rest.isEmpty, false⟩)

/-- `is >> value` for an `int64_t` that holds `value` before. -/
def extractInt64 (s : IStream) (value : ℤ) : ℤ × IStream :=
  if s.sentry.good then getInt64 s.sentry.input else (value, s.sentry)

/-! ## Failed streams -/

theorem sentry_failed {s : IStream} (h : s.fail = true) : s.sentry = s := by
  obtain ⟨input, eof, fail⟩ := s
  subst h
  simp [sentry, good]

/-- A failed stream stays as it is, and assigns nothing. -/
theorem extractInt64_failed {s : IStream} (h : s.fail = true) (value : ℤ) : s.extractInt64 value = (value, s) := by
  have hgood : ¬ s.good = true := by simp [good, h]
  unfold extractInt64
  rw [sentry_failed h, if_neg hgood]

/-- What is left in the stream does not depend on the value that the extraction may leave. -/
theorem extractInt64_snd (s : IStream) (v w : ℤ) : (s.extractInt64 v).2 = (s.extractInt64 w).2 := by
  unfold extractInt64
  by_cases hgood : s.sentry.good = true
  · rw [if_pos hgood, if_pos hgood]
  · rw [if_neg hgood, if_neg hgood]

/-! ## Decimals -/

variable {p : Byte → Bool} {body rest : Bytes}

theorem takeWhile_body (hbody : ∀ b ∈ body, p b = true) (hrest : ∀ b ∈ rest.head?, p b = false) :
    (body ++ rest).takeWhile p = body := by
  rw [List.takeWhile_append_of_pos hbody]
  cases rest with
  | nil => simp
  | cons b rest => rw [List.takeWhile_cons_of_neg (by simp [hrest b rfl]), List.append_nil]

theorem dropWhile_body (hbody : ∀ b ∈ body, p b = true) (hrest : ∀ b ∈ rest.head?, p b = false) :
    (body ++ rest).dropWhile p = rest := by
  rw [List.dropWhile_append_of_pos hbody]
  cases rest with
  | nil => rfl
  | cons b rest => exact List.dropWhile_cons_of_neg (by simp [hrest b rfl])

theorem isDigit_of_mem_decimal {n : ℕ} : ∀ b ∈ decimal n, isDigit b = true := fun b hb =>
  decide_eq_true (isDigit_decimal n b hb)

theorem decimal_cons (n : ℕ) : ∃ b bs, decimal n = b :: bs ∧ isDigit b = true := by
  obtain ⟨b, bs, h⟩ := List.exists_cons_of_ne_nil (decimal_ne_nil n)
  exact ⟨b, bs, h, isDigit_of_mem_decimal b (by rw [h]; exact List.mem_cons_self)⟩

theorem not_isSpace_of_isDigit {b : Byte} (h : isDigit b = true) : isSpace b = false := by
  unfold isDigit at h
  unfold isSpace
  rw [decide_eq_true_eq] at h
  rw [decide_eq_false_iff_not]
  omega

theorem sign_of_isDigit {b : Byte} (h : isDigit b = true) (input : Bytes) :
    sign (b :: input) = (false, b :: input) := by
  unfold isDigit at h
  rw [decide_eq_true_eq] at h
  have hminus : b ≠ 45 := fun heq => absurd h (by rw [heq]; decide)
  have hplus : b ≠ 43 := fun heq => absurd h (by rw [heq]; decide)
  exact (if_neg hminus).trans (if_neg hplus)

theorem sentry_decimal {space : Bytes} (hspace : ∀ b ∈ space, isSpace b = true) (n : ℕ) (rest : Bytes) :
    (ofInput (space ++ (decimal n ++ rest))).sentry = ofInput (decimal n ++ rest) := by
  obtain ⟨b, bs, hn, hb⟩ := decimal_cons n
  have hdrop : (space ++ (decimal n ++ rest)).dropWhile isSpace = b :: (bs ++ rest) := by
    rw [hn]
    exact dropWhile_body hspace fun c hc => Option.some.inj hc ▸ not_isSpace_of_isDigit hb
  unfold sentry ofInput
  dsimp only [good]
  rw [hdrop, hn]
  rfl

theorem getInt64_decimal (n : ℕ) (hrest : ∀ b ∈ rest.head?, isDigit b = false) :
    getInt64 (decimal n ++ rest) = (min (n : ℤ) int64Max, ⟨rest, rest.isEmpty, decide (int64Max < n)⟩) := by
  obtain ⟨b, bs, hn, hb⟩ := decimal_cons n
  have hsign : sign (decimal n ++ rest) = (false, decimal n ++ rest) := by
    rw [hn]
    exact sign_of_isDigit hb _
  have hmin : ¬ (n : ℤ) < int64Min := by
    unfold int64Min
    omega
  unfold getInt64
  rw [hsign]
  dsimp only
  rw [takeWhile_body isDigit_of_mem_decimal hrest, dropWhile_body isDigit_of_mem_decimal hrest,
    if_neg (decimal_ne_nil n), decimalValue_decimal, if_neg Bool.false_ne_true]
  by_cases hmax : int64Max < (n : ℤ)
  · rw [if_pos hmax, min_eq_right (le_of_lt hmax), decide_eq_true hmax]
  · rw [if_neg hmax, if_neg hmin, min_eq_left (not_lt.mp hmax), decide_eq_false hmax]

/-- A decimal that fits is read as it is; one that does not fails with the greatest value. -/
theorem extractInt64_decimal {space : Bytes} (hspace : ∀ b ∈ space, isSpace b = true) (n : ℕ)
    (hrest : ∀ b ∈ rest.head?, isDigit b = false) (value : ℤ) :
    (ofInput (space ++ (decimal n ++ rest))).extractInt64 value =
      (min (n : ℤ) int64Max, ⟨rest, rest.isEmpty, decide (int64Max < n)⟩) := by
  unfold extractInt64
  rw [sentry_decimal hspace n rest]
  exact (if_pos rfl).trans (getInt64_decimal n hrest)

end IStream

end Lib
