import Ycsb.RateFile
import Ycsb.TokenSound

/-!
# The schedule of a rate file

The stream is at its end when the last rate is read up to the end of the file. A
newline there leaves one more turn, in which nothing is read; a number that does
not fit leaves turns of that kind only.
-/

namespace Ycsb

open Lib

variable {T : ℕ} {turns : Turns}

/-! ## Files -/

/-- A line of a rate file: a time and a rate. -/
def lineText (l : ℕ × ℕ) : Bytes := decimal l.1 ++ 32 :: decimal l.2

def rateFile (lines : List (ℕ × ℕ)) (newline : Bool) : Bytes :=
  [10].intercalate (lines.map lineText) ++ if newline then [10] else []

/-- What follows a line. -/
def linesBehind (newline : Bool) : List (ℕ × ℕ) → Bytes
  | [] => if newline then [10] else []
  | l :: lines => 10 :: (lineText l ++ linesBehind newline lines)

theorem rateFile_cons (newline : Bool) : ∀ (l : ℕ × ℕ) (lines : List (ℕ × ℕ)),
    rateFile (l :: lines) newline = lineText l ++ linesBehind newline lines
  | l, [] => by simp [rateFile, linesBehind]
  | l, l' :: lines => by
    have htail := rateFile_cons newline l' lines
    unfold rateFile at htail ⊢
    rw [linesBehind, ← htail]
    simp [List.intercalate]

theorem linesBehind_head (newline : Bool) (lines : List (ℕ × ℕ)) :
    ∀ b ∈ (linesBehind newline lines).head?, isDigit b = false := by
  have hten : isDigit 10 = false := by decide
  intro b hb
  cases lines with
  | nil =>
    cases newline with
    | false => cases hb
    | true => exact Option.some.inj hb ▸ hten
  | cons l lines => exact Option.some.inj hb ▸ hten

/-! ## One turn -/

section
variable {space rest : Bytes} {l : ℕ × ℕ}

theorem extract_time (hspace : ∀ b ∈ space, isSpace b = true) (l : ℕ × ℕ) (rest : Bytes) (value : ℤ) :
    (IStream.ofInput (space ++ (lineText l ++ rest))).extractInt64 value = (min (l.1 : ℤ) IStream.int64Max,
      ⟨32 :: (decimal l.2 ++ rest), false, decide (IStream.int64Max < l.1)⟩) := by
  have hspace' : ∀ b ∈ (32 :: (decimal l.2 ++ rest)).head?, isDigit b = false :=
    fun b hb => Option.some.inj hb ▸ (by decide : isDigit 32 = false)
  have htext : lineText l ++ rest = decimal l.1 ++ 32 :: (decimal l.2 ++ rest) := by
    rw [lineText, List.append_assoc, List.cons_append]
  rw [htext, IStream.extractInt64_decimal hspace l.1 hspace']
  rfl

theorem extract_rate (l : ℕ × ℕ) (hrest : ∀ b ∈ rest.head?, isDigit b = false) (value : ℤ) :
    (IStream.ofInput (32 :: (decimal l.2 ++ rest))).extractInt64 value =
      (min (l.2 : ℤ) IStream.int64Max, ⟨rest, rest.isEmpty, decide (IStream.int64Max < l.2)⟩) := by
  have hspace : ∀ b ∈ ([32] : Bytes), isSpace b = true := fun b hb => List.mem_singleton.mp hb ▸ by decide
  exact IStream.extractInt64_decimal hspace l.2 hrest value

/-- What a turn leaves of the stream. -/
def turnStream (ifs : IStream) : IStream := ((ifs.extractInt64 0).2.extractInt64 0).2

theorem turnStream_eq (ifs : IStream) (v w : ℤ) : ((ifs.extractInt64 v).2.extractInt64 w).2 = turnStream ifs := by
  rw [turnStream, IStream.extractInt64_snd ifs v 0]
  exact IStream.extractInt64_snd _ w 0

theorem turnStream_failed {ifs : IStream} (h : ifs.fail = true) : turnStream ifs = ifs := by
  rw [turnStream, IStream.extractInt64_failed h, IStream.extractInt64_failed h]

theorem turnStream_line (hspace : ∀ b ∈ space, isSpace b = true) (hrest : ∀ b ∈ rest.head?, isDigit b = false)
    (htime : (l.1 : ℤ) ≤ IStream.int64Max) : turnStream (.ofInput (space ++ (lineText l ++ rest))) =
      ⟨rest, rest.isEmpty, decide (IStream.int64Max < l.2)⟩ := by
  rw [turnStream, extract_time hspace l rest, decide_eq_false (not_lt.mpr htime)]
  exact congrArg Prod.snd (extract_rate l hrest 0)

theorem turnStream_time (hspace : ∀ b ∈ space, isSpace b = true) (htime : IStream.int64Max < (l.1 : ℤ)) :
    turnStream (.ofInput (space ++ (lineText l ++ rest))) = ⟨32 :: (decimal l.2 ++ rest), false, true⟩ := by
  rw [turnStream, extract_time hspace l rest, decide_eq_true htime]
  exact congrArg Prod.snd (IStream.extractInt64_failed rfl 0)

end

/-! ## Turns after the last line -/

theorem iterate_failed {ifs : IStream} (h : ifs.fail = true) : ∀ j, turnStream^[j] ifs = ifs
  | 0 => rfl
  | j + 1 => by rw [Function.iterate_succ_apply, turnStream_failed h, iterate_failed h j]

/-- The stream gets to its end too late: there is a newline there, or a number that does not fit
before it. -/
def Late (lines : List (ℕ × ℕ)) (newline : Bool) : Prop :=
  newline = true ∨ (∃ l ∈ lines, IStream.int64Max < (l.1 : ℤ)) ∨ ∃ l ∈ lines.dropLast, IStream.int64Max < (l.2 : ℤ)

theorem Late.cons {l' : ℕ × ℕ} {lines : List (ℕ × ℕ)} {newline : Bool} (h : Late (l' :: lines) newline) (l : ℕ × ℕ) :
    Late (l :: l' :: lines) newline := by
  rcases h with h | ⟨m, hm, hlt⟩ | ⟨m, hm, hlt⟩
  · exact Or.inl h
  · exact Or.inr (Or.inl ⟨m, List.mem_cons_of_mem l hm, hlt⟩)
  · exact Or.inr (Or.inr ⟨m, List.mem_cons_of_mem l hm, hlt⟩)

theorem Late.tail {l l' : ℕ × ℕ} {lines : List (ℕ × ℕ)} {newline : Bool} (h : Late (l :: l' :: lines) newline)
    (htime : (l.1 : ℤ) ≤ IStream.int64Max) (hrate : (l.2 : ℤ) ≤ IStream.int64Max) : Late (l' :: lines) newline := by
  rcases h with h | ⟨m, hm, hlt⟩ | ⟨m, hm, hlt⟩
  · exact Or.inl h
  · refine Or.inr (Or.inl ⟨m, ?_, hlt⟩)
    rcases List.mem_cons.mp hm with rfl | hm
    · exact absurd hlt (not_lt.mpr htime)
    · exact hm
  · refine Or.inr (Or.inr ⟨m, ?_, hlt⟩)
    rcases List.mem_cons.mp hm with rfl | hm
    · exact absurd hlt (not_lt.mpr hrate)
    · exact hm

theorem Late.newline {l : ℕ × ℕ} {newline : Bool} (h : Late [l] newline) (htime : (l.1 : ℤ) ≤ IStream.int64Max) :
    newline = true := by
  rcases h with h | ⟨m, hm, hlt⟩ | ⟨m, hm, _⟩
  · exact h
  · exact absurd (List.mem_singleton.mp hm ▸ hlt) (not_lt.mpr htime)
  · cases hm

theorem Late.eof {newline : Bool} : ∀ {lines : List (ℕ × ℕ)} {l : ℕ × ℕ} {space : Bytes},
    Late (l :: lines) newline → (∀ b ∈ space, isSpace b = true) → ∀ j ≤ lines.length + 1,
      (turnStream^[j] (.ofInput (space ++ (lineText l ++ linesBehind newline lines)))).eof = false
  | _, _, _, _, _, 0, _ => rfl
  | lines, l, space, h, hspace, j + 1, hj => by
    rw [Function.iterate_succ_apply]
    by_cases htime : (l.1 : ℤ) ≤ IStream.int64Max
    · rw [turnStream_line hspace (linesBehind_head newline lines) htime]
      by_cases hrate : (l.2 : ℤ) ≤ IStream.int64Max
      · rw [decide_eq_false (not_lt.mpr hrate)]
        cases lines with
        | nil =>
          obtain rfl := h.newline htime
          obtain rfl : j = 0 := by
            simp at hj
            exact hj
          rfl
        | cons l' lines =>
          have hnewline : ∀ b ∈ ([10] : Bytes), isSpace b = true := fun b hb => List.mem_singleton.mp hb ▸ by decide
          exact Late.eof (h.tail htime hrate) hnewline j (Nat.le_of_succ_le_succ hj)
      · rw [decide_eq_true (not_le.mp hrate), iterate_failed rfl]
        cases lines with
        | nil =>
          obtain rfl := h.newline htime
          rfl
        | cons l' lines => rfl
    · rw [turnStream_time hspace (not_le.mp htime), iterate_failed rfl]

def RateAction.isSetRate : RateAction T → Bool
  | .awaitFor _ => false
  | .setRate _ _ => true

def setRateCount (actions : List (RateAction T)) : ℕ := actions.countP RateAction.isSetRate

theorem setRateCount_append (as bs : List (RateAction T)) :
    setRateCount (as ++ bs) = setRateCount as + setRateCount bs := List.countP_append

theorem setRateCount_await (d : ℤ) (as : List (RateAction T)) : setRateCount (.awaitFor d :: as) = setRateCount as :=
  List.countP_cons_of_neg Bool.false_ne_true

theorem setRateCount_setRates (rate : ℤ) : setRateCount (setRates T rate) = T := by
  have hall : ∀ a ∈ setRates T rate, a.isSetRate = true := fun a ha => by
    obtain ⟨i, _, rfl⟩ := List.mem_map.mp ha
    rfl
  unfold setRateCount
  rw [List.countP_eq_length.mpr hall, setRates, List.length_map, List.length_finRange]

theorem setRateCount_waits {waits : List (RateAction T)} (h : ∀ a ∈ waits, ∃ d, a = .awaitFor d) :
    setRateCount waits = 0 :=
  List.countP_eq_zero.mpr fun a ha => by
    obtain ⟨d, rfl⟩ := h a ha
    exact Bool.false_ne_true

/-- A turn on a stream that is not at its end. -/
theorem rateLimitLoop_turn (fuel : ℕ) {turn : ℕ} {ifs : IStream} (lastTime : ℤ) (heof : ifs.eof = false)
    (hdone : turns.done turn = false) : rateLimitLoop T turns (fuel + 1) turn ifs lastTime =
      (rateLimitLoop T turns fuel (turn + 1) (turnStream ifs) (ifs.extractInt64 (turns.nextTime turn)).1).map
        fun actions => .awaitFor (RateLimiter.int64 ((ifs.extractInt64 (turns.nextTime turn)).1 - lastTime)) ::
          (setRates T ((ifs.extractInt64 (turns.nextTime turn)).2.extractInt64 (turns.nextRate turn)).1 ++
            actions) := by
  rw [rateLimitLoop, heof, if_neg Bool.false_ne_true, hdone]
  dsimp only
  rw [if_neg Bool.false_ne_true, turnStream_eq]

/-- As long as the stream is not at its end and the run is not over, each turn sets all rates. -/
theorem le_setRateCount : ∀ (m fuel turn : ℕ) (ifs : IStream) (lastTime : ℤ) (actions : List (RateAction T)),
    (∀ j < m, (turnStream^[j] ifs).eof = false) → (∀ j < m, turns.done (turn + j) = false) →
    rateLimitLoop T turns fuel turn ifs lastTime = some actions → m * T ≤ setRateCount actions
  | 0, _, _, _, _, _, _, _, _ => by omega
  | _ + 1, 0, _, _, _, _, _, _, h => by cases h
  | m + 1, fuel + 1, turn, ifs, lastTime, actions, heof, hdone, h => by
    have heof' : ifs.eof = false := heof 0 (Nat.succ_pos m)
    have hdone' : turns.done turn = false := hdone 0 (Nat.succ_pos m)
    rw [rateLimitLoop_turn fuel lastTime heof' hdone', Option.map_eq_some_iff] at h
    obtain ⟨rest, hrest, rfl⟩ := h
    have hlater := le_setRateCount m fuel (turn + 1) (turnStream ifs) _ rest
      (fun j hj => heof (j + 1) (Nat.succ_lt_succ hj))
      (fun j hj => by rw [Nat.add_assoc, Nat.add_comm 1 j]; exact hdone (j + 1) (Nat.succ_lt_succ hj)) hrest
    rw [setRateCount_await, setRateCount_append, setRateCount_setRates, Nat.add_mul, Nat.one_mul]
    omega

/-! ## The schedule -/

/-- What a file of these lines asks for: waits from one time to the next, and shares of the rates. -/
def schedule (T : ℕ) : ℤ → List (ℕ × ℕ) → List (RateAction T)
  | _, [] => []
  | lastTime, l :: lines => .awaitFor (l.1 - lastTime) :: (setRates T l.2 ++ schedule T l.1 lines)

theorem setRateCount_schedule : ∀ (lastTime : ℤ) (lines : List (ℕ × ℕ)),
    setRateCount (schedule T lastTime lines) = lines.length * T
  | _, [] => (Nat.zero_mul T).symm
  | lastTime, l :: lines => by
    rw [schedule, setRateCount_await, setRateCount_append, setRateCount_setRates, setRateCount_schedule,
      List.length_cons, Nat.add_mul, Nat.one_mul, Nat.add_comm]

/-- A rate as the stream reads it. -/
def readRate (l : ℕ × ℕ) : ℕ × ℕ := (l.1, min l.2 9223372036854775807)

theorem readRate_snd (l : ℕ × ℕ) : ((readRate l).2 : ℤ) = min (l.2 : ℤ) IStream.int64Max := by
  rw [readRate, Nat.cast_min]
  rfl

theorem int64_sub {x y : ℤ} (hx : 0 ≤ x) (hy : 0 ≤ y) (hx' : x ≤ IStream.int64Max) (hy' : y ≤ IStream.int64Max) :
    RateLimiter.int64 (x - y) = x - y := by
  unfold IStream.int64Max at hx' hy'
  apply RateLimiter.int64_of_mem
  unfold RateLimiter.InInt64
  omega

theorem rateLimitLoop_lines : ∀ (lines : List (ℕ × ℕ)) (l : ℕ × ℕ) (turn : ℕ) (lastTime : ℤ) (space : Bytes),
    ¬ Late (l :: lines) false → (∀ b ∈ space, isSpace b = true) → 0 ≤ lastTime → lastTime ≤ IStream.int64Max →
    (∀ j < lines.length + 1, turns.done (turn + j) = false) →
    rateLimitLoop T turns (lines.length + 2) turn (.ofInput (space ++ (lineText l ++ linesBehind false lines)))
      lastTime = some (schedule T lastTime ((l :: lines).map readRate))
  | lines, l, turn, lastTime, space, hlate, hspace, hlast, hlast', hdone => by
    have htime : (l.1 : ℤ) ≤ IStream.int64Max := by
      by_contra htime
      exact hlate (Or.inr (Or.inl ⟨l, List.mem_cons_self, not_le.mp htime⟩))
    have hhead := linesBehind_head false lines
    have hdone' : turns.done turn = false := hdone 0 (Nat.succ_pos _)
    have hrate := extract_rate l hhead (turns.nextRate turn)
    unfold IStream.ofInput at hrate
    rw [rateLimitLoop_turn _ _ rfl hdone', turnStream_line hspace hhead htime, extract_time hspace l,
      decide_eq_false (not_lt.mpr htime), hrate, min_eq_left htime,
      int64_sub (Int.natCast_nonneg _) hlast htime hlast', ← readRate_snd, List.map_cons, schedule]
    cases lines with
    | nil => rfl
    | cons l' lines =>
      have hfits : (l.2 : ℤ) ≤ IStream.int64Max := by
        by_contra hfits
        exact hlate (Or.inr (Or.inr ⟨l, List.mem_cons_self, not_le.mp hfits⟩))
      have hlate' : ¬ Late (l' :: lines) false := fun h => hlate (h.cons l)
      have hnewline : ∀ b ∈ ([10] : Bytes), isSpace b = true := fun b hb => List.mem_singleton.mp hb ▸ by decide
      have hlater := rateLimitLoop_lines lines l' (turn + 1) l.1 [10] hlate' hnewline (Int.natCast_nonneg _) htime
        fun j hj => by
          rw [Nat.add_assoc, Nat.add_comm 1 j]
          exact hdone (j + 1) (Nat.succ_lt_succ hj)
      rw [decide_eq_false (not_lt.mpr hfits)]
      exact congrArg (Option.map _) hlater

theorem rateLimitLoop_unique : ∀ (fuel fuel' turn : ℕ) (ifs : IStream) (lastTime : ℤ) (as bs : List (RateAction T)),
    rateLimitLoop T turns fuel turn ifs lastTime = some as →
    rateLimitLoop T turns fuel' turn ifs lastTime = some bs → as = bs
  | 0, _, _, _, _, _, _, h, _ => by cases h
  | _ + 1, 0, _, _, _, _, _, _, h => by cases h
  | fuel + 1, fuel' + 1, turn, ifs, lastTime, as, bs, has, hbs => by
    unfold rateLimitLoop at has hbs
    dsimp only at has hbs
    by_cases heof : ifs.eof = true
    · rw [if_pos heof] at has hbs
      exact Option.some.inj (has.symm.trans hbs)
    · rw [if_neg heof] at has hbs
      by_cases hdone : turns.done turn = true
      · rw [if_pos hdone] at has hbs
        exact Option.some.inj (has.symm.trans hbs)
      · rw [if_neg hdone, Option.map_eq_some_iff] at has hbs
        obtain ⟨as', has', rfl⟩ := has
        obtain ⟨bs', hbs', rfl⟩ := hbs
        rw [rateLimitLoop_unique fuel fuel' _ _ _ as' bs' has' hbs']

theorem setRates_inj (hT : 1 ≤ T) {r r' : ℕ} : setRates T r = setRates T r' ↔ r / T = r' / T := by
  rw [← Nat.cast_inj (R := ℤ), Int.ofNat_tdiv, Int.ofNat_tdiv]
  constructor
  · intro h
    have hi := List.map_inj_left.mp h ⟨0, hT⟩ (List.mem_finRange _)
    injection hi
  · intro h
    unfold setRates
    rw [h]

/-- The shares of the rates as read are those asked for. -/
theorem schedule_readRate (hT : 1 ≤ T) : ∀ (lines : List (ℕ × ℕ)) (lastTime : ℤ) (waits : List (RateAction T)),
    schedule T lastTime (lines.map readRate) = schedule T lastTime lines ++ waits →
    ∀ l ∈ lines, min l.2 9223372036854775807 / T = l.2 / T
  | [], _, _, _, l, hl => by cases hl
  | l :: lines, lastTime, waits, h, m, hm => by
    rw [List.map_cons, schedule, schedule, List.cons_append, List.cons.injEq, List.append_assoc] at h
    have hlength : (setRates T (readRate l).2).length = (setRates T l.2).length := by simp [setRates]
    obtain ⟨hrate, hlater⟩ := List.append_inj h.2 hlength
    rcases List.mem_cons.mp hm with rfl | hm
    · exact (setRates_inj hT).mp hrate
    · exact schedule_readRate hT lines l.1 waits hlater m hm

theorem schedule_readRate_eq (hT : 1 ≤ T) : ∀ (lines : List (ℕ × ℕ)) (lastTime : ℤ),
    (∀ l ∈ lines, min l.2 9223372036854775807 / T = l.2 / T) →
    schedule T lastTime (lines.map readRate) = schedule T lastTime lines
  | [], _, _ => rfl
  | l :: lines, lastTime, h => by
    have hrate : setRates T (readRate l).2 = setRates T l.2 := (setRates_inj hT).mpr (h l List.mem_cons_self)
    rw [List.map_cons, schedule, schedule, hrate,
      schedule_readRate_eq hT lines _ fun m hm => h m (List.mem_cons_of_mem l hm)]
    rfl

/-- The unassigned locals hold values of their type. -/
def Turns.InRange (turns : Turns) : Prop :=
  ∀ k, RateLimiter.InInt64 (turns.nextTime k) ∧ RateLimiter.InInt64 (turns.nextRate k)

/-- In a run that outlasts the waits for the times of the lines, the thread sets exactly the rates
of the lines, each after the wait for its time, and stops. -/
def AppliesSchedule (T : ℕ) (file : Bytes) (lines : List (ℕ × ℕ)) : Prop :=
  ∀ turns : Turns, turns.InRange → (∀ k < lines.length, turns.done k = false) →
    ∃ fuel waits, rateLimitThread T turns fuel file = some (schedule T 0 lines ++ waits) ∧
      ∀ a ∈ waits, ∃ d, a = .awaitFor d

/-- Nothing is left in the locals, and the run is over in the turn behind `n`. -/
def endsAfter (n : ℕ) : Turns := ⟨fun _ => 0, fun _ => 0, fun k => decide (n < k)⟩

theorem endsAfter_inRange (n : ℕ) : (endsAfter n).InRange := by
  have hzero : RateLimiter.InInt64 0 := ⟨by decide, by decide⟩
  exact fun _ => ⟨hzero, hzero⟩

theorem endsAfter_done {n k : ℕ} (h : k ≤ n) : (endsAfter n).done k = false := decide_eq_false (not_lt.mpr h)

theorem rateLimitThread_eq {lines : List (ℕ × ℕ)} (hne : lines ≠ []) (hlate : ¬ Late lines false)
    (hdone : ∀ k < lines.length, turns.done k = false) :
    rateLimitThread T turns (lines.length + 1) (rateFile lines false) = some (schedule T 0 (lines.map readRate)) := by
  obtain ⟨l, lines, rfl⟩ := List.exists_cons_of_ne_nil hne
  rw [rateFile_cons]
  apply rateLimitLoop_lines lines l 0 0 [] hlate (List.forall_mem_nil _) (le_refl 0) (by decide)
  intro j hj
  rw [Nat.zero_add]
  exact hdone j hj

theorem late_not_applies (hT : 1 ≤ T) {lines : List (ℕ × ℕ)} (hne : lines ≠ []) {newline : Bool}
    (hlate : Late lines newline) : ¬ AppliesSchedule T (rateFile lines newline) lines := by
  intro happlies
  obtain ⟨fuel, waits, hrun, hwaits⟩ := happlies (endsAfter lines.length) (endsAfter_inRange _)
    fun k hk => endsAfter_done (le_of_lt hk)
  obtain ⟨l, lines, rfl⟩ := List.exists_cons_of_ne_nil hne
  rw [rateFile_cons] at hrun
  have hspace : ∀ b ∈ ([] : Bytes), isSpace b = true := List.forall_mem_nil _
  -- one turn more than there are lines
  have hcount := le_setRateCount (lines.length + 2) fuel 0 _ 0 _
    (fun j hj => hlate.eof hspace j (Nat.le_of_lt_succ hj))
    (fun j hj => endsAfter_done (by rw [Nat.zero_add]; exact Nat.le_of_lt_succ hj)) hrun
  rw [setRateCount_append, setRateCount_schedule, setRateCount_waits hwaits, List.length_cons] at hcount
  have hle := Nat.le_of_mul_le_mul_right hcount hT
  omega

theorem int64Max_lt_iff (n : ℕ) : ¬ IStream.int64Max < (n : ℤ) ↔ n < 2 ^ 63 := by
  unfold IStream.int64Max
  omega

theorem not_late_iff {lines : List (ℕ × ℕ)} {newline : Bool} : ¬ Late lines newline ↔
    newline = false ∧ (∀ l ∈ lines, l.1 < 2 ^ 63) ∧ ∀ l ∈ lines.dropLast, l.2 < 2 ^ 63 := by
  unfold Late
  rw [not_or, not_or, Bool.not_eq_true]
  simp only [not_exists, not_and, int64Max_lt_iff]

/-- A rate that fits is read as it is. -/
theorem forall_share_iff {lines : List (ℕ × ℕ)} (hfits : ∀ l ∈ lines.dropLast, l.2 < 2 ^ 63) :
    (∀ l ∈ lines, min l.2 9223372036854775807 / T = l.2 / T) ↔
      ∀ l ∈ lines.getLast?, min l.2 (2 ^ 63 - 1) / T = l.2 / T := by
  constructor
  · intro h l hl
    exact h l (List.mem_of_getLast? hl)
  · intro h l hl
    by_cases hdrop : l ∈ lines.dropLast
    · rw [min_eq_left (Nat.le_of_lt_succ (hfits l hdrop))]
    · obtain ⟨m, hm⟩ := Option.isSome_iff_exists.mp (List.getLast?_isSome.mpr (List.ne_nil_of_mem hl))
      rw [← List.dropLast_append_getLast? m hm, List.mem_append] at hl
      rcases hl with hl | hl
      · exact absurd hl hdrop
      · rw [List.mem_singleton.mp hl]
        exact h m hm

/-- **The thread applies the schedule of a file exactly when** no newline follows the last line and
every number fits, or the last rate does not and its share is that of the greatest that does. -/
theorem appliesSchedule_iff (hT : 1 ≤ T) (lines : List (ℕ × ℕ)) (hne : lines ≠ []) (newline : Bool) :
    AppliesSchedule T (rateFile lines newline) lines ↔
      newline = false ∧ (∀ l ∈ lines, l.1 < 2 ^ 63) ∧ (∀ l ∈ lines.dropLast, l.2 < 2 ^ 63) ∧
        ∀ l ∈ lines.getLast?, min l.2 (2 ^ 63 - 1) / T = l.2 / T := by
  constructor
  · intro happlies
    have hlate : ¬ Late lines newline := fun hlate => late_not_applies hT hne hlate happlies
    obtain ⟨rfl, htimes, hrates⟩ := not_late_iff.mp hlate
    have hdone : ∀ k < lines.length, (endsAfter lines.length).done k = false := fun k hk => endsAfter_done (le_of_lt hk)
    obtain ⟨fuel, waits, hrun, _⟩ := happlies _ (endsAfter_inRange _) hdone
    have hread := rateLimitThread_eq (T := T) hne hlate hdone
    have hsame := rateLimitLoop_unique _ _ _ _ _ _ _ hread hrun
    exact ⟨rfl, htimes, hrates, (forall_share_iff hrates).mp (schedule_readRate hT lines 0 waits hsame)⟩
  · intro h turns _ hdone
    obtain ⟨rfl, htimes, hrates, hlast⟩ := h
    have hlate : ¬ Late lines false := not_late_iff.mpr ⟨rfl, htimes, hrates⟩
    refine ⟨lines.length + 1, [], ?_, List.forall_mem_nil _⟩
    rw [rateLimitThread_eq hne hlate hdone, List.append_nil,
      schedule_readRate_eq hT lines 0 ((forall_share_iff hrates).mpr hlast)]

theorem appliesSchedule_two_lines :
    AppliesSchedule 4 (rateFile [(10, 1000), (25, 400)] false) [(10, 1000), (25, 400)] :=
  (appliesSchedule_iff (by decide) _ (List.cons_ne_nil _ _) false).mpr
    ⟨rfl, by decide, by decide, fun l hl => Option.some.inj hl ▸ rfl⟩

/-- A file of one line, `1 100`, that ends in a newline, and a negative number in the local for the
rate: the second turn sets it. -/
theorem sets_unassigned_rate : rateFile [(1, 100)] true = [49, 32, 49, 48, 48, 10] ∧
    rateLimitThread 1 ⟨fun _ => 0, fun _ => -1, fun k => decide (1 < k)⟩ 3 [49, 32, 49, 48, 48, 10] =
      some [.awaitFor 1, .setRate 0 100, .awaitFor (-1), .setRate 0 (-1)] ∧
    ¬ AppliesSchedule 1 (rateFile [(1, 100)] true) [(1, 100)] := by
  refine ⟨?_, by decide +kernel, late_not_applies (le_refl 1) (List.cons_ne_nil _ _) (Or.inl rfl)⟩
  simp [rateFile, lineText, decimal, digitByte]

end Ycsb
