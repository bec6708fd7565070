import Ycsb.Properties

/-!
# When the command line overrides the property files

A property has the last value that any option gives it. A property file that
stands behind a `-p` counts as much as one before it.
-/

namespace Ycsb

open Lib OrdMap

/-! ## Options -/

inductive Opt where
  | flag (key value : Bytes)
  | file (input : Bytes)
  | prop (key value : Bytes)

/-- The arguments are these options, one after the other, with files that open. -/
inductive Options (files : Bytes → Option Bytes) : List Bytes → List Opt → Prop where
  | nil : Options files [] []
  | load {rest opts} : Options files rest opts →
      Options files (ascii "-load" :: rest) (.flag (ascii "doload") (ascii "true") :: opts)
  | run {arg rest opts} : arg = ascii "-run" ∨ arg = ascii "-t" → Options files rest opts →
      Options files (arg :: rest) (.flag (ascii "dotransaction") (ascii "true") :: opts)
  | threads {value rest opts} : Options files rest opts →
      Options files (ascii "-threads" :: value :: rest) (.flag (ascii "threadcount") value :: opts)
  | db {value rest opts} : Options files rest opts →
      Options files (ascii "-db" :: value :: rest) (.flag (ascii "dbname") value :: opts)
  | status {rest opts} : Options files rest opts →
      Options files (ascii "-s" :: rest) (.flag (ascii "status") (ascii "true") :: opts)
  | file {filename input rest opts} : files filename = some input → Options files rest opts →
      Options files (ascii "-P" :: filename :: rest) (.file input :: opts)
  | prop {arg key value rest opts} : splitAssignment arg = some (key, value) → Options files rest opts →
      Options files (ascii "-p" :: arg :: rest) (.prop key value :: opts)

/-- The lines of a file that define a property. -/
def definitions (input : Bytes) : List (Bytes × Bytes) := (Properties.lines [] input).filterMap Properties.parseLine

def Opt.writes : Opt → List (Bytes × Bytes)
  | .flag key value | .prop key value => [(key, value)]
  | .file input => definitions input

theorem load_eq (input : Bytes) (props : Properties) :
    Properties.load input props = putAll (definitions input) props := by
  unfold Properties.load definitions
  generalize Properties.lines [] input = lines
  induction lines generalizing props with
  | nil => rfl
  | cons line lines ih =>
    rw [List.foldl_cons, ih, List.filterMap_cons]
    cases Properties.parseLine line <;> rfl

/-! ## The loop -/

theorem parseArgs_of_options {files : Bytes → Option Bytes} {args : List Bytes} {opts : List Opt}
    (h : Options files args opts) (props : Properties) :
    parseArgs files args props = .ok (putAll (opts.flatMap Opt.writes) props, []) := by
  induction h generalizing props with
  | nil => rfl
  | load h ih =>
    unfold parseArgs
    rw [if_pos (by decide), if_pos rfl, ih]
    rfl
  | run harg h ih =>
    rcases harg with rfl | rfl
    · unfold parseArgs
      rw [if_pos (by decide), if_neg (by decide), if_pos (by decide), ih]
      rfl
    · unfold parseArgs
      rw [if_pos (by decide), if_neg (by decide), if_pos (by decide), ih]
      rfl
  | threads h ih => exact ih _
  | db h ih => exact ih _
  | status h ih =>
    unfold parseArgs
    rw [if_pos (by decide), if_neg (by decide), if_neg (by decide), if_neg (by decide), if_neg (by decide),
      if_neg (by decide), if_neg (by decide), if_pos rfl, ih]
    rfl
  | file hfile h ih =>
    rw [parseArgs, if_pos (by decide), if_neg (by decide), if_neg (by decide), if_neg (by decide), if_neg (by decide),
      if_pos rfl]
    simp only [hfile, ih, load_eq, List.flatMap_cons, putAll_append]
    rfl
  | prop hprop h ih =>
    rw [parseArgs, if_pos (by decide), if_neg (by decide), if_neg (by decide), if_neg (by decide), if_neg (by decide),
      if_neg (by decide), if_pos rfl]
    simp only [hprop, ih, List.flatMap_cons, putAll_append]
    rfl

theorem options_of_parseArgs {files : Bytes → Option Bytes} {args : List Bytes} {props props' : Properties}
    (h : parseArgs files args props = .ok (props', [])) : ∃ opts, Options files args opts := by
  fun_induction parseArgs files args props with
  | case1 => exact ⟨[], .nil⟩
  | case2 rest props _ ih =>
    obtain ⟨opts, hopts⟩ := ih h
    exact ⟨_, .load hopts⟩
  | case3 arg rest props _ _ harg ih =>
    obtain ⟨opts, hopts⟩ := ih h
    exact ⟨_, .run harg hopts⟩
  | case5 props value rest _ _ _ ih =>
    obtain ⟨opts, hopts⟩ := ih h
    exact ⟨_, .threads hopts⟩
  | case7 props value rest _ _ _ _ ih =>
    obtain ⟨opts, hopts⟩ := ih h
    exact ⟨_, .db hopts⟩
  | case10 props filename rest input hfile _ _ _ _ _ ih =>
    obtain ⟨opts, hopts⟩ := ih h
    exact ⟨_, .file hfile hopts⟩
  | case13 props arg rest key value hprop _ _ _ _ _ _ ih =>
    obtain ⟨opts, hopts⟩ := ih h
    exact ⟨_, .prop hprop hopts⟩
  | case14 rest props _ _ _ _ _ _ _ ih =>
    obtain ⟨opts, hopts⟩ := ih h
    exact ⟨_, .status hopts⟩
  | _ => simp at h

/-! ## Values -/

def dedicated : List Bytes :=
  [ascii "doload", ascii "dotransaction", ascii "threadcount", ascii "dbname", ascii "status"]

def Opt.assigned : Opt → List (Bytes × Bytes)
  | .prop key value => [(key, value)]
  | _ => []

def Opt.defined : Opt → List (Bytes × Bytes)
  | .file input => definitions input
  | _ => []

def Opt.Dedicated : Opt → Prop
  | .flag key _ => key ∈ dedicated
  | _ => True

theorem Options.dedicated {files : Bytes → Option Bytes} {args : List Bytes} {opts : List Opt}
    (h : Options files args opts) : ∀ opt ∈ opts, opt.Dedicated := by
  induction h with
  | nil => exact fun opt hopt => absurd hopt List.not_mem_nil
  | file _ _ ih | prop _ _ ih => exact List.forall_mem_cons.mpr ⟨trivial, ih⟩
  | run _ _ ih => exact List.forall_mem_cons.mpr ⟨by simp [Opt.Dedicated, Ycsb.dedicated], ih⟩
  | _ _ ih => exact List.forall_mem_cons.mpr ⟨by simp [Opt.Dedicated, Ycsb.dedicated], ih⟩

section
variable {k v : Bytes} {opts : List Opt}

theorem lastValue_cons (f : Opt → List (Bytes × Bytes)) (opt : Opt) (opts : List Opt) :
    lastValue k ((opt :: opts).flatMap f) = (lastValue k (opts.flatMap f)).or (lastValue k (f opt)) := by
  rw [List.flatMap_cons, lastValue_append]

theorem lastValue_unassigned (hk : k ∉ dedicated) (hopts : ∀ opt ∈ opts, opt.Dedicated)
    (h : lastValue k (opts.flatMap Opt.assigned) = none) :
    lastValue k (opts.flatMap Opt.writes) = lastValue k (opts.flatMap Opt.defined) := by
  induction opts with
  | nil => rfl
  | cons opt opts ih =>
    obtain ⟨hopt, hopts⟩ := List.forall_mem_cons.mp hopts
    rw [lastValue_cons, Option.or_eq_none_iff] at h
    rw [lastValue_cons, lastValue_cons, ih hopts h.1]
    congr 1
    cases opt with
    | flag key value =>
      rw [Opt.writes, lastValue_singleton, if_neg]
      · rfl
      · rintro rfl
        exact hk hopt
    | file input => rfl
    | prop key value => exact h.2

theorem exists_last_prop (h : lastValue k (opts.flatMap Opt.assigned) = some v) :
    ∃ pre post, opts = pre ++ .prop k v :: post ∧ lastValue k (post.flatMap Opt.assigned) = none := by
  induction opts with
  | nil => cases h
  | cons opt opts ih =>
    rw [lastValue_cons] at h
    cases hrest : lastValue k (opts.flatMap Opt.assigned) with
    | some v' =>
      rw [hrest, Option.some_or, Option.some.injEq] at h
      subst h
      obtain ⟨pre, post, rfl, hpost⟩ := ih hrest
      exact ⟨opt :: pre, post, rfl, hpost⟩
    | none =>
      rw [hrest, Option.none_or] at h
      cases opt with
      | prop key value =>
        rw [Opt.assigned, lastValue_singleton] at h
        by_cases hkey : k = key
        · rw [if_pos hkey, Option.some.injEq] at h
          exact ⟨[], opts, by rw [hkey, ← h]; rfl, hrest⟩
        · rw [if_neg hkey] at h
          cases h
      | _ => cases h

theorem lastValue_prop {pre post : List Opt} (hk : k ∉ dedicated) (hopts : ∀ opt ∈ post, opt.Dedicated)
    (hpost : lastValue k (post.flatMap Opt.assigned) = none) :
    lastValue k ((pre ++ .prop k v :: post).flatMap Opt.writes) =
      (lastValue k (post.flatMap Opt.defined)).or (some v) := by
  have hself : lastValue k (Opt.writes (.prop k v)) = some v := (lastValue_singleton ..).trans (if_pos rfl)
  rw [List.flatMap_append, lastValue_append, lastValue_cons, lastValue_unassigned hk hopts hpost, hself, Option.or_assoc,
    Option.some_or]

end

/-! ## Overriding -/

/-- A property that a `-p` names has the value of the last of them, and any other
the one that the files give it last. -/
structure Overrides (opts : List Opt) (props : Properties) : Prop where
  assigned : ∀ k ∉ dedicated, ∀ v, lastValue k (opts.flatMap Opt.assigned) = some v → props.get k = some v
  defined : ∀ k ∉ dedicated, lastValue k (opts.flatMap Opt.assigned) = none →
    props.get k = lastValue k (opts.flatMap Opt.defined)

/-- The files behind the last `-p` of a property do not give it another value. -/
def FilesAgree (opts : List Opt) : Prop :=
  ∀ pre k v post, opts = pre ++ .prop k v :: post → k ∉ dedicated → lastValue k (post.flatMap Opt.assigned) = none →
    ∀ v', lastValue k (post.flatMap Opt.defined) = some v' → v' = v

theorem overrides_iff {opts : List Opt} (hopts : ∀ opt ∈ opts, opt.Dedicated) :
    Overrides opts (putAll (opts.flatMap Opt.writes) empty) ↔ FilesAgree opts := by
  have hget : ∀ k, (putAll (opts.flatMap Opt.writes) empty).get k = lastValue k (opts.flatMap Opt.writes) := fun k => by
    rw [get_putAll_eq]
    exact Option.or_none
  constructor
  · intro hover pre k v post hsplit hk hpost v' hv'
    subst hsplit
    have hlast : lastValue k ((pre ++ .prop k v :: post).flatMap Opt.assigned) = some v := by
      have hself : lastValue k (Opt.assigned (.prop k v)) = some v := (lastValue_singleton ..).trans (if_pos rfl)
      rw [List.flatMap_append, lastValue_append, lastValue_cons, hpost, Option.none_or, hself, Option.some_or]
    have hvalue := hover.assigned k hk v hlast
    rw [hget, lastValue_prop hk (fun opt hopt => hopts opt (by simp [hopt])) hpost, hv', Option.some_or,
      Option.some.injEq] at hvalue
    exact hvalue
  · intro hagree
    refine ⟨fun k hk v hlast => ?_, fun k hk hlast => ?_⟩
    · obtain ⟨pre, post, rfl, hpost⟩ := exists_last_prop hlast
      rw [hget, lastValue_prop hk (fun opt hopt => hopts opt (by simp [hopt])) hpost]
      cases hv' : lastValue k (post.flatMap Opt.defined) with
      | none => rfl
      | some v' => rw [hagree pre k v post rfl hk hpost v' hv', Option.some_or]
    · rw [hget, lastValue_unassigned hk hopts hlast]

theorem parseCommandLine_ok {files : Bytes → Option Bytes} {args : List Bytes} {props : Properties}
    (h : parseCommandLine files args empty = .ok props) :
    (∃ opts, Options files args opts) ∧
      ∀ opts, Options files args opts → props = putAll (opts.flatMap Opt.writes) empty := by
  unfold parseCommandLine at h
  cases hparse : parseArgs files args empty with
  | error e =>
    rw [hparse] at h
    cases h
  | ok r =>
    obtain ⟨props', rest⟩ := r
    simp only [hparse, bind, Except.bind] at h
    by_cases hrest : args = rest ∨ rest ≠ []
    · rw [if_pos hrest] at h
      cases h
    · rw [if_neg hrest] at h
      have hnil : rest = [] := not_not.mp fun hne => hrest (Or.inr hne)
      subst hnil
      refine ⟨options_of_parseArgs hparse, fun opts hopts => ?_⟩
      rw [parseArgs_of_options hopts empty] at hparse
      cases hparse
      cases h
      rfl

/-- **The command line overrides the property files exactly** if no file behind the
last `-p` of a property gives it another value. -/
theorem override_iff {files : Bytes → Option Bytes} {args : List Bytes} {props : Properties}
    (h : parseCommandLine files args empty = .ok props) :
    (∃ opts, Options files args opts) ∧
      ∀ opts, Options files args opts → (Overrides opts props ↔ FilesAgree opts) := by
  obtain ⟨hex, hprops⟩ := parseCommandLine_ok h
  refine ⟨hex, fun opts hopts => ?_⟩
  rw [hprops opts hopts]
  exact overrides_iff hopts.dedicated

/-- `-P f -p a=1` with `a=2` in the file: `a` is 1. -/
theorem override_iff_file_first : ∃ props opts, parseCommandLine (fun _ => some (ascii "a=2"))
      [ascii "-P", ascii "f", ascii "-p", ascii "a=1"] empty = .ok props ∧
    Options (fun _ => some (ascii "a=2")) [ascii "-P", ascii "f", ascii "-p", ascii "a=1"] opts ∧
    Overrides opts props := by
  have hopts : Options (fun _ => some (ascii "a=2")) [ascii "-P", ascii "f", ascii "-p", ascii "a=1"]
      [.file (ascii "a=2"), .prop (ascii "a") (ascii "1")] := .file rfl (.prop rfl .nil)
  refine ⟨_, _, rfl, hopts, ((override_iff rfl).2 _ hopts).mpr ?_⟩
  intro pre k v post hsplit _ _ v' hv'
  -- nothing stands behind the last option
  obtain rfl : post = [] := by
    rcases pre with _ | ⟨_, _ | _⟩ <;> simp at hsplit
    exact hsplit.2.2
  cases hv'

/-- `-p a=1 -P f` with `a=2` in the file: `a` is 2. -/
theorem file_overrides_prop : ∃ props opts, parseCommandLine (fun _ => some (ascii "a=2"))
      [ascii "-p", ascii "a=1", ascii "-P", ascii "f"] empty = .ok props ∧
    Options (fun _ => some (ascii "a=2")) [ascii "-p", ascii "a=1", ascii "-P", ascii "f"] opts ∧
    ¬ Overrides opts props := by
  refine ⟨_, _, rfl, .prop rfl (.file rfl .nil), fun hover => ?_⟩
  have ha := hover.assigned (ascii "a") (by decide) (ascii "1") rfl
  exact absurd ha (by decide)

end Ycsb
