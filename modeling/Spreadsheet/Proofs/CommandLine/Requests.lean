import Mathlib.Data.List.Forall2
import Spreadsheet.CommandLine.Options

/-!
# Requests on a command line

A command line is a sequence of groups: an option with the value behind it, or a flag alone. Each
group is a request, and the options are what the requests add up to from left to right. So options
are read back from every command line that writes each part of them once, in any order that keeps
the assignments in theirs. A value is never taken for an option, since the option in front of it
takes it as it is.
-/

namespace Spreadsheet.CommandLine

/-- What an option asks for, help apart. -/
inductive Request where
  | assign (name text : String)
  | command (formula : String)
  | rows (n : Nat)
  | columns (n : Nat)
  | config (path : String)
  | noConfig
  | verbose
  deriving DecidableEq, Repr

/-- A value writes a count: digits, perhaps behind a plus sign. -/
def WritesCount (value : String) (n : Nat) : Prop :=
  ∃ digits, (value.toList = digits ∨ value.toList = '+' :: digits) ∧ digits ≠ [] ∧
    digits.all Char.isDigit = true ∧ Nat.ofDigitChars 10 digits 0 = n

namespace Request

/-- The arguments of a request, with a short or a long spelling of its option. -/
inductive Written : Request → List String → Prop where
  | assign {option : String} (name text : String) (h : option ∈ ["-s", "--set"]) :
    Written (.assign name text) [option, name ++ "=" ++ text]
  | command {option : String} (formula : String) (h : option ∈ ["-c", "--command"]) :
    Written (.command formula) [option, formula]
  | rows {value : String} {n : Nat} (h : WritesCount value n) : Written (.rows n) ["--rows", value]
  | columns {value : String} {n : Nat} (h : WritesCount value n) :
    Written (.columns n) ["--cols", value]
  | config (path : String) : Written (.config path) ["--config", path]
  | noConfig : Written .noConfig ["--no-config"]
  | verbose {option : String} (h : option ∈ ["-v", "--verbose"]) : Written .verbose [option]

/-- A request whose arguments give it back: the name in an assignment is trimmed and contains no
equals sign, and counts are words of sixty-four bits. -/
def Readable : Request → Prop
  | .assign name _ => Text.trim name.toList = name.toList ∧ '=' ∉ name.toList
  | .rows n => n < UInt64.size
  | .columns n => n < UInt64.size
  | _ => True

instance : DecidablePred Readable
  | .assign name _ =>
    inferInstanceAs (Decidable (Text.trim name.toList = name.toList ∧ '=' ∉ name.toList))
  | .rows n => inferInstanceAs (Decidable (n < UInt64.size))
  | .columns n => inferInstanceAs (Decidable (n < UInt64.size))
  | .command _ | .config _ | .noConfig | .verbose => inferInstanceAs (Decidable True)

/-- The options after one more request. An assignment is added, other values are replaced. -/
def grant (o : Options) : Request → Options
  | .assign name text => { o with assignments := o.assignments ++ [(name, text)] }
  | .command formula => { o with command := some formula }
  | .rows n => { o with rows := some n }
  | .columns n => { o with columns := some n }
  | .config path => { o with config := some path }
  | .noConfig => { o with noConfig := true }
  | .verbose => { o with verbose := true }

/-- The assignment that is requested. -/
def assignment? : Request → Option (String × String)
  | .assign name text => some (name, text)
  | _ => none

/-- The command that is requested. -/
def command? : Request → Option String
  | .command formula => some formula
  | _ => none

/-- The number of rows that is requested. -/
def rows? : Request → Option Nat
  | .rows n => some n
  | _ => none

/-- The number of columns that is requested. -/
def columns? : Request → Option Nat
  | .columns n => some n
  | _ => none

/-- The settings file that is requested. -/
def config? : Request → Option String
  | .config path => some path
  | _ => none

end Request

/-- Every part of the options as a request. -/
def Options.requests (o : Options) : List Request :=
  o.assignments.map (fun a => .assign a.1 a.2) ++ o.command.toList.map .command ++
    o.rows.toList.map .rows ++ o.columns.toList.map .columns ++ o.config.toList.map .config ++
    List.replicate o.noConfig.toNat .noConfig ++ List.replicate o.verbose.toNat .verbose

variable {o o' : Options} {r : Request} {requests : List Request} {argument value : String}
  {group before args rest : List String}

/-- No two options share a spelling. -/
theorem spelling_unique : ∀ f ∈ Flag.all, ∀ f' ∈ Flag.all, ∀ s ∈ f.spellings,
    s ∈ f'.spellings → f = f' := by decide

theorem mem_all (f : Flag) : f ∈ Flag.all := by
  cases f with
  | valued v => cases v <;> decide
  | help | noConfig | verbose => decide

/-- No two options share a spelling. -/
theorem ofArgument?_eq_some_iff {f : Flag} :
    Flag.ofArgument? argument = some f ↔ argument ∈ f.spellings := by
  constructor
  · intro h
    simpa using List.find?_some h
  · intro h
    cases hfound : Flag.ofArgument? argument with
    | none =>
      have hnone := List.find?_eq_none.mp hfound f (mem_all f)
      simp [h] at hnone
    | some f' =>
      have hspelt : argument ∈ f'.spellings := by simpa using List.find?_some hfound
      rw [spelling_unique f' (mem_all _) f (mem_all _) argument hspelt h]

/-- A count is read from every value that writes it. -/
theorem count?_eq {n : Nat} (h : WritesCount value n) (hn : n < UInt64.size) :
    count? value = some n := by
  obtain ⟨digits, hvalue, hne, hdigits, rfl⟩ := h
  obtain ⟨c, digits, rfl⟩ := List.exists_cons_of_ne_nil hne
  have hc : c ≠ '+' := by
    rintro rfl
    exact absurd (List.all_eq_true.mp hdigits '+' List.mem_cons_self) (by decide)
  rcases hvalue with hvalue | hvalue
  · simp only [count?, hvalue]
    split
    · rename_i heq
      exact absurd (List.cons.inj heq).1 hc
    · rw [if_pos ⟨hne, hdigits, hn⟩]
  · simp only [count?, hvalue]
    rw [if_pos ⟨hne, hdigits, hn⟩]

/-- An assignment is divided at the first equals sign, so its text may contain more of them. -/
theorem assignment?_eq {name text : String} (htrim : Text.trim name.toList = name.toList)
    (hname : '=' ∉ name.toList) : assignment? (name ++ "=" ++ text) = some (name, text) := by
  have hbefore : ∀ c ∈ name.toList, decide (c ≠ '=') = true := by
    intro c hc
    simp only [ne_eq, decide_not, Bool.not_eq_true', decide_eq_false_iff_not]
    rintro rfl
    exact hname hc
  have htext : (name ++ "=" ++ text).toList = name.toList ++ '=' :: text.toList := by simp
  rw [assignment?, htext, List.dropWhile_append_of_pos hbefore,
    List.takeWhile_append_of_pos hbefore]
  simp [htrim]

/-- An option takes its value, whatever that looks like. -/
theorem readFrom_pair {v : Valued} (h : argument ∈ (Flag.valued v).spellings) :
    o.readFrom (argument :: value :: rest) =
      (o.withValue v value).bind fun o' => o'.readFrom rest := by
  rw [Options.readFrom, ofArgument?_eq_some_iff.mpr h]
  simp only
  cases o.withValue v value <;> rfl

/-- An option with a value takes the argument behind it. -/
theorem readFrom_valued {v : Valued} (h : argument ∈ (Flag.valued v).spellings)
    (hvalue : o.withValue v value = .ok o') :
    o.readFrom (argument :: value :: rest) = o'.readFrom rest := by
  rw [readFrom_pair h, hvalue]
  rfl

/-- The arguments of a request are read, and then those behind them. -/
theorem readFrom_written (h : r.Written group) (hr : r.Readable) :
    o.readFrom (group ++ rest) = (r.grant o).readFrom rest := by
  cases h with
  | @assign option name text h =>
    refine readFrom_valued (v := .set) (List.mem_reverse.mp h) ?_
    rw [Options.withValue, assignment?_eq hr.1 hr.2]
    rfl
  | @command option formula h =>
    exact readFrom_valued (v := .command) (List.mem_reverse.mp h) rfl
  | @rows value n h =>
    refine readFrom_valued (v := .rows) List.mem_cons_self ?_
    rw [Options.withValue, count?_eq h hr]
    rfl
  | @columns value n h =>
    refine readFrom_valued (v := .columns) List.mem_cons_self ?_
    rw [Options.withValue, count?_eq h hr]
    rfl
  | config path => exact readFrom_valued (v := .config) List.mem_cons_self rfl
  | noConfig =>
    rw [List.singleton_append, Options.readFrom,
      (ofArgument?_eq_some_iff (f := .noConfig)).mpr List.mem_cons_self]
    rfl
  | @verbose option h =>
    rw [List.singleton_append, Options.readFrom,
      (ofArgument?_eq_some_iff (f := .verbose)).mpr (List.mem_reverse.mp h)]
    rfl

/-- A command line of requests is read as what they add up to. -/
theorem readFrom_requests {groups : List (List String)}
    (h : List.Forall₂ Request.Written requests groups) (hr : ∀ r ∈ requests, r.Readable) :
    o.readFrom groups.flatten = .ok (some (requests.foldl Request.grant o)) := by
  induction h generalizing o with
  | nil => rw [List.flatten_nil, Options.readFrom]; rfl
  | cons hgroup _ ih =>
    obtain ⟨hfirst, hothers⟩ := List.forall_mem_cons.mp hr
    rw [List.flatten_cons, readFrom_written hgroup hfirst, ih hothers]
    rfl

/-- A field that takes the value of each request for it has the last of them. -/
theorem foldl_grant {α : Type} (field : Options → Option α) (wanted : Request → Option α)
    (h : ∀ r o, field (r.grant o) = (wanted r).or (field o)) (requests : List Request)
    (o : Options) :
    field (requests.foldl Request.grant o) = (requests.filterMap wanted).getLast?.or (field o) := by
  induction requests generalizing o with
  | nil => rfl
  | cons r requests ih =>
    rw [List.foldl_cons, ih, h, List.filterMap_cons]
    cases hr : wanted r with
    | none => rfl
    | some value =>
      rw [Option.some_or, List.getLast?_cons]
      cases (requests.filterMap wanted).getLast? <;> rfl

/-- Requests add their assignments in order. -/
theorem assignments_foldl (requests : List Request) (o : Options) :
    (requests.foldl Request.grant o).assignments =
      o.assignments ++ requests.filterMap Request.assignment? := by
  induction requests generalizing o with
  | nil => simp
  | cons r requests ih =>
    rw [List.foldl_cons, ih, List.filterMap_cons]
    cases r <;> simp [Request.grant, Request.assignment?]

/-- A flag is set if it was or if there is a request for it. -/
theorem foldl_grant_flag (field : Options → Bool) (flag : Request)
    (h : ∀ r o, field (r.grant o) = (field o || r == flag)) (requests : List Request)
    (o : Options) :
    field (requests.foldl Request.grant o) = (field o || requests.contains flag) := by
  induction requests generalizing o with
  | nil => simp
  | cons r requests ih =>
    rw [List.foldl_cons, ih, h, List.contains_cons, Bool.or_assoc, BEq.comm]

theorem getLast?_of_perm {α : Type} {found : List α} {value : Option α}
    (h : found.Perm value.toList) : found.getLast? = value := by
  cases value with
  | none => rw [List.perm_nil.mp h]; rfl
  | some x => rw [List.perm_singleton.mp h]; rfl

attribute [ext] Options

/-- A field of options whose parts are each requested once. -/
theorem foldl_grant_of_perm {α : Type} (field : Options → Option α) (wanted : Request → Option α)
    (h : ∀ r o, field (r.grant o) = (wanted r).or (field o)) (hempty : field .empty = none)
    (hwanted : o.requests.filterMap wanted = (field o).toList) (hperm : requests.Perm o.requests) :
    field (requests.foldl Request.grant .empty) = field o := by
  have hfound : (requests.filterMap wanted).getLast? = field o :=
    getLast?_of_perm (hwanted ▸ hperm.filterMap wanted)
  rw [foldl_grant field wanted h, hfound, hempty, Option.or_none]

/-- After the requests for some options, in any order, a field that one request sets is as it is in
the options. -/
theorem foldl_grant_flag_of_perm (field : Options → Bool) (flag : Request)
    (h : ∀ r o, field (r.grant o) = (field o || r == flag)) (hempty : field .empty = false)
    (hwanted : flag ∈ o.requests ↔ field o = true) (hperm : requests.Perm o.requests) :
    field (requests.foldl Request.grant .empty) = field o := by
  rw [foldl_grant_flag field flag h, hempty, Bool.false_or, Bool.eq_iff_iff, List.contains_iff_mem,
    hperm.mem_iff, hwanted]

/-- The parts of options, each requested once and the assignments in order, add up to them. -/
theorem foldl_of_perm (hperm : requests.Perm o.requests)
    (horder : requests.filterMap Request.assignment? = o.assignments) :
    requests.foldl Request.grant .empty = o := by
  ext1
  case assignments =>
    rw [assignments_foldl, horder]
    rfl
  case command =>
    refine foldl_grant_of_perm Options.command Request.command? ?_ rfl ?_ hperm
    · rintro (_ | _) _ <;> rfl
    · simp [Options.requests, Function.comp_def, Request.command?]
  case rows =>
    refine foldl_grant_of_perm Options.rows Request.rows? ?_ rfl ?_ hperm
    · rintro (_ | _) _ <;> rfl
    · simp [Options.requests, Function.comp_def, Request.rows?]
  case columns =>
    refine foldl_grant_of_perm Options.columns Request.columns? ?_ rfl ?_ hperm
    · rintro (_ | _) _ <;> rfl
    · simp [Options.requests, Function.comp_def, Request.columns?]
  case config =>
    refine foldl_grant_of_perm Options.config Request.config? ?_ rfl ?_ hperm
    · rintro (_ | _) _ <;> rfl
    · simp [Options.requests, Function.comp_def, Request.config?]
  case noConfig =>
    refine foldl_grant_flag_of_perm Options.noConfig .noConfig ?_ rfl ?_ hperm
    · rintro (_ | _) _ <;> simp [Request.grant]
    · simp [Options.requests]
  case verbose =>
    refine foldl_grant_flag_of_perm Options.verbose .verbose ?_ rfl ?_ hperm
    · rintro (_ | _) _ <;> simp [Request.grant]
    · simp [Options.requests]

/-- An argument is an option with a value, which is the argument after it. -/
def TakesValue (argument : String) : Prop :=
  argument ∈ ["-s", "--set", "-c", "--command", "--rows", "--cols", "--config"]

instance : DecidablePred TakesValue := fun argument => inferInstanceAs (Decidable (argument ∈ _))

/-- The place behind some arguments is one of an option: no option there waits for its value. -/
inductive EndsAtOption : List String → Prop where
  | nil : EndsAtOption []
  | alone {argument : String} {rest : List String} (h : ¬TakesValue argument)
    (hrest : EndsAtOption rest) : EndsAtOption (argument :: rest)
  | pair {argument : String} {rest : List String} (h : TakesValue argument) (value : String)
    (hrest : EndsAtOption rest) : EndsAtOption (argument :: value :: rest)

theorem takesValue_iff :
    TakesValue argument ↔ ∃ option, argument ∈ (Flag.valued option).spellings := by
  constructor
  · intro h
    simp only [TakesValue, List.mem_cons, List.not_mem_nil, or_false] at h
    rcases h with rfl | rfl | rfl | rfl | rfl | rfl | rfl
    · exact ⟨.set, by decide⟩
    · exact ⟨.set, by decide⟩
    · exact ⟨.command, by decide⟩
    · exact ⟨.command, by decide⟩
    · exact ⟨.rows, by decide⟩
    · exact ⟨.columns, by decide⟩
    · exact ⟨.config, by decide⟩
  · have hlisted : ∀ option : Valued, ∀ s ∈ (Flag.valued option).spellings, TakesValue s := by
      intro option
      cases option <;> decide
    rintro ⟨option, h⟩
    exact hlisted option argument h

theorem not_takesValue (h : ∀ option, Flag.ofArgument? argument ≠ some (.valued option)) :
    ¬TakesValue argument := by
  rw [takesValue_iff]
  rintro ⟨option, hoption⟩
  exact h option (ofArgument?_eq_some_iff.mpr hoption)

/-- Arguments that are read to their end leave the place of an option. -/
theorem endsAtOption_of_readFrom (h : o.readFrom args = .ok (some o')) : EndsAtOption args := by
  fun_induction Options.readFrom o args generalizing o' with
  | case1 => exact .nil
  | case2 => cases h
  | case3 o argument rest hflag ih | case4 o argument rest hflag ih =>
    exact .alone (not_takesValue (by simp [hflag])) (ih h)
  | case5 => cases h
  | case6 o argument option hflag value rest between hvalue ih =>
    exact .pair (takesValue_iff.mpr ⟨option, ofArgument?_eq_some_iff.mp hflag⟩) value (ih h)
  | case7 => cases h
  | case8 => cases h
  | case9 => cases h

/-- At the place of an option the reading goes on, unless it has ended before. -/
theorem readFrom_append (h : EndsAtOption before) : o.readFrom (before ++ rest) =
    (o.readFrom before).bind fun
      | some o' => o'.readFrom rest
      | none => .ok none := by
  induction h generalizing o with
  | nil =>
    rw [List.nil_append, Options.readFrom]
    rfl
  | @alone argument tail hargument _ ih =>
    rw [List.cons_append, Options.readFrom, Options.readFrom]
    cases hflag : Flag.ofArgument? argument with
    | none =>
      simp only
      split <;> rfl
    | some flag =>
      cases flag with
      | help => rfl
      | noConfig => exact ih
      | verbose => exact ih
      | valued option =>
        exact absurd (takesValue_iff.mpr ⟨option, ofArgument?_eq_some_iff.mp hflag⟩) hargument
  | @pair argument tail hargument value _ ih =>
    obtain ⟨option, hoption⟩ := takesValue_iff.mp hargument
    rw [List.cons_append, List.cons_append, readFrom_pair hoption, readFrom_pair hoption]
    cases o.withValue option value with
    | error e => rfl
    | ok o' => exact ih

/-- Options are read back from every command line that writes each part of them once, with the
assignments in order. One more request at the end of a command line that is read changes what it
is for and nothing else. A request for help is granted at every place of an option, unless an error
stands before it. -/
theorem read_requests :
    (∀ o requests groups, (∀ r ∈ o.requests, r.Readable) → requests.Perm o.requests →
      requests.filterMap Request.assignment? = o.assignments →
      List.Forall₂ Request.Written requests groups →
      Options.read groups.flatten = .ok (some o)) ∧
    (∀ args o (r : Request) group, Options.read args = .ok (some o) → r.Readable → r.Written group →
      Options.read (args ++ group) = .ok (some (r.grant o))) ∧
    ∀ before argument rest, EndsAtOption before → argument ∈ ["-h", "--help"] →
      Options.read (before ++ argument :: rest) = (Options.read before).map fun _ => none := by
  refine ⟨fun o requests groups hreadable hperm horder hgroups => ?_,
    fun args o r group hread hreadable hgroup => ?_, fun before argument rest hends hhelp => ?_⟩
  · rw [Options.read, readFrom_requests hgroups fun r hr => hreadable r (hperm.mem_iff.mp hr),
      foldl_of_perm hperm horder]
  · have hmore : o.readFrom (group ++ []) = (r.grant o).readFrom [] :=
      readFrom_written hgroup hreadable
    rw [Options.read] at hread
    rw [List.append_nil, Options.readFrom] at hmore
    rw [Options.read, readFrom_append (endsAtOption_of_readFrom hread), hread]
    exact hmore
  · rw [Options.read, Options.read, readFrom_append hends]
    cases Options.empty.readFrom before with
    | error e => rfl
    | ok asked =>
      cases asked with
      | none => rfl
      | some o =>
        change o.readFrom (argument :: rest) = .ok none
        rw [Options.readFrom, (ofArgument?_eq_some_iff (f := .help)).mpr
          (List.mem_reverse.mp hhelp)]

/-- A command that looks like a request for help, texts with equals signs and dashes, and a count
with a sign; then a further count, and a request for help in front of an option without a value. -/
theorem read_requests_dashes :
    let o : Options :=
      { Options.empty with
        assignments := [("A1", "=1=2"), ("B2", "-c")]
        command := some "-h"
        rows := some 3
        verbose := true }
    let args := ["-c", "-h", "--set", "A1==1=2", "--rows", "+03", "-v", "-s", "B2=-c"]
    Options.read args = .ok (some o) ∧
      Options.read (args ++ ["--rows", "7"]) = .ok (some { o with rows := some 7 }) ∧
      Options.read (["-c", "-h"] ++ "--help" :: ["--cols"]) = .ok none := by
  intro o args
  obtain ⟨hread, hmore, hhelp⟩ := read_requests
  let requests : List Request :=
    [.command "-h", .assign "A1" "=1=2", .rows 3, .verbose, .assign "B2" "-c"]
  have hargs : Options.read args = .ok (some o) := by
    refine hread o requests [["-c", "-h"], ["--set", "A1==1=2"], ["--rows", "+03"], ["-v"],
      ["-s", "B2=-c"]] (by decide) (by decide) (by decide) ?_
    exact .cons (.command _ (by decide)) (.cons (.assign "A1" "=1=2" (by decide))
      (.cons (.rows ⟨['0', '3'], by decide⟩) (.cons (.verbose (by decide))
        (.cons (.assign "B2" "-c" (by decide)) .nil))))
  refine ⟨hargs, hmore args o (.rows 7) _ hargs (by decide) (.rows ⟨['7'], by decide⟩), ?_⟩
  exact hhelp ["-c", "-h"] "--help" ["--cols"] (.pair (by decide) "-h" .nil) (by decide)

end Spreadsheet.CommandLine
