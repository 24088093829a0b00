import ProtoSchema.CommandLine.Run
import ProtoSchema.Proofs.Syntactic.Schema

/-!
# ProtoSchema.Proofs.CommandLine.Level

Where the level of a run comes from. The option for the level is checked each time it is given, and the
last one holds. Where it is not given the level is that of the environment, in upper case, and nothing
checks that one (`LevelRead`). So a run with the option is stopped for its level only if the option is set
to nothing, and a run without it whenever the environment has a name that is no level of the log
(`level_in_effect`). An option is set to nothing by two dashes attached to it, in the release whose rules
`ProtoSchema.CommandLine.Words` follows.

What is read behind an option depends on the level before it only in the level itself; so the induction
on the steps is for all levels at once.
-/

namespace ProtoSchema
namespace CommandLine

/-- The values that the option for the level has among steps, up to the command or whatever else ends the
reading; nothing for an option that is set to nothing. -/
def levelValues : List (Step ProgramOption) → List (Option String)
  | .value _ v :: more => v :: levelValues more
  | .stray _ :: more => levelValues more
  | _ => []

/-- The values that the option for the level has on a command line. -/
def levelsGiven (words : List String) : List (Option String) :=
  match programOptions.read words with
  | .error _ => []
  | .ok steps => levelValues steps

/-- Every name among the values is one of the levels to choose from, in any case. -/
def AllChoices (vs : List (Option String)) : Prop :=
  ∀ v, some v ∈ vs → Text.upper v ∈ levelChoices

def settingOf : Option String → LevelSetting
  | none => .nothing
  | some v => .named (Text.upper v)

/-- The level that holds behind the values `vs`: the last of them, or `level` if there are none. -/
def levelBehind (level : LevelSetting) (vs : List (Option String)) : LevelSetting :=
  (vs.getLast?.map settingOf).getD level

/-- What ends a command line that has a name for its level that is none to choose from. -/
def badLevel (v : String) : Exit :=
  .usage .program (.invalidChoice "--log-level" (Text.upper v) levelChoices)

/-- What is read from a command line with the values `vs` for its level, in each environment. Only the last
case looks at the environment, and it takes whatever level is there. -/
inductive LevelRead (vs : List (Option String)) : (Option String → Except Exit Invocation) → Prop where
  | refused {v : String} : some v ∈ vs → Text.upper v ∉ levelChoices →
      LevelRead vs fun _ => .error (badLevel v)
  | ended (e : Exit) : AllChoices vs → LevelRead vs fun _ => .error e
  | option {v : String} (command : Option Command) : AllChoices vs → vs.getLast? = some (some v) →
      LevelRead vs fun _ => .ok ⟨.named (Text.upper v), command⟩
  | nothing (command : Option Command) : AllChoices vs → vs.getLast? = some none →
      LevelRead vs fun _ => .ok ⟨.nothing, command⟩
  | environment (command : Option Command) : vs = [] →
      LevelRead vs fun environment => .ok ⟨defaultLevel environment, command⟩

/-- The run stops because its level is nothing or no level of the log. -/
def StopsForLevel (r : Except Crash Outcome) : Prop :=
  r = .error .noLevel ∨ ∃ name, r = .error (.unknownLevel name)

variable {steps more : List (Step ProgramOption)} {vs : List (Option String)} {level : LevelSetting}

/-! ## Reading steps -/

theorem levelBehind_cons (v : Option String) :
    levelBehind level (v :: vs) = levelBehind (settingOf v) vs := by
  unfold levelBehind
  rw [List.getLast?_cons]
  cases vs.getLast? <;> rfl

theorem AllChoices.tail {v : Option String} (h : AllChoices (v :: vs)) : AllChoices vs :=
  fun s hs => h s (List.mem_cons_of_mem v hs)

/-- Words that are left over stop the reading whatever the level is. -/
theorem complete_map (command : Option Command) (stray : List String) :
    ∃ r : Except Exit (Option Command), ∀ level,
      complete ⟨level, command⟩ stray = r.map fun c => ⟨level, c⟩ := by
  unfold complete
  by_cases h : stray.isEmpty = true
  · exact ⟨.ok command, fun level => by simp [h, Except.map]⟩
  · exact ⟨.error (.usage .program (.unrecognized stray)), fun level => by simp [h, Except.map]⟩

/-- A value to choose from replaces the level, and reading goes on. -/
theorem readProgram_value {v : Option String} (o : ProgramOption) (stray : List String)
    (h : ∀ s, v = some s → Text.upper s ∈ levelChoices) :
    readProgram level stray (.value o v :: more) = readProgram (settingOf v) stray more := by
  cases v with
  | none => rfl
  | some s =>
    have hs : levelChoices.contains (Text.upper s) = true := by simpa using h s rfl
    simp only [readProgram, hs, if_true]
    rfl

theorem readProgram_badLevel {v : String} (o : ProgramOption) (stray : List String)
    (h : Text.upper v ∉ levelChoices) :
    readProgram level stray (.value o (some v) :: more) = .error (badLevel v) := by
  have hv : levelChoices.contains (Text.upper v) = false := by simpa using h
  simp only [readProgram, hv]
  rfl

/-- Where all values are to choose from, the level before the steps shows only in the level that holds
behind them. -/
theorem readProgram_allChoices (h : AllChoices (levelValues steps)) (stray : List String) :
    ∃ r : Except Exit (Option Command), ∀ level,
      readProgram level stray steps = r.map fun c => ⟨levelBehind level (levelValues steps), c⟩ := by
  induction steps generalizing stray with
  | nil => exact complete_map none stray
  | cons s more ih =>
    cases s with
    | flag o => exact ⟨.error (.help .program), fun _ => rfl⟩
    | value o v =>
      obtain ⟨r, hr⟩ := ih (AllChoices.tail h) stray
      refine ⟨r, fun level => ?_⟩
      rw [readProgram_value o stray fun s hs => h s (by simp [levelValues, hs]), hr, levelValues,
        levelBehind_cons]
    | stray w => exact ih h (stray ++ [w])
    | wrong e => exact ⟨.error (.usage .program e), fun _ => rfl⟩
    | operand name behind =>
      simp only [readProgram]
      cases readCommand name behind with
      | error e => exact ⟨.error e, fun _ => rfl⟩
      | ok r => exact complete_map (some r.1) (stray ++ r.2)
    | dashes behind =>
      simp only [readProgram]
      by_cases hb : behind.isEmpty = true
      · simp only [hb, if_true]
        exact complete_map none (stray ++ ["--"])
      · exact ⟨.error (.usage .program (.invalidChoice "command" "--" commandNames)),
          fun _ => by simp [hb, Except.map]⟩

/-- A value that is not to choose from is refused, whatever the level before the steps is. -/
theorem readProgram_refused (h : ¬ AllChoices (levelValues steps)) :
    ∃ v, some v ∈ levelValues steps ∧ Text.upper v ∉ levelChoices ∧
      ∀ level stray, readProgram level stray steps = .error (badLevel v) := by
  induction steps with
  | nil => exact absurd (fun v hv => absurd hv List.not_mem_nil) h
  | cons s more ih =>
    cases s with
    | value o v =>
      by_cases hv : ∀ s, v = some s → Text.upper s ∈ levelChoices
      · have hmore : ¬ AllChoices (levelValues more) := by
          intro hmore
          refine h fun s hs => ?_
          rcases List.mem_cons.1 hs with rfl | hs
          · exact hv s rfl
          · exact hmore s hs
        obtain ⟨s, hs, hbad, hread⟩ := ih hmore
        refine ⟨s, List.mem_cons_of_mem v hs, hbad, fun level stray => ?_⟩
        rw [readProgram_value o stray hv, hread]
      · obtain ⟨s, rfl, hbad⟩ : ∃ s, v = some s ∧ Text.upper s ∉ levelChoices := by
          simpa using hv
        exact ⟨s, List.mem_cons_self, hbad, fun level stray => readProgram_badLevel o stray hbad⟩
    | stray w =>
      obtain ⟨v, hv, hbad, hread⟩ := ih h
      exact ⟨v, hv, hbad, fun level stray => hread level (stray ++ [w])⟩
    | _ => exact absurd (fun v hv => absurd hv List.not_mem_nil) h

theorem levelRead (words : List String) : LevelRead (levelsGiven words) (readArguments words) := by
  unfold levelsGiven readArguments
  cases programOptions.read words with
  | error e => exact .ended _ fun v hv => absurd hv List.not_mem_nil
  | ok steps =>
    simp only
    by_cases h : AllChoices (levelValues steps)
    · obtain ⟨r, hr⟩ := readProgram_allChoices h []
      simp only [hr]
      cases r with
      | error e => exact .ended e h
      | ok command =>
        simp only [Except.map, levelBehind]
        cases hlast : (levelValues steps).getLast? with
        | none => exact .environment command (List.getLast?_eq_none_iff.1 hlast)
        | some v =>
          cases v with
          | none => exact .nothing command h hlast
          | some v => exact .option command h hlast
    · obtain ⟨v, hv, hbad, hread⟩ := readProgram_refused h
      simp only [hread]
      exact .refused hv hbad

/-! ## Running -/

/-- Every level to choose from is a level of the log. -/
theorem ofName?_choice {name : String} (h : name ∈ levelChoices) :
    ∃ level, LogLevel.ofName? name = some level ∧ level.name = name := by
  simp only [levelChoices, List.mem_cons, List.not_mem_nil, or_false] at h
  rcases h with rfl | rfl | rfl | rfl
  · exact ⟨.debug, rfl, rfl⟩
  · exact ⟨.info, rfl, rfl⟩
  · exact ⟨.warning, rfl, rfl⟩
  · exact ⟨.error, rfl, rfl⟩

/-- A command that runs does not stop for the level. -/
theorem not_stopsForLevel_runCommand (level : LogLevel) (look : Path → Lookup) (c : Command) :
    ¬ StopsForLevel (runCommand level look c) := by
  intro h
  cases c with
  | serve logFile => rcases h with h | ⟨_, h⟩ <;> cases h
  | parse files print =>
    unfold runCommand at h
    simp only at h
    split at h
    · rcases h with h | ⟨_, h⟩ <;> cases h
    · rcases h with h | ⟨_, h⟩ <;> cases h

section Run

variable {words : List String} {environment : Option String} {look : Path → Lookup} {c : Command}

theorem run_named {name : String} {l : LogLevel}
    (h : readArguments words environment = .ok ⟨.named name, some c⟩)
    (hlog : c.logFileError? look = none) (hname : LogLevel.ofName? name = some l) :
    run words environment look = runCommand l look c := by
  unfold run
  simp only [h, hlog, hname]

theorem run_unknown {name : String} (h : readArguments words environment = .ok ⟨.named name, some c⟩)
    (hlog : c.logFileError? look = none) (hname : LogLevel.ofName? name = none) :
    run words environment look = .error (.unknownLevel name) := by
  unfold run
  simp only [h, hlog, hname]

theorem run_nothing (h : readArguments words environment = .ok ⟨.nothing, some c⟩)
    (hlog : c.logFileError? look = none) : run words environment look = .error .noLevel := by
  unfold run
  simp only [h, hlog]

/-- A named level stops a run exactly if the log does not know it. -/
theorem stopsForLevel_named {name : String}
    (h : readArguments words environment = .ok ⟨.named name, some c⟩)
    (hlog : c.logFileError? look = none) :
    StopsForLevel (run words environment look) ↔ LogLevel.ofName? name = none := by
  cases hname : LogLevel.ofName? name with
  | none => simp [run_unknown h hlog hname, StopsForLevel]
  | some l =>
    rw [run_named h hlog hname]
    simpa using not_stopsForLevel_runCommand l look c

end Run

/-- The level in effect. Reading a command line ends it at once with a help or a usage, in every environment
alike and always for a value of the option that is not to choose from; or the level is that of the last
option, in upper case, or nothing if that option is set to nothing, or, without an option, that of the
environment in upper case, whatever it is. A command whose log can be written runs under every level to
choose from, and it does not run, for its level, in two cases only: its last option is set to nothing,
or there is none and the log does not know the level of the environment. -/
theorem level_in_effect (words : List String) (environment : Option String) (look : Path → Lookup) :
    LevelRead (levelsGiven words) (readArguments words) ∧
      ∀ setting c, readArguments words environment = .ok ⟨setting, some c⟩ →
        c.logFileError? look = none →
        (∀ name ∈ levelChoices, setting = .named name → ∃ level : LogLevel, level.name = name ∧
          run words environment look = runCommand level look c) ∧
        (StopsForLevel (run words environment look) ↔ (levelsGiven words).getLast? = some none ∨
          levelsGiven words = [] ∧
            LogLevel.ofName? (Text.upper (environment.getD "WARNING")) = none) := by
  refine ⟨levelRead words, fun setting c hread hlog => ⟨?_, ?_⟩⟩
  · intro name hname hsetting
    subst hsetting
    obtain ⟨level, hlevel, hlevelName⟩ := ofName?_choice hname
    exact ⟨level, hlevelName, run_named hread hlog hlevel⟩
  · have hcases := levelRead words
    have heq := hread
    generalize readArguments words = r at hcases heq
    cases hcases with
    | refused => cases heq
    | ended => cases heq
    | @option v _ hall hlast =>
      cases heq
      obtain ⟨level, hlevel, _⟩ := ofName?_choice (hall v (List.mem_of_getLast? hlast))
      have hne : levelsGiven words ≠ [] := by
        intro hnil
        simp [hnil] at hlast
      rw [stopsForLevel_named hread hlog]
      simp [hlevel, hlast, hne]
    | nothing _ _ hlast =>
      cases heq
      simp [run_nothing hread hlog, StopsForLevel, hlast]
    | environment _ hnil =>
      cases heq
      rw [stopsForLevel_named hread hlog]
      simp [hnil]

/-- The last option holds, not the environment. -/
theorem level_in_effect_debug :
    let words := ["--log-level", "error", "--log-level=Debug", "serve"]
    readArguments words (some "trace") = .ok ⟨.named "DEBUG", some (.serve none)⟩ ∧
      ∃ level : LogLevel, level.name = "DEBUG" ∧
        run words (some "trace") (fun _ => .missing) =
          runCommand level (fun _ => .missing) (.serve none) := by
  intro words
  have hread : readArguments words (some "trace") = .ok ⟨.named "DEBUG", some (.serve none)⟩ :=
    Syntactic.eq_ok_of_toOption (by decide +kernel)
  obtain ⟨_, hrun⟩ := level_in_effect words (some "trace") fun _ => .missing
  exact ⟨hread, (hrun _ _ hread rfl).1 "DEBUG" (by decide) rfl⟩

theorem readArguments_trace : readArguments ["parse", "x.proto"] (some "trace") =
    .ok ⟨.named "TRACE", some (.parse [⟨0, ["x.proto"]⟩] false)⟩ := rfl

/-- The level is not always one to choose from: that of the environment is taken unchecked, and then the
run stops before its command. -/
theorem environment_level_unchecked :
    (¬ ∀ (words : List String) (environment : Option String),
      (∃ e, readArguments words environment = .error e) ∨ ∃ name ∈ levelChoices, ∃ command,
        readArguments words environment = .ok ⟨.named name, command⟩) ∧
      run ["parse", "x.proto"] (some "trace") (fun _ => .missing) = .error (.unknownLevel "TRACE") := by
  constructor
  · intro h
    rcases h ["parse", "x.proto"] (some "trace") with ⟨e, he⟩ | ⟨name, hname, command, hread⟩
    · cases readArguments_trace.symm.trans he
    · cases readArguments_trace.symm.trans hread
      exact absurd hname (by decide)
  · exact run_unknown readArguments_trace rfl (by decide)

end CommandLine
end ProtoSchema
