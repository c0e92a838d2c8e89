import ParaCL.Driver.Options

/-!
# `Driver.Groups` — arguments that belong together, and their order

A group is an option with its value, or a positional argument. The loop of `parse_options` takes group after
group (`parseArguments_groups`), and each group touches one field of `options_`, so that groups of different
kinds commute.
-/

namespace ParaCL

/-! ## Groups -/

/-- The field of `options_` a group is about. -/
inductive GroupKind where
  | output
  | level
  | input
  deriving DecidableEq

/-- A complete group of arguments. -/
inductive ArgGroup where
  | outputNext (spelling : CString) (h : spelling = outputShort ∨ spelling = outputLong) (value : CString)
  | outputEqual (value : CString)
  | outputJoined (value : CString) (h : value ≠ [])
  | levelNext (value : CString)
  | levelJoined (value : CString) (h : value ≠ [])
  | positional (value : CString) (h : isOption value = false)

namespace ArgGroup

def kind : ArgGroup → GroupKind
  | outputNext _ _ _ | outputEqual _ | outputJoined _ _ => .output
  | levelNext _ | levelJoined _ _ => .level
  | positional _ _ => .input

def value : ArgGroup → CString
  | outputNext _ _ v | outputEqual v | outputJoined v _ | levelNext v | levelJoined v _
  | positional v _ => v

/-- The arguments of the group. -/
def args : ArgGroup → List CString
  | outputNext spelling _ v => [spelling, v]
  | outputEqual v => [outputEquals ++ v]
  | outputJoined v _ => [outputShort ++ v]
  | levelNext v => [levelShort, v]
  | levelJoined v _ => [levelShort ++ v]
  | positional v _ => [v]

end ArgGroup

/-- The argument list of some groups, and what follows a final `--`. -/
def commandLine (groups : List ArgGroup) (rest : Option (List CString)) : List CString :=
  groups.flatMap ArgGroup.args ++ rest.elim [] (dashDash :: ·)

namespace Options

/-- What a group of a kind does to its field. -/
def set : GroupKind → CString → Options → Except OptionError Options
  | .output => setOutput
  | .level => setLevel
  | .input => setInput

end Options

/-- The groups in their order. -/
def runGroups : List ArgGroup → Options → Except OptionError Options
  | [], options => .ok options
  | g :: gs, options => (options.set g.kind g.value).bind (runGroups gs)

/-! ## The loop takes groups -/

section Loop

variable {v arg : CString} {rest : List CString} {options : Options}

/-- What goes on after an option is one. -/
theorem isOption_of_isPrefix {w : CString} (hw : isOption w = true) (hp : w <+: v) :
    isOption v = true := by
  obtain ⟨u, rfl⟩ := hp
  cases w with
  | nil => cases hw
  | cons c w =>
      cases w with
      | nil => simp [isOption] at hw; exact absurd hw.1.symm hw.2
      | cons d w =>
          simp only [isOption, List.isPrefixOf_cons_cons, List.isPrefixOf_nil_left, Bool.and_true,
            Bool.and_eq_true, beq_iff_eq] at hw
          obtain ⟨rfl, _⟩ := hw
          simp [isOption]

theorem parseArguments_positional (h : isOption v = false) :
    parseArguments (v :: rest) options = (options.setInput v).bind (parseArguments rest) := by
  have hno : ∀ {w : CString}, isOption w = true → ¬ w <+: v := by
    intro w hw hp
    rw [isOption_of_isPrefix hw hp] at h
    cases h
  have hne : ∀ {w : CString}, isOption w = true → v ≠ w :=
    fun hw he => hno hw (he ▸ List.prefix_refl _)
  rw [parseArguments.eq_def]
  simp only [hne (w := dashDash) rfl, hne (w := outputShort) rfl, hne (w := outputLong) rfl,
    hno (w := outputEquals) rfl, hno (w := outputShort) rfl, hne (w := levelShort) rfl,
    hno (w := levelShort) rfl, h, or_self, false_and, if_false, Bool.false_eq_true]

theorem parseArguments_dashDash : parseArguments (dashDash :: rest) options = parseFiles rest options := by
  rw [parseArguments.eq_def]
  rfl

/-- **One group** is one round of the loop. -/
theorem parseArguments_group (g : ArgGroup) :
    parseArguments (g.args ++ rest) options =
      (options.set g.kind g.value).bind (parseArguments rest) := by
  cases g with
  | outputNext spelling h v =>
      rcases h with rfl | rfl
      · rfl
      · rfl
  | outputEqual v =>
      show parseArguments ((outputEquals ++ v) :: rest) options = _
      -- `--output=v` is none of the words that the loop compares with first
      have hlong : outputEquals ++ v ≠ outputLong := by simp [outputEquals]
      rw [parseArguments.eq_def]
      simp only
      rw [if_neg (by simp [outputEquals, outputLong, dashDash]),
        if_neg (by simp [hlong]; simp [outputEquals, outputLong, outputShort]),
        if_pos (List.prefix_append _ _), List.drop_left]
      rfl
  | outputJoined v h =>
      show parseArguments ((outputShort ++ v) :: rest) options = _
      rw [parseArguments.eq_def]
      simp only
      rw [if_neg (by simp [outputShort, dashDash]),
        if_neg (by simp [outputShort, outputLong, h]),
        if_neg (by simp [outputEquals, outputLong, outputShort]), if_pos]
      · rfl
      · exact ⟨List.prefix_append _ _, by
          have := List.length_pos_iff.mpr h
          simp only [List.length_append, outputShort, List.length_cons, List.length_nil]
          omega⟩
  | levelNext v => rfl
  -- the forms of the output option come first in the loop and do not match
  | levelJoined v h =>
      show parseArguments ((levelShort ++ v) :: rest) options = _
      rw [parseArguments.eq_def]
      simp only
      rw [if_neg (by simp [levelShort, dashDash]),
        if_neg (by simp [levelShort, outputShort, outputLong]),
        if_neg (by simp [outputEquals, outputLong, levelShort]),
        if_neg (by simp [outputShort, levelShort]), if_neg (by simp [levelShort, h]), if_pos]
      · rfl
      · exact ⟨List.prefix_append _ _, by
          have := List.length_pos_iff.mpr h
          simp only [List.length_append, levelShort, List.length_cons, List.length_nil]
          omega⟩
  | positional v h => exact parseArguments_positional h

/-- **Groups** are taken one after the other. -/
theorem parseArguments_groups (groups : List ArgGroup) :
    parseArguments (groups.flatMap ArgGroup.args ++ rest) options =
      (runGroups groups options).bind (parseArguments rest) := by
  induction groups generalizing options with
  | nil => rfl
  | cons g gs ih =>
      rw [List.flatMap_cons, List.append_assoc, parseArguments_group, runGroups]
      cases options.set g.kind g.value with
      | error e => rfl
      | ok options => exact ih

end Loop

/-! ## Groups of different kinds -/

section Commute

variable {options options' : Options} {groups : List ArgGroup}

theorem toOption_bind {ε α β : Type} (r : Except ε α) (f : α → Except ε β) :
    (r.bind f).toOption = r.toOption.bind (fun a => (f a).toOption) := by
  cases r with
  | error e => rfl
  | ok a => rfl

theorem Options.setOutput_setLevel (v w : CString) :
    ((options.setOutput v).bind (Options.setLevel w)).toOption =
      ((options.setLevel w).bind (Options.setOutput v)).toOption := by
  cases hn : parseOutputName v <;> cases hl : parseOptimizationLevel w <;>
    simp [setOutput, setLevel, hn, hl, Except.map, Except.bind, Except.toOption]

theorem Options.setOutput_setInput (v w : CString) :
    ((options.setOutput v).bind (Options.setInput w)).toOption =
      ((options.setInput w).bind (Options.setOutput v)).toOption := by
  cases hn : parseOutputName v <;> by_cases hf : options.inputFile = [] <;>
    simp [setOutput, setInput, hn, hf, Except.map, Except.bind, Except.toOption]

theorem Options.setLevel_setInput (v w : CString) :
    ((options.setLevel v).bind (Options.setInput w)).toOption =
      ((options.setInput w).bind (Options.setLevel v)).toOption := by
  cases hl : parseOptimizationLevel v <;> by_cases hf : options.inputFile = [] <;>
    simp [setLevel, setInput, hl, hf, Except.map, Except.bind, Except.toOption]

/-- **Two kinds** touch two fields, and neither looks at the other's. -/
theorem Options.set_commute {k l : GroupKind} (hkl : k ≠ l) (v w : CString) :
    ((options.set k v).bind (Options.set l w)).toOption =
      ((options.set l w).bind (Options.set k v)).toOption := by
  cases k with
  | output =>
      cases l with
      | output => exact absurd rfl hkl
      | level => exact setOutput_setLevel v w
      | input => exact setOutput_setInput v w
  | level =>
      cases l with
      | output => exact (setOutput_setLevel w v).symm
      | level => exact absurd rfl hkl
      | input => exact setLevel_setInput v w
  | input =>
      cases l with
      | output => exact (setOutput_setInput w v).symm
      | level => exact (setLevel_setInput w v).symm
      | input => exact absurd rfl hkl

theorem runGroups_append (before after : List ArgGroup) :
    runGroups (before ++ after) options = (runGroups before options).bind (runGroups after) := by
  induction before generalizing options with
  | nil => rfl
  | cons g gs ih =>
      rw [List.cons_append, runGroups, runGroups]
      cases options.set g.kind g.value with
      | error e => rfl
      | ok options => exact ih

theorem runGroups_swap {g h : ArgGroup} (hgh : g.kind ≠ h.kind) (before after : List ArgGroup) :
    (runGroups (before ++ g :: h :: after) options).toOption =
      (runGroups (before ++ h :: g :: after) options).toOption := by
  have hpair : ∀ (g h : ArgGroup) (o : Options), runGroups (g :: h :: after) o =
      ((o.set g.kind g.value).bind (Options.set h.kind h.value)).bind (runGroups after) := by
    intro g h o
    rw [runGroups]
    cases o.set g.kind g.value with
    | error e => rfl
    | ok o => rfl
  rw [runGroups_append, runGroups_append, toOption_bind, toOption_bind]
  refine Option.bind_congr (fun o _ => ?_)
  rw [hpair, hpair, toOption_bind _ (runGroups after), toOption_bind _ (runGroups after),
    Options.set_commute hgh]

/-! ## The last group of a kind -/

/-- The value of the last group of a kind. -/
def lastValue (kind : GroupKind) (groups : List ArgGroup) : Option CString :=
  ((groups.filter (fun g => g.kind = kind)).getLast?).map ArgGroup.value

theorem lastValue_cons (kind : GroupKind) (g : ArgGroup) : lastValue kind (g :: groups) =
    (lastValue kind groups).or (if g.kind = kind then some g.value else none) := by
  unfold lastValue
  by_cases hg : g.kind = kind
  · rw [List.filter_cons_of_pos (by simpa using hg), List.getLast?_cons, if_pos hg]
    cases (groups.filter (fun g => g.kind = kind)).getLast? <;> rfl
  · rw [List.filter_cons_of_neg (by simpa using hg), if_neg hg, Option.or_none]

/-- The level a value names, or the one there was. -/
def levelAfter (value : Option CString) (level : OptimizationLevel) :
    Except OptionError OptimizationLevel :=
  value.elim (.ok level) parseOptimizationLevel

theorem parseOutputName_ok {v name : CString} (h : parseOutputName v = .ok name) : name = v := by
  unfold parseOutputName at h
  split at h
  · cases h
  · cases h; rfl

/-- What one group does to the name and the level. -/
theorem set_fields {kind : GroupKind} {v : CString} (h : options.set kind v = .ok options') :
    options'.outputName = (if kind = .output then some v else options.outputName) ∧
      levelAfter (if kind = .level then some v else none) options.optimizationLevel =
        .ok options'.optimizationLevel := by
  cases kind with
  | output =>
      simp only [Options.set, Options.setOutput] at h
      cases hn : parseOutputName v with
      | error e => rw [hn] at h; cases h
      | ok name =>
          rw [hn] at h
          cases h
          rw [parseOutputName_ok hn]
          exact ⟨rfl, rfl⟩
  | level =>
      simp only [Options.set, Options.setLevel] at h
      cases hl : parseOptimizationLevel v with
      | error e => rw [hl] at h; cases h
      | ok level =>
          rw [hl] at h
          cases h
          exact ⟨rfl, hl⟩
  | input =>
      simp only [Options.set, Options.setInput] at h
      split at h
      · cases h
      · cases h; exact ⟨rfl, rfl⟩

theorem runGroups_fields (h : runGroups groups options = .ok options') :
    options'.outputName = (lastValue .output groups).or options.outputName ∧
      levelAfter (lastValue .level groups) options.optimizationLevel =
        .ok options'.optimizationLevel := by
  induction groups generalizing options with
  | nil => cases h; exact ⟨rfl, rfl⟩
  | cons g gs ih =>
      rw [runGroups] at h
      cases hg : options.set g.kind g.value with
      | error e => rw [hg] at h; cases h
      | ok mid =>
          rw [hg] at h
          obtain ⟨hname, hlevel⟩ := ih h
          obtain ⟨hname', hlevel'⟩ := set_fields hg
          rw [hname, hname', lastValue_cons, lastValue_cons, Option.or_assoc]
          refine ⟨?_, ?_⟩
          · by_cases hk : g.kind = .output
            · simp [hk]
            · simp [hk]
          · rw [← hlevel]
            cases hl : lastValue .level gs with
            | some v => rfl
            | none =>
                show levelAfter (if g.kind = .level then some g.value else none) _ = .ok _
                rw [hlevel']

/-- The arguments after `--` are input files. -/
theorem parseFiles_fields {files : List CString} (h : parseFiles files options = .ok options') :
    options'.outputName = options.outputName ∧
      options'.optimizationLevel = options.optimizationLevel := by
  induction files generalizing options with
  | nil => cases h; exact ⟨rfl, rfl⟩
  | cons file files ih =>
      rw [parseFiles, Options.setInput] at h
      split at h
      · cases h
      · have h : parseFiles files { options with inputFile := file } = .ok options' := h
        obtain ⟨hname, hlevel⟩ := ih h
        exact ⟨hname, hlevel⟩

theorem parseArguments_rest {rest : Option (List CString)}
    (h : parseArguments (rest.elim [] (dashDash :: ·)) options = .ok options') :
    options'.outputName = options.outputName ∧
      options'.optimizationLevel = options.optimizationLevel := by
  cases rest with
  | none => cases h; exact ⟨rfl, rfl⟩
  | some files => exact parseFiles_fields (parseArguments_dashDash.symm.trans h)

theorem parseOptions_groups (groups : List ArgGroup) (rest : Option (List CString)) :
    parseOptions (commandLine groups rest) =
      (runGroups groups {}).bind (fun options =>
        (parseArguments (rest.elim [] (dashDash :: ·)) options).bind (fun options =>
          if options.inputFile = [] then .error .noInputFile else .ok options)) := by
  rw [parseOptions, commandLine, parseArguments_groups]
  cases runGroups groups {} with
  | error e => rfl
  | ok options => rfl

/-- The options that are accepted hold the last value of each kind. -/
theorem parseOptions_fields {groups : List ArgGroup} {rest : Option (List CString)} {options : Options}
    (hok : parseOptions (commandLine groups rest) = .ok options) :
    options.outputName = lastValue .output groups ∧
      levelAfter (lastValue .level groups) .O2 = .ok options.optimizationLevel := by
  rw [parseOptions_groups] at hok
  cases hg : runGroups groups {} with
  | error e => rw [hg] at hok; cases hok
  | ok mid =>
      rw [hg] at hok
      simp only [Except.bind] at hok
      cases hr : parseArguments (rest.elim [] (dashDash :: ·)) mid with
      | error e => rw [hr] at hok; cases hok
      | ok last =>
          rw [hr] at hok
          simp only at hok
          split at hok
          · cases hok
          · cases hok
            obtain ⟨hname, hlevel⟩ := runGroups_fields hg
            obtain ⟨hname', hlevel'⟩ := parseArguments_rest hr
            rw [hname', hlevel', hname]
            exact ⟨Option.or_none, hlevel⟩

/-- **Options commute**: exchanging neighbours of different kinds changes neither whether the arguments are
    accepted nor the options they give; the output name and the level are those of the last group of
    their kind. -/
theorem options_commute {g h : ArgGroup} (hgh : g.kind ≠ h.kind) (before after : List ArgGroup)
    (rest : Option (List CString)) :
    (parseOptions (commandLine (before ++ g :: h :: after) rest)).toOption =
        (parseOptions (commandLine (before ++ h :: g :: after) rest)).toOption ∧
      ∀ (groups : List ArgGroup) (options : Options),
        parseOptions (commandLine groups rest) = .ok options →
          options.outputName = lastValue .output groups ∧
            levelAfter (lastValue .level groups) .O2 = .ok options.optimizationLevel := by
  constructor
  · rw [parseOptions_groups, parseOptions_groups, toOption_bind, toOption_bind, runGroups_swap hgh]
  · exact fun groups options => parseOptions_fields

/-- `-o -- -O3 prog` and `-O3 -o -- prog`. -/
theorem options_commute_dashes :
    (parseOptions [outputShort, dashDash, levelShort ++ ['3'], ['p']]).toOption =
        some ⟨['p'], some dashDash, .O3⟩ ∧
      (parseOptions [levelShort ++ ['3'], outputShort, dashDash, ['p']]).toOption =
        some ⟨['p'], some dashDash, .O3⟩ := by
  have hswap := (options_commute (g := .outputNext outputShort (.inl rfl) dashDash)
    (h := .levelJoined ['3'] (by simp)) (by decide) [] [.positional ['p'] rfl] none).1
  have hfirst : (parseOptions [outputShort, dashDash, levelShort ++ ['3'], ['p']]).toOption =
      some ⟨['p'], some dashDash, .O3⟩ := by decide
  exact ⟨hfirst, hswap.symm.trans hfirst⟩

end Commute

end ParaCL
