import CrcPP.ToolOptions

/-!
# CrcPP.ToolFlags

**What a run depends on.** The options `-b`, `-s`, `-v`, `-V` and `-w` set a variable and
do nothing else, so they may stand anywhere, in any number: the option loop does what it
does with the other options alone, and sets the variables of the flags that occur
(`optionLoop_flags`). So from any state on, the other options, in their order, and which
flags there are say what happens (`runFrom_eq_of_flags`).
-/

namespace CrcPP

variable {progname : List Char}

/-- The options that set a variable and do nothing else. An option without a case sets
none. -/
def Opt.isFlag : Opt → Bool
  | .binary | .search | .verify | .verbose | .writeTable | .other => true
  | .algorithm _ | .generator _ | .help | .invert _ | .preset _ => false

/-- The options that are no flags. -/
def configuration (opts : List Opt) : List Opt := opts.filter fun opt => !opt.isFlag

theorem configuration_cons_flag {opt : Opt} (h : opt.isFlag = true) (opts : List Opt) :
    configuration (opt :: opts) = configuration opts :=
  List.filter_cons_of_neg (by simp [h])

theorem configuration_cons {opt : Opt} (h : opt.isFlag = false) (opts : List Opt) :
    configuration (opt :: opts) = opt :: configuration opts :=
  List.filter_cons_of_pos (by simp [h])

namespace MainState

/-- Set the variables of the flags among some options. -/
def withFlags (st : MainState) (opts : List Opt) : MainState :=
  { st with
    doWriteTable := st.doWriteTable || decide (.writeTable ∈ opts)
    doSearch := st.doSearch || decide (.search ∈ opts)
    doVerify := st.doVerify || decide (.verify ∈ opts)
    verbosity := st.verbosity + opts.count .verbose
    binaryOutput := st.binaryOutput || decide (.binary ∈ opts) }

@[simp] theorem withFlags_nil (st : MainState) : st.withFlags [] = st := by
  simp [withFlags]

/-- One after the other. -/
theorem withFlags_withFlags (st : MainState) (opts opts' : List Opt) :
    (st.withFlags opts).withFlags opts' = st.withFlags (opts ++ opts') := by
  simp [withFlags, Bool.or_assoc, Nat.add_assoc]

theorem withFlags_cons {opt : Opt} (h : opt.isFlag = false) (st : MainState) (opts : List Opt) :
    st.withFlags (opt :: opts) = st.withFlags opts := by
  cases opt with
  | «algorithm» | generator | help | invert | preset => simp [withFlags]
  | binary | search | verify | verbose | writeTable | other => simp [Opt.isFlag] at h

end MainState

/-! ### One pass -/

theorem processOption_flag {opt : Opt} (h : opt.isFlag = true) (st : MainState) :
    processOption progname st opt = .ok (st.withFlags [opt]) := by
  cases opt with
  | binary | search | verify | verbose | writeTable | other =>
      simp [processOption, MainState.withFlags]
  | «algorithm» | generator | help | invert | preset => simp [Opt.isFlag] at h

/-- The cases `g`, `i` and `p` look at the selection, the factories and `std::cerr` only. -/
theorem setParameter_withFlags (st : MainState) (opts : List Opt) (optarg : List Char)
    (message : String) (set : ICRCTestFactory → BitVec 64 → ICRCTestFactory) :
    setParameter progname (st.withFlags opts) optarg message set =
      (setParameter progname st optarg message set).map (·.withFlags opts) := by
  rw [setParameter, setParameter, show (st.withFlags opts).theFactory = st.theFactory from rfl]
  cases st.theFactory <;> rfl

variable (progname) in
/-- The other options do not look at the flags. -/
theorem processOption_withFlags {opt : Opt} (h : opt.isFlag = false) (st : MainState)
    (opts : List Opt) :
    processOption progname (st.withFlags opts) opt =
      (processOption progname st opt).map (·.withFlags opts) := by
  cases opt with
  | «algorithm» name =>
      rw [processOption, processOption,
        show (st.withFlags opts).theFactory = st.theFactory from rfl]
      cases scanLists lists name st.theFactory <;> rfl
  | generator optarg => exact setParameter_withFlags st opts optarg _ _
  | invert optarg => exact setParameter_withFlags st opts optarg _ _
  | preset optarg => exact setParameter_withFlags st opts optarg _ _
  | help => rfl
  | binary | search | verify | verbose | writeTable | other => simp [Opt.isFlag] at h

/-! ### The loop -/

theorem optionLoop_withFlags {config : List Opt} (h : ∀ opt ∈ config, opt.isFlag = false)
    (st : MainState) (opts : List Opt) :
    optionLoop progname (st.withFlags opts) config =
      (optionLoop progname st config).map (·.withFlags opts) := by
  -- no outcome shows the flags
  have hid : ∀ x : Except Outcome MainState, x.mapError id = x := by
    intro x
    cases x <;> rfl
  have hstep : ∀ opt ∈ config, ∀ st, processOption progname (st.withFlags opts) opt =
      ((processOption progname st opt).map (·.withFlags opts)).mapError id := by
    intro opt ho st
    rw [hid]
    exact processOption_withFlags progname (h opt ho) st opts
  rw [optionLoop_map (f := (·.withFlags opts)) hstep, hid]

theorem isFlag_of_mem_configuration {opts : List Opt} {opt : Opt} (h : opt ∈ configuration opts) :
    opt.isFlag = false := by
  simpa using (List.mem_filter.mp h).2

/-- **Flags may stand anywhere**: the loop does what it does with the other options, and
sets the variables of the flags. -/
theorem optionLoop_flags (st : MainState) (opts : List Opt) :
    optionLoop progname st opts =
      (optionLoop progname st (configuration opts)).map (·.withFlags opts) := by
  induction opts generalizing st with
  | nil => simp [configuration, optionLoop, Except.map]
  | cons opt opts ih =>
      cases hflag : opt.isFlag with
      | true =>
          rw [optionLoop_of_ok (processOption_flag hflag st), ih, configuration_cons_flag hflag,
            optionLoop_withFlags fun o => isFlag_of_mem_configuration]
          cases optionLoop progname st (configuration opts) with
          | error outcome => rfl
          | ok st' => exact congrArg Except.ok (st'.withFlags_withFlags [opt] opts)
      | false =>
          rw [configuration_cons hflag]
          cases hp : processOption progname st opt with
          | error outcome =>
              rw [optionLoop_of_error hp, optionLoop_of_error hp]
              rfl
          | ok st' =>
              rw [optionLoop_of_ok hp, optionLoop_of_ok hp, ih]
              simp only [MainState.withFlags_cons hflag]

/-! ### Behind the loop -/

/-- Whether `-V` occurs matters, not how often. -/
theorem runTest_verbosity {T : DataType} {P : PolyType T} (ulong : Nat) (st : MainState)
    (theTest : CRCTest P) (operands : List (List Char)) :
    runTest ulong { st with verbosity := min st.verbosity 1 } theTest operands =
      runTest ulong st theTest operands := by
  have hpos : min st.verbosity 1 > 0 ↔ st.verbosity > 0 := by omega
  rw [runTest, runTest]
  simp only [hpos]

theorem finish_verbosity (ulong : Nat) (st : MainState) (operands : List (List Char)) :
    finish ulong progname { st with verbosity := min st.verbosity 1 } operands =
      finish ulong progname st operands := by
  rw [finish, finish]
  dsimp only
  split
  · rfl
  · rfl
  · rfl
  · next p _ _ =>
      rw [runNormal, runNormal]
      cases (st.factories p).createTest with
      | error e => rfl
      | ok t => exact runTest_verbosity ulong st t operands

/-- The flags of two lists of options are the same. -/
def SameFlags (opts opts' : List Opt) : Prop :=
  ∀ opt ∈ [Opt.writeTable, .search, .verify, .verbose, .binary], (opt ∈ opts ↔ opt ∈ opts')

theorem withFlags_eq_of_sameFlags {opts opts' : List Opt} (h : SameFlags opts opts')
    (st : MainState) :
    { st.withFlags opts with verbosity := min (st.withFlags opts).verbosity 1 } =
      { st.withFlags opts' with verbosity := min (st.withFlags opts').verbosity 1 } := by
  simp only [SameFlags, List.forall_mem_cons] at h
  obtain ⟨hw, hs, hv, hV, hb, -⟩ := h
  have hcount : min (st.verbosity + opts.count .verbose) 1 =
      min (st.verbosity + opts'.count .verbose) 1 := by
    rw [← List.count_pos_iff, ← List.count_pos_iff] at hV
    omega
  simp only [MainState.withFlags, hcount, hw, hs, hv, hb]

/-- **What a run depends on**: the options that are no flags, in their order, and which
flags there are. -/
theorem runFrom_eq_of_flags (ulong : Nat) (progname : List Char) (st : MainState)
    {opts opts' : List Opt} (hconfig : configuration opts = configuration opts')
    (hflags : SameFlags opts opts') (operands : List (List Char)) :
    runFrom ulong progname st opts operands = runFrom ulong progname st opts' operands := by
  rw [runFrom, runFrom, optionLoop_flags _ opts, optionLoop_flags _ opts', hconfig]
  cases optionLoop progname st (configuration opts') with
  | error outcome => rfl
  | ok st =>
      have heq := congrArg (finish ulong progname · operands)
        (withFlags_eq_of_sameFlags hflags st)
      simp only [finish_verbosity] at heq
      exact heq

end CrcPP
