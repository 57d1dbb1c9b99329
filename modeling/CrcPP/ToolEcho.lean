import CrcPP.ToolCommandLine
import CrcPP.ToolFlags

/-!
# CrcPP.ToolEcho

**The echo stands in front, and that is all.** `main` begins with writing its command line
to `std::cerr`. Nothing behind it looks at what stands there, so every function writes the
same behind any text (`usage_prepend`, `optionLoop_prepend`, `finish_prepend`), and a run is
the run without the echo, with the echo in front of its diagnostics (`main_echo`).

So two command lines that differ in where the flags stand, how often, and how all that
is spelled come to the same, up to the echo (`commandLine_eq_of_flags`).
-/

namespace CrcPP

variable (t : List Char)

/-! ### The writers -/

theorem CRCInfo.writePolyLoop_prepend {T : DataType} (P : PolyType T) (i : Nat) (g : T.Val)
    (s : OStream) :
    writePolyLoop P i g (s.prepend t) = (writePolyLoop P i g s).prepend t := by
  induction i generalizing g s with
  | zero => rfl
  | succ i ih =>
      rw [writePolyLoop, writePolyLoop, ← ih]
      congr 1
      split_ifs <;> simp only [OStream.str_prepend, OStream.num_prepend]

theorem CRCTest.describe_prepend {T : DataType} {P : PolyType T} (test : CRCTest P)
    (s : OStream) : test.describe (s.prepend t) = (test.describe s).prepend t := by
  simp [describe, CRCInfo.writePoly, CRCInfo.writePolyLoop_prepend]

theorem toHexLoop_prepend (maxBytes left : Nat) (p : List Char) (hexData : BitVec 64)
    (cerr : OStream) :
    toHexLoop maxBytes left p hexData (cerr.prepend t) =
      ((toHexLoop maxBytes left p hexData cerr).1,
        (toHexLoop maxBytes left p hexData cerr).2.prepend t) := by
  induction p generalizing left hexData cerr with
  | nil => cases left <;> rfl
  | cons c p ih =>
      cases left with
      | zero => simp [toHexLoop]
      | succ left =>
          rw [toHexLoop, toHexLoop]
          split_ifs
          · exact ih left _ cerr
          · exact ih left _ cerr
          · exact ih left _ cerr
          · rw [OStream.str_prepend, OStream.put_prepend, OStream.endl_prepend]
            exact ih left _ _

theorem toHex_prepend (p : List Char) (maxBytes : Nat) (cerr : OStream) :
    toHex p maxBytes (cerr.prepend t) =
      ((toHex p maxBytes cerr).1, (toHex p maxBytes cerr).2.prepend t) :=
  toHexLoop_prepend t maxBytes maxBytes p 0 cerr

/-! ### The usage text -/

theorem usageAlgorithms_prepend (fs : Factories) (list : List AlgorithmFactory)
    (cerr : OStream) :
    usageAlgorithms fs list (cerr.prepend t) =
      (usageAlgorithms fs list cerr).map (·.prepend t) := by
  induction list generalizing cerr with
  | nil => rfl
  | cons a list ih =>
      rw [usageAlgorithms, usageAlgorithms]
      cases (fs a.factory).createTest with
      | error e => rfl
      | ok test =>
          dsimp only [bind, Except.bind]
          rw [OStream.str_prepend, OStream.str_prepend, OStream.str_prepend,
            CRCTest.describe_prepend, OStream.endl_prepend, ih]

theorem usageGenerics_prepend (fs : Factories) (list : List AlgorithmFactory) (cerr : OStream) :
    usageGenerics fs list (cerr.prepend t) = (usageGenerics fs list cerr).prepend t := by
  induction list generalizing cerr with
  | nil => rfl
  | cons a list ih => simp [usageGenerics, ih]

theorem usage_prepend (fs : Factories) (progname : List Char) (cerr : OStream) :
    usage fs progname (cerr.prepend t) = (usage fs progname cerr).map (·.prepend t) := by
  simp only [usage, OStream.str_prepend, OStream.put_prepend, OStream.endl_prepend,
    usageAlgorithms_prepend]
  generalize usageAlgorithms fs algorithms _ = listed
  cases listed with
  | error e => rfl
  | ok cerr =>
      dsimp only [bind, Except.bind, Except.map]
      rw [OStream.endl_prepend, OStream.str_prepend, OStream.dec_prepend, OStream.endl_prepend,
        usageGenerics_prepend]
      simp [pure, Except.pure]

/-! ### States and outcomes -/

/-- The state with a text in front of its diagnostics. -/
def MainState.prepend (st : MainState) : MainState := { st with cerr := st.cerr.prepend t }

/-- The outcome with a text in front of its diagnostics. -/
def Outcome.prepend : Outcome → Outcome
  | .returned status cout cerr => .returned status cout (cerr.prepend t)
  | .raised e => .raised e

/-- A pass of the option loop with a text in front of the diagnostics. -/
def prependPass (pass : Except Outcome MainState) : Except Outcome MainState :=
  (pass.map (·.prepend t)).mapError (·.prepend t)

theorem MainState.complain_prepend (st : MainState) (message : String) :
    (st.prepend t).complain message = (st.complain message).prepend t := by
  simp [complain, prepend]

theorem MainState.usageReturn_prepend (st : MainState) (progname : List Char) (status : Nat) :
    (st.prepend t).usageReturn progname status = (st.usageReturn progname status).prepend t := by
  rw [usageReturn, usageReturn, prepend, usage_prepend]
  cases usage st.factories progname st.cerr <;> rfl

/-! ### The option loop -/

variable (progname : List Char)

theorem setParameter_prepend (st : MainState) (optarg : List Char) (message : String)
    (set : ICRCTestFactory → BitVec 64 → ICRCTestFactory) :
    setParameter progname (st.prepend t) optarg message set =
      prependPass t (setParameter progname st optarg message set) := by
  rw [setParameter, setParameter, show (st.prepend t).theFactory = st.theFactory from rfl]
  cases st.theFactory with
  | none =>
      rw [MainState.complain_prepend, MainState.usageReturn_prepend]
      rfl
  | some p =>
      dsimp only [MainState.prepend]
      rw [toHex_prepend]
      rfl

theorem processOption_prepend (st : MainState) (opt : Opt) :
    processOption progname (st.prepend t) opt = prependPass t (processOption progname st opt) := by
  cases opt with
  | «algorithm» name =>
      rw [processOption, processOption, show (st.prepend t).theFactory = st.theFactory from rfl]
      cases scanLists lists name st.theFactory with
      | none =>
          dsimp only [prependPass, Except.map, Except.mapError]
          rw [← MainState.usageReturn_prepend]
          simp [MainState.prepend]
      | some p => rfl
  | generator optarg => exact setParameter_prepend t progname st optarg _ _
  | invert optarg => exact setParameter_prepend t progname st optarg _ _
  | preset optarg => exact setParameter_prepend t progname st optarg _ _
  | help => exact congrArg Except.error (st.usageReturn_prepend t progname 0)
  | binary | search | verify | verbose | writeTable | other => rfl

theorem optionLoop_prepend (st : MainState) (opts : List Opt) :
    optionLoop progname (st.prepend t) opts = prependPass t (optionLoop progname st opts) :=
  optionLoop_map (f := (·.prepend t))
    (fun opt _ st => processOption_prepend t progname st opt) st

/-! ### Behind the loop -/

theorem readOperands_prepend (operands : List (List Char)) (cout cerr : OStream) :
    readOperands operands cout (cerr.prepend t) =
      ((readOperands operands cout cerr).1, (readOperands operands cout cerr).2.1,
        (readOperands operands cout cerr).2.2.prepend t) := by
  induction operands generalizing cout cerr with
  | nil => rfl
  | cons operand operands ih =>
      rw [readOperands, readOperands, toHex_prepend]
      dsimp only
      rw [ih]

theorem addOperands_prepend {T : DataType} {P : PolyType T} (binaryOutput : Bool)
    (operands : List (List Char)) (algo : CRCAlgorithm P) (cout cerr : OStream) :
    addOperands binaryOutput operands algo cout (cerr.prepend t) =
      ((addOperands binaryOutput operands algo cout cerr).1,
        (addOperands binaryOutput operands algo cout cerr).2.1,
        (addOperands binaryOutput operands algo cout cerr).2.2.prepend t) := by
  induction operands generalizing algo cout cerr with
  | nil => rfl
  | cons operand operands ih =>
      rw [addOperands, addOperands, toHex_prepend]
      dsimp only
      rw [ih]

theorem runSearch_prepend (st : MainState) (operands : List (List Char)) :
    runSearch progname (st.prepend t) operands = (runSearch progname st operands).prepend t := by
  rw [runSearch, runSearch, MainState.prepend, readOperands_prepend]
  generalize readOperands operands .new st.cerr = read
  obtain ⟨src, cout, cerr⟩ := read
  dsimp only
  split_ifs
  · rw [OStream.str_prepend, OStream.endl_prepend, usage_prepend]
    cases usage st.factories progname (cerr.str "Please specify data to be checked").endl <;> rfl
  · cases searchAlgorithms st.factories src algorithms false cout.endl with
    | error e => rfl
    | ok found =>
        obtain ⟨found, cout⟩ := found
        cases found with
        | true => rfl
        | false =>
            dsimp only [Outcome.prepend]
            rw [OStream.str_prepend, OStream.endl_prepend]

variable (ulong : Nat)

theorem runTest_prepend {T : DataType} {P : PolyType T} (st : MainState) (theTest : CRCTest P)
    (operands : List (List Char)) :
    runTest ulong (st.prepend t) theTest operands =
      (runTest ulong st theTest operands).prepend t := by
  rw [runTest, runTest, MainState.prepend]
  dsimp only
  rw [addOperands_prepend]
  split_ifs <;> rfl

theorem runNormal_prepend (st : MainState) (theFactory : ICRCTestFactory)
    (operands : List (List Char)) :
    runNormal ulong (st.prepend t) theFactory operands =
      (runNormal ulong st theFactory operands).prepend t := by
  rw [runNormal, runNormal]
  cases theFactory.createTest with
  | error ex => simp [MainState.prepend, Outcome.prepend]
  | ok theTest => exact runTest_prepend t ulong st theTest operands

theorem finish_prepend (st : MainState) (operands : List (List Char)) :
    finish ulong progname (st.prepend t) operands =
      (finish ulong progname st operands).prepend t := by
  rw [finish, finish, show (st.prepend t).theFactory = st.theFactory from rfl,
    show (st.prepend t).doSearch = st.doSearch from rfl]
  cases st.theFactory with
  | none =>
      cases st.doSearch with
      | false =>
          dsimp only
          rw [MainState.complain_prepend, MainState.usageReturn_prepend]
      | true =>
          dsimp only
          rw [show (st.prepend t).doWriteTable = st.doWriteTable from rfl]
          split_ifs
          · rw [MainState.complain_prepend, MainState.usageReturn_prepend]
          · exact runSearch_prepend t progname st operands
  | some p =>
      cases st.doSearch with
      | false => exact runNormal_prepend t ulong st (st.factories p) operands
      | true =>
          dsimp only
          rw [MainState.complain_prepend, MainState.usageReturn_prepend]

theorem runFrom_prepend (st : MainState) (opts : List Opt) (operands : List (List Char)) :
    runFrom ulong progname (st.prepend t) opts operands =
      (runFrom ulong progname st opts operands).prepend t := by
  rw [runFrom, runFrom, optionLoop_prepend]
  cases optionLoop progname st opts with
  | error outcome => rfl
  | ok st' => exact finish_prepend t progname ulong st' operands

/-! ### The echo -/

/-- The echo of the command line. -/
def echoText (argv : List (List Char)) : List Char := argv.flatMap (· ++ [' ']) ++ ['\n']

theorem echo_new (argv : List (List Char)) : echo argv .new = ⟨echoText argv, .dec, ' ', 0⟩ := by
  have hargs : ∀ t : List Char,
      argv.foldl (fun cerr arg => (cerr.put arg).str " ") (⟨t, .dec, ' ', 0⟩ : OStream) =
        ⟨t ++ argv.flatMap (· ++ [' ']), .dec, ' ', 0⟩ := by
    induction argv with
    | nil => simp
    | cons arg argv ih =>
        intro t
        rw [List.foldl_cons, OStream.put_mk, OStream.str_mk, ih, List.flatMap_cons]
        simp only [List.append_assoc]
        rfl
  rw [echo, OStream.new, hargs, OStream.endl_mk, echoText, List.nil_append]

/-- **The echo is only in front**: a run is the run without it, with the echo in front of the
diagnostics. -/
theorem main_echo (argv : List (List Char)) (opts : List Opt) (operands : List (List Char)) :
    main ulong argv opts operands =
      (runFrom ulong (argv.headD []) (.init .new) opts operands).prepend (echoText argv) := by
  have hinit : MainState.init (echo argv .new) = (MainState.init .new).prepend (echoText argv) := by
    rw [echo_new, MainState.prepend, OStream.prepend]
    simp [MainState.init, OStream.new]
  rw [← runFrom_prepend, ← hinit]
  rfl

/-- **What a run depends on**: two command lines of one program name with the same operands,
the same options that are no flags, in their order, and the same flags come to the same,
each behind its own echo. -/
theorem commandLine_eq_of_flags {argv argv' : List (List Char)}
    (hname : argv.headD [] = argv'.headD [])
    (hconfig : configuration (parsedOptions argv) = configuration (parsedOptions argv'))
    (hflags : SameFlags (parsedOptions argv) (parsedOptions argv'))
    (hoperands : parsedOperands argv = parsedOperands argv') {fuel fuel' : Nat}
    (hfuel : CommandLine.size argv.tail < fuel) (hfuel' : CommandLine.size argv'.tail < fuel') :
    ∃ outcome : Outcome,
      commandLine ulong fuel argv = some (outcome.prepend (echoText argv)) ∧
      commandLine ulong fuel' argv' = some (outcome.prepend (echoText argv')) := by
  have hrun := runFrom_eq_of_flags ulong (argv'.headD []) (.init .new) hconfig hflags
    (parsedOperands argv')
  refine ⟨runFrom ulong (argv'.headD []) (.init .new) (parsedOptions argv') (parsedOperands argv'),
    ?_, ?_⟩
  · rw [commandLine_run ulong argv hfuel, main_echo, hname, hoperands, hrun]
  · rw [commandLine_run ulong argv' hfuel', main_echo]

/-- `crc -V -a crc8 -b -V 31 32` and `crc -bVa crc8 31 32`. -/
theorem commandLine_eq_of_flags_crc8 :
    ∃ outcome : Outcome,
      commandLine 64 30 ["crc".toList, "-V".toList, "-a".toList, "crc8".toList, "-b".toList,
          "-V".toList, "31".toList, "32".toList] =
        some (outcome.prepend "crc -V -a crc8 -b -V 31 32 \n".toList) ∧
      commandLine 64 20 ["crc".toList, "-bVa".toList, "crc8".toList, "31".toList, "32".toList] =
        some (outcome.prepend "crc -bVa crc8 31 32 \n".toList) := by
  have hV := spelling_flag (show toolGrammar.short 'V' = some ('V', false) by decide) (by decide)
  have hb := spelling_flag (show toolGrammar.short 'b' = some ('b', false) by decide) (by decide)
  have ha := spelling_value (show toolGrammar.short 'a' = some ('a', true) by decide) (by decide)
    "crc8".toList
  have hparse : CommandLine.parse toolGrammar ["-V".toList, "-a".toList, "crc8".toList,
      "-b".toList, "-V".toList, "31".toList, "32".toList] =
        ([.verbose, .algorithm "crc8".toList, .binary, .verbose].map Opt.item,
          ["31".toList, "32".toList]) :=
    CommandLine.parse_spells_operands (.cons hV (.cons ha (.cons hb (.cons hV .nil)))) (by decide)
  have hflags : List.Forall₂ (fun c o => toolGrammar.short c = some (o, false)) ['b', 'V']
      ['b', 'V'] := .cons (by decide) (.cons (by decide) .nil)
  have hbundle := CommandLine.Spelling.separate "crc8".toList hflags
    (show toolGrammar.short 'a' = some ('a', true) by decide) (by decide)
  have hparse' : CommandLine.parse toolGrammar ["-bVa".toList, "crc8".toList, "31".toList,
      "32".toList] =
        ([.binary, .verbose, .algorithm "crc8".toList].map Opt.item, ["31".toList, "32".toList]) :=
    CommandLine.parse_spells_operands (.single hbundle) (by decide)
  have hconfig : configuration (parsedOptions ["crc".toList, "-V".toList, "-a".toList,
      "crc8".toList, "-b".toList, "-V".toList, "31".toList, "32".toList]) =
        configuration (parsedOptions ["crc".toList, "-bVa".toList, "crc8".toList, "31".toList,
          "32".toList]) := by
    rw [parsedOptions_of_parse "crc".toList hparse, parsedOptions_of_parse "crc".toList hparse']
    simp [configuration, Opt.isFlag]
  have hsame : SameFlags (parsedOptions ["crc".toList, "-V".toList, "-a".toList, "crc8".toList,
      "-b".toList, "-V".toList, "31".toList, "32".toList])
        (parsedOptions ["crc".toList, "-bVa".toList, "crc8".toList, "31".toList, "32".toList]) := by
    rw [parsedOptions_of_parse "crc".toList hparse, parsedOptions_of_parse "crc".toList hparse']
    simp [SameFlags]
  have hoperands := (parsedOperands_of_parse "crc".toList hparse).trans
    (parsedOperands_of_parse "crc".toList hparse').symm
  exact commandLine_eq_of_flags 64 (by rfl) hconfig hsame hoperands (by decide) (by decide)

end CrcPP
