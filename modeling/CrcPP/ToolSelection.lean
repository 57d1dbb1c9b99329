import CrcPP.ToolEcho
import CrcPP.ToolReading
import Mathlib.Data.List.TakeWhile

/-!
# CrcPP.ToolSelection

**What a run of the tool comes to**, for any options. Behind an `-a` that selects an
algorithm every option but `-h` goes on with the loop: it may select another algorithm, and
change the factory that is selected (`optionLoop_selection`). So a run gets through the loop
when the first option that is no flag selects an algorithm, or there is none. The flags decide
whether the normal operation or a search follows; all other runs end with a line that says
why and the usage text, or with the exception that `usage` lets through when a built-in
algorithm's factory holds a generator without an `X^0` term (`main_destination`).
-/

namespace CrcPP

/-! ### Selections -/

/-- The selected factory, and what all of them contain. -/
structure Selection where
  theFactory : FactoryPtr
  factories : Factories

/-- What is written about the argument of an option. -/
def Opt.complaints (maxBytes : Nat) : Opt → List Char
  | .generator optarg | .invert optarg | .preset optarg => hexComplaints optarg maxBytes
  | _ => []

namespace Selection

/-- The selected factory's contents. -/
def factory (s : Selection) : ICRCTestFactory := s.factories s.theFactory

/-- What an option changes. -/
def apply (s : Selection) (opt : Opt) : Selection where
  theFactory := opt.select s.theFactory
  factories := Function.update s.factories s.theFactory (opt.configure s.factory)

def applyAll (s : Selection) (opts : List Opt) : Selection := opts.foldl apply s

/-- What is written about the arguments of the options. -/
def complaints : Selection → List Opt → List Char
  | _, [] => []
  | s, opt :: opts => opt.complaints (s.factory.numBytes * 2) ++ complaints (s.apply opt) opts

/-- Behind the first `-a`. -/
def start (a : AlgorithmFactory) : Selection := ⟨a.factory, initialFactories⟩

end Selection

/-- The state with a selection. -/
def MainState.withSelection (st : MainState) (s : Selection) (cerr : OStream) : MainState :=
  { st with theFactory := some s.theFactory, factories := s.factories, cerr := cerr }

/-! ### The option loop -/

variable (progname : List Char)

/-- One pass behind a selection. -/
theorem processOption_select {opt : Opt} (hopt : opt.isFlag = false) (hhelp : opt ≠ .help)
    (st : MainState) (s : Selection) (t : List Char) (fill : Char) :
    processOption progname (st.withSelection s ⟨t, .dec, fill, 0⟩) opt =
      .ok (st.withSelection (s.apply opt)
        ⟨t ++ opt.complaints (s.factory.numBytes * 2), .dec, fill, 0⟩) := by
  cases opt with
  | «algorithm» name =>
      have hscan : scanLists lists name (some s.theFactory) =
          some ((lookup generics name).getD s.theFactory) := by
        rw [scanLists_eq]
        cases lookup generics name <;> rfl
      rw [processOption_algorithm hscan]
      simp [MainState.withSelection, Selection.apply, Selection.factory, Opt.select, Opt.configure,
        Opt.complaints]
  | generator optarg | invert optarg | preset optarg =>
      rw [processOption, setParameter, MainState.withSelection]
      dsimp only
      rw [toHex_mk, MainState.update_eq, ← hexValue_eq]
      rfl
  | help => exact absurd rfl hhelp
  | binary | search | verify | verbose | writeTable | other => simp [Opt.isFlag] at hopt

/-- **Behind a selection** the loop goes through the options, unless `-h` is among them. -/
theorem optionLoop_selection (st : MainState) (s : Selection) (t : List Char) (fill : Char)
    {opts : List Opt} (hopts : ∀ opt ∈ opts, opt.isFlag = false) (hhelp : .help ∉ opts) :
    optionLoop progname (st.withSelection s ⟨t, .dec, fill, 0⟩) opts =
      .ok (st.withSelection (s.applyAll opts) ⟨t ++ s.complaints opts, .dec, fill, 0⟩) := by
  induction opts generalizing s t with
  | nil => rw [Selection.complaints, List.append_nil]; rfl
  | cons opt opts ih =>
      have hne : opt ≠ .help := fun h => hhelp (h ▸ List.mem_cons_self)
      have hstep := processOption_select progname (hopts opt List.mem_cons_self) hne st s t fill
      rw [optionLoop_of_ok hstep, ih _ _ (fun o ho => hopts o (List.mem_cons_of_mem opt ho))
        fun h => hhelp (List.mem_cons_of_mem opt h), Selection.complaints, List.append_assoc]
      rfl

/-- With `-h` it ends there, behind the options in front. -/
theorem optionLoop_help (st : MainState) (s : Selection) (t : List Char) (fill : Char)
    {opts : List Opt} (hopts : ∀ opt ∈ opts, opt.isFlag = false) (hhelp : .help ∈ opts) :
    optionLoop progname (st.withSelection s ⟨t, .dec, fill, 0⟩) opts =
      .error ((st.withSelection (s.applyAll (opts.takeWhile (· ≠ .help)))
        ⟨t ++ s.complaints (opts.takeWhile (· ≠ .help)), .dec, fill, 0⟩).usageReturn
          progname 0) := by
  obtain ⟨pre, post, rfl, hpre⟩ := List.eq_append_cons_of_mem hhelp
  have hne : ∀ opt ∈ pre, opt ≠ .help := fun opt ho h => hpre (h ▸ ho)
  have hread : (pre ++ .help :: post).takeWhile (· ≠ .help) = pre := by
    rw [List.takeWhile_append_of_pos fun opt ho => decide_eq_true (hne opt ho),
      List.takeWhile_cons_of_neg (by simp), List.append_nil]
  have hloop := optionLoop_selection progname st s t fill
    (fun opt ho => hopts opt (List.mem_append_left _ ho)) hpre
  rw [hread, optionLoop_append, hloop]
  rfl

/-- The first `-a`. -/
theorem processOption_start {a : AlgorithmFactory} (ha : a ∈ generics ++ algorithms)
    (cerr : OStream) :
    processOption progname (.init cerr) (.algorithm a.name.toList) =
      .ok ((MainState.init cerr).withSelection (.start a) cerr) :=
  processOption_algorithm (scanLists_unselected ha)

/-- The state with a selection and what has been written about the arguments. -/
def selectedState (argv : List (List Char)) (s : Selection) (complaints : List Char) : MainState :=
  (MainState.init (echo argv .new)).withSelection s
    ⟨echoText argv ++ complaints, .dec, ' ', 0⟩

/-- The loop when the first option that is no flag selects an algorithm. -/
theorem optionLoop_start {a : AlgorithmFactory} (ha : a ∈ generics ++ algorithms)
    {opts rest : List Opt} (hopts : configuration opts = .algorithm a.name.toList :: rest)
    (argv : List (List Char)) :
    optionLoop progname (.init (echo argv .new)) (configuration opts) =
      optionLoop progname (selectedState argv (.start a) []) rest := by
  rw [hopts, optionLoop_of_ok (processOption_start progname ha _), selectedState, List.append_nil,
    echo_new]

/-- It gets through the options behind. -/
theorem optionLoop_selected {a : AlgorithmFactory} (ha : a ∈ generics ++ algorithms)
    {opts rest : List Opt} (hopts : configuration opts = .algorithm a.name.toList :: rest)
    (hhelp : .help ∉ rest) (argv : List (List Char)) :
    optionLoop progname (.init (echo argv .new)) (configuration opts) =
      .ok (selectedState argv ((Selection.start a).applyAll rest)
        ((Selection.start a).complaints rest)) := by
  have hrest : ∀ opt ∈ rest, opt.isFlag = false := fun opt ho =>
    isFlag_of_mem_configuration (hopts ▸ List.mem_cons_of_mem _ ho)
  rw [optionLoop_start progname ha hopts, selectedState, optionLoop_selection progname _ _ _ _
    hrest hhelp, List.append_nil]
  rfl

/-! ### The run -/

section Main

variable {argv : List (List Char)} {opts : List Opt}

theorem main_of_loop {st : MainState}
    (h : optionLoop (argv.headD []) (.init (echo argv .new)) (configuration opts) = .ok st)
    (ulong : Nat) (operands : List (List Char)) :
    main ulong argv opts operands = finish ulong (argv.headD []) (st.withFlags opts) operands := by
  rw [main, optionLoop_flags, h]
  rfl

theorem main_of_error {outcome : Outcome}
    (h : optionLoop (argv.headD []) (.init (echo argv .new)) (configuration opts) = .error outcome)
    (ulong : Nat) (operands : List (List Char)) : main ulong argv opts operands = outcome := by
  rw [main, optionLoop_flags, h]
  rfl

end Main

/-! ### The usage text -/

/-- `usage(argv[0]); return status;` behind the given text. What `usage` throws for a built-in
algorithm whose generator its constructor rejects is raised. -/
def usageOutcome (fs : Factories) (progname text : List Char) (status : Nat) : Outcome :=
  match usage fs progname ⟨text, .dec, ' ', 0⟩ with
  | .ok cerr => .returned status .new cerr
  | .error e => .raised e

theorem usageReturn_eq {st : MainState} {text : List Char} (h : st.cerr = ⟨text, .dec, ' ', 0⟩)
    (progname : List Char) (status : Nat) :
    st.usageReturn progname status = usageOutcome st.factories progname text status := by
  rw [MainState.usageReturn, h]
  rfl

/-- A line of a message. -/
def line (message : String) : List Char := message.toList ++ ['\n']

theorem complain_cerr {st : MainState} {text : List Char} (h : st.cerr = ⟨text, .dec, ' ', 0⟩)
    (message : String) : (st.complain message).cerr = ⟨text ++ line message, .dec, ' ', 0⟩ := by
  rw [MainState.complain, h, OStream.str_mk, OStream.endl_mk, line, List.append_assoc]

/-! ### Destinations -/

/-- What a run comes to behind the option loop, with what the loop leaves: the normal
operation, a search, or the usage text behind a reason, unless that raises an exception. -/
inductive Destination
  | normal (s : Selection) (complaints : List Char)
  | search
  | usage (status : Nat) (fs : Factories) (reason : List Char)

/-- Where the options lead to. -/
def destination (opts : List Opt) : Destination :=
  match configuration opts with
  | [] =>
    if .search ∈ opts then
      if .writeTable ∈ opts then
        .usage 1 initialFactories (line "--search and --write-table are mutually exclusive.")
      else .search
    else .usage 1 initialFactories (line "No algorithm selected.")
  | .algorithm name :: rest =>
    match (generics ++ algorithms).find? fun a => a.name.toList = name with
    | none =>
      .usage 1 initialFactories ("No algorithm with that name: ".toList ++ name ++ ['\n'])
    | some a =>
      -- the options that the loop gets to
      let read := rest.takeWhile (· ≠ .help)
      let s := (Selection.start a).applyAll read
      let complaints := (Selection.start a).complaints read
      if .help ∈ rest then .usage 0 s.factories complaints
      else if .search ∈ opts then
        .usage 1 s.factories (complaints ++ line "Do not specify algorithm with --search.")
      else .normal s complaints
  | .generator _ :: _ =>
    .usage 1 initialFactories (line "Base algorithm must be specified before --generator")
  | .invert _ :: _ =>
    .usage 1 initialFactories (line "Base algorithm must be specified before --invert")
  | .preset _ :: _ =>
    .usage 1 initialFactories (line "Base algorithm must be specified before --preset")
  | _ :: _ => .usage 0 initialFactories []

/-- What happens there. -/
def Destination.run (ulong : Nat) (argv : List (List Char)) (opts : List Opt)
    (operands : List (List Char)) : Destination → Outcome
  | .normal s complaints =>
    runNormal ulong ((selectedState argv s complaints).withFlags opts) s.factory operands
  | .search => runSearch (argv.headD []) ((MainState.init (echo argv .new)).withFlags opts) operands
  | .usage status fs reason => usageOutcome fs (argv.headD []) (echoText argv ++ reason) status

section Destination

variable (ulong : Nat) (argv : List (List Char)) {opts rest : List Opt}
  (operands : List (List Char))

/-- Nothing is selected. -/
theorem main_unselected (hopts : configuration opts = []) :
    main ulong argv opts operands = (destination opts).run ulong argv opts operands := by
  have hloop : optionLoop (argv.headD []) (.init (echo argv .new)) (configuration opts) =
      .ok (.init (echo argv .new)) := by
    rw [hopts]
    rfl
  have hs : ((MainState.init (echo argv .new)).withFlags opts).doSearch =
      decide (.search ∈ opts) := by
    simp [MainState.withFlags, MainState.init]
  have hw : ((MainState.init (echo argv .new)).withFlags opts).doWriteTable =
      decide (.writeTable ∈ opts) := by
    simp [MainState.withFlags, MainState.init]
  have hcerr : ((MainState.init (echo argv .new)).withFlags opts).cerr =
      ⟨echoText argv, .dec, ' ', 0⟩ := echo_new argv
  rw [main_of_loop hloop, finish, hs, hw, destination, hopts]
  by_cases hsearch : .search ∈ opts
  · rw [decide_eq_true hsearch, if_pos hsearch]
    by_cases hwrite : .writeTable ∈ opts
    · rw [decide_eq_true hwrite, if_pos hwrite]
      exact usageReturn_eq (complain_cerr hcerr _) _ _
    · rw [decide_eq_false hwrite, if_neg hwrite]
      rfl
  · rw [decide_eq_false hsearch, if_neg hsearch]
    exact usageReturn_eq (complain_cerr hcerr _) _ _

/-- An option that ends the loop at once. -/
theorem main_of_first {opt : Opt} {outcome : Outcome} (hopts : configuration opts = opt :: rest)
    (h : processOption (argv.headD []) (.init (echo argv .new)) opt = .error outcome) :
    main ulong argv opts operands = outcome :=
  main_of_error (hopts ▸ optionLoop_of_error h rest) ulong operands

/-- The normal operation of the selected factory. -/
theorem main_eq_runNormal {a : AlgorithmFactory} (ha : a ∈ generics ++ algorithms)
    (hopts : configuration opts = .algorithm a.name.toList :: rest) (hhelp : .help ∉ rest)
    (hsearch : .search ∉ opts) :
    main ulong argv opts operands =
      runNormal ulong
        ((selectedState argv ((Selection.start a).applyAll rest)
          ((Selection.start a).complaints rest)).withFlags opts)
        ((Selection.start a).applyAll rest).factory operands := by
  rw [main_of_loop (optionLoop_selected _ ha hopts hhelp argv)]
  generalize (Selection.start a).applyAll rest = s
  generalize (Selection.start a).complaints rest = complaints
  have hf : ((selectedState argv s complaints).withFlags opts).theFactory = some s.theFactory := rfl
  have hs : ((selectedState argv s complaints).withFlags opts).doSearch = false := by
    simp [MainState.withFlags, selectedState, MainState.withSelection, MainState.init, hsearch]
  rw [finish, hf, hs]
  rfl

/-- An algorithm is selected. -/
theorem main_selected {a : AlgorithmFactory} {name : List Char}
    (ha : (generics ++ algorithms).find? (fun a => a.name.toList = name) = some a)
    (hopts : configuration opts = .algorithm name :: rest) :
    main ulong argv opts operands = (destination opts).run ulong argv opts operands := by
  have hmem : a ∈ generics ++ algorithms := List.mem_of_find?_eq_some ha
  obtain rfl : a.name.toList = name := by simpa using List.find?_some ha
  simp only [destination, hopts, ha]
  by_cases hhelp : .help ∈ rest
  · have hrest : ∀ opt ∈ rest, opt.isFlag = false := fun opt ho =>
      isFlag_of_mem_configuration (hopts ▸ List.mem_cons_of_mem _ ho)
    rw [if_pos hhelp]
    refine main_of_error ((optionLoop_start _ hmem hopts argv).trans ?_) ulong operands
    rw [selectedState, optionLoop_help _ _ _ _ _ hrest hhelp, List.append_nil]
    exact congrArg _ (usageReturn_eq rfl _ _)
  · have hread : rest.takeWhile (· ≠ .help) = rest :=
      List.takeWhile_eq_self_iff.mpr fun opt ho => decide_eq_true fun h => hhelp (h ▸ ho)
    rw [if_neg hhelp, hread]
    by_cases hsearch : .search ∈ opts
    · rw [if_pos hsearch, main_of_loop (optionLoop_selected _ hmem hopts hhelp argv)]
      generalize (Selection.start a).applyAll rest = s
      generalize (Selection.start a).complaints rest = complaints
      have hf : ((selectedState argv s complaints).withFlags opts).theFactory =
          some s.theFactory := rfl
      have hs : ((selectedState argv s complaints).withFlags opts).doSearch = true := by
        simp [MainState.withFlags, hsearch]
      have hcerr : ((selectedState argv s complaints).withFlags opts).cerr =
          ⟨echoText argv ++ complaints, .dec, ' ', 0⟩ := rfl
      rw [finish, hf, hs]
      refine (usageReturn_eq (complain_cerr hcerr _) _ _).trans ?_
      rw [List.append_assoc]
      rfl
    · rw [if_neg hsearch]
      exact main_eq_runNormal ulong argv operands hmem hopts hhelp hsearch

/-- **What every run comes to**, for any options and operands: an option loop with its state
is replaced by what the options say together. -/
theorem main_destination (ulong : Nat) (argv : List (List Char)) (opts : List Opt)
    (operands : List (List Char)) :
    main ulong argv opts operands = (destination opts).run ulong argv opts operands := by
  cases hconfig : configuration opts with
  | nil => exact main_unselected ulong argv operands hconfig
  | cons opt rest =>
      have hcerr : (MainState.init (echo argv .new)).cerr = ⟨echoText argv, .dec, ' ', 0⟩ :=
        echo_new argv
      cases opt with
      | «algorithm» name =>
          cases ha : (generics ++ algorithms).find? fun a => a.name.toList = name with
          | some a => exact main_selected ulong argv operands ha hconfig
          | none =>
              have hno : ∀ a ∈ generics ++ algorithms, a.name.toList ≠ name := fun a hmem => by
                simpa using List.find?_eq_none.mp ha a hmem
              simp only [destination, hconfig, ha]
              refine main_of_first ulong argv operands hconfig
                ((processOption_unknown (scanLists_unknown hno none)).trans ?_)
              rw [Destination.run]
              refine congrArg _ (usageReturn_eq ?_ _ _)
              rw [hcerr, OStream.str_mk, OStream.put_mk, OStream.endl_mk]
              simp only [List.append_assoc]
      | generator optarg | invert optarg | preset optarg =>
          simp only [destination, hconfig]
          refine main_of_first ulong argv operands hconfig ?_
          exact congrArg _ (usageReturn_eq (complain_cerr hcerr _) _ _)
      | help =>
          simp only [destination, hconfig]
          refine main_of_first ulong argv operands hconfig ?_
          rw [Destination.run, List.append_nil]
          exact congrArg _ (usageReturn_eq hcerr _ _)
      | binary | search | verify | verbose | writeTable | other =>
          have hflag := isFlag_of_mem_configuration (hconfig ▸ List.mem_cons_self)
          simp [Opt.isFlag] at hflag

/-- `crc -b -g 07 --help`. -/
example : destination [.binary, .generator "07".toList, .help] =
    .usage 1 initialFactories (line "Base algorithm must be specified before --generator") := rfl

end Destination

end CrcPP
