import CrcPP.Tool

/-!
# CrcPP.ToolOptions

**When an `-a` does what it says.** The scan behind `-a` leaves its loops, and tests
for failure, by looking at `theFactory`, which an earlier `-a` may have set already
(`scanLists_eq`): the lists behind the first one are then not searched at all, and an
unknown name goes unnoticed. So an `-a` takes effect or is rejected exactly when
nothing is selected yet, when it names a generic algorithm, or when it names the
algorithm that is selected already (`algorithm_option_iff`).

The module starts with what the other results about the tool need as well: names in
the tables, when the usage text can be printed, and what one pass of the option loop
does to the selection and the factories (`processOption_selection`).
-/

namespace CrcPP

/-! ### Names -/

/-- The factory that `list` has under a name. -/
def lookup (list : List AlgorithmFactory) (name : List Char) : Option FactoryPtr :=
  (list.find? (fun a => a.name.toList = name)).map (·.factory)

theorem lookup_eq_none_iff {list : List AlgorithmFactory} {name : List Char} :
    lookup list name = none ↔ ∀ a ∈ list, a.name.toList ≠ name := by
  simp [lookup]

theorem exists_of_lookup {list : List AlgorithmFactory} {name : List Char} {p : FactoryPtr}
    (h : lookup list name = some p) : ∃ a ∈ list, a.name.toList = name ∧ a.factory = p := by
  obtain ⟨a, ha, rfl⟩ := Option.map_eq_some_iff.mp h
  exact ⟨a, List.mem_of_find?_eq_some ha, by simpa using List.find?_some ha, rfl⟩

/-- No two algorithms have one name. -/
theorem names_nodup :
    ((generics.map fun a => a.name.toList) ++ algorithms.map fun a => a.name.toList).Nodup := by
  decide +kernel

theorem lookup_of_mem {list : List AlgorithmFactory}
    (hnodup : (list.map fun a => a.name.toList).Nodup) {a : AlgorithmFactory} (ha : a ∈ list) :
    lookup list a.name.toList = some a.factory := by
  induction list with
  | nil => cases ha
  | cons b list ih =>
      rw [List.map_cons, List.nodup_cons] at hnodup
      rw [lookup]
      obtain rfl | ha := List.mem_cons.mp ha
      · rw [List.find?_cons_of_pos (by simp)]
        rfl
      · have hne : b.name.toList ≠ a.name.toList := fun h =>
          hnodup.1 (h ▸ List.mem_map_of_mem ha)
        rw [List.find?_cons_of_neg (by simpa using hne)]
        exact ih hnodup.2 ha

theorem lookup_generics : ∀ a ∈ generics, lookup generics a.name.toList = some a.factory :=
  fun _ ha => lookup_of_mem (List.nodup_append.mp names_nodup).1 ha

theorem lookup_algorithms :
    ∀ a ∈ algorithms, lookup algorithms a.name.toList = some a.factory :=
  fun _ ha => lookup_of_mem (List.nodup_append.mp names_nodup).2.1 ha

theorem lookup_generics_of_algorithms :
    ∀ a ∈ algorithms, lookup generics a.name.toList = none := by
  intro a ha
  rw [lookup_eq_none_iff]
  intro g hg
  exact (List.nodup_append.mp names_nodup).2.2 _ (List.mem_map_of_mem hg) _
    (List.mem_map_of_mem ha)

theorem scanList_eq (list : List AlgorithmFactory) (name : List Char) (f : Option FactoryPtr) :
    scanList list name f = (lookup list name).or f := by
  induction list with
  | nil => rfl
  | cons a list ih =>
      rw [scanList]
      by_cases h : a.name.toList = name
      · simp [lookup, h]
      · simp [lookup, h, ih]

/-- **What the scan finds.** The built-in algorithms are only searched when nothing was
selected before. -/
theorem scanLists_eq (name : List Char) (f : Option FactoryPtr) :
    scanLists lists name f = (lookup generics name).or (f.or (lookup algorithms name)) := by
  rw [lists, scanLists, scanList_eq]
  cases lookup generics name with
  | some p => rfl
  | none =>
      cases f with
      | some p => rfl
      | none =>
          rw [Option.none_or, Option.none_or, scanLists, scanList_eq, Option.or_none]
          cases lookup algorithms name <;> rfl

/-- With nothing selected, every name in the tables is found. -/
theorem scanLists_unselected {a : AlgorithmFactory} (ha : a ∈ generics ++ algorithms) :
    scanLists lists a.name.toList none = some a.factory := by
  rw [scanLists_eq]
  obtain hg | hb := List.mem_append.mp ha
  · rw [lookup_generics a hg, Option.some_or]
  · rw [lookup_generics_of_algorithms a hb, Option.none_or, Option.none_or,
      lookup_algorithms a hb]

/-- An unknown name leaves what was selected before. -/
theorem scanLists_unknown {name : List Char}
    (hno : ∀ a ∈ generics ++ algorithms, a.name.toList ≠ name) (f : Option FactoryPtr) :
    scanLists lists name f = f := by
  have hg : lookup generics name = none :=
    lookup_eq_none_iff.mpr fun a ha => hno a (List.mem_append_left _ ha)
  have hb : lookup algorithms name = none :=
    lookup_eq_none_iff.mpr fun a ha => hno a (List.mem_append_right _ ha)
  rw [scanLists_eq, hg, hb, Option.none_or, Option.or_none]

/-! ### The usage text -/

/-- Every built-in algorithm can create its test. -/
def builtinsOk (fs : Factories) : Bool := algorithms.all fun a => (fs a.factory).createTest.isOk

theorem usageAlgorithms_isOk (fs : Factories) (list : List AlgorithmFactory) (cerr : OStream) :
    (usageAlgorithms fs list cerr).isOk = list.all fun a => (fs a.factory).createTest.isOk := by
  induction list generalizing cerr with
  | nil => rfl
  | cons a list ih =>
      rw [usageAlgorithms, List.all_cons]
      cases (fs a.factory).createTest with
      | error e => rfl
      | ok t => exact ih _

/-- The usage text comes out when every built-in algorithm can create its test. -/
theorem usage_isOk (fs : Factories) (progname : List Char) (cerr : OStream) :
    (usage fs progname cerr).isOk = builtinsOk fs := by
  -- behind the loop over the built-in algorithms nothing can fail
  have hbind : ∀ (x : Except LogicError OStream) (f : OStream → OStream),
      (x >>= fun cerr => return f cerr).isOk = x.isOk := by
    intro x f
    cases x <;> rfl
  rw [builtinsOk, ← usageAlgorithms_isOk fs algorithms]
  exact hbind _ _

theorem initial_builtinsOk : builtinsOk initialFactories = true := by
  rw [builtinsOk, List.all_eq_true]
  intro a ha
  rw [ICRCTestFactory.createTest_isOk_iff]
  revert a
  decide

theorem usageReturn_of_builtinsOk (st : MainState) (h : builtinsOk st.factories = true)
    (progname : List Char) (status : Nat) :
    ∃ cerr, st.usageReturn progname status = .returned status .new cerr := by
  rw [← usage_isOk st.factories progname st.cerr] at h
  rw [MainState.usageReturn]
  cases hu : usage st.factories progname st.cerr with
  | ok cerr => exact ⟨cerr, rfl⟩
  | error e =>
      rw [hu] at h
      exact absurd h Bool.false_ne_true

/-! ### One pass of the option loop -/

variable {progname : List Char}

theorem toHexLoop_fst (maxBytes left : Nat) (p : List Char) (hexData : BitVec 64)
    (cerr cerr' : OStream) :
    (toHexLoop maxBytes left p hexData cerr).1 = (toHexLoop maxBytes left p hexData cerr').1 := by
  induction p generalizing left hexData cerr cerr' with
  | nil => cases left <;> rfl
  | cons c p ih =>
      cases left with
      | zero => rfl
      | succ left =>
          rw [toHexLoop, toHexLoop]
          split_ifs
          · exact ih _ _ _ _
          · exact ih _ _ _ _
          · exact ih _ _ _ _
          · exact ih _ _ _ _

/-- The value of `toHex`, which does not depend on the stream. -/
def hexValue (p : List Char) (maxBytes : Nat) : BitVec 64 := (toHex p maxBytes .new).1

theorem toHex_fst (p : List Char) (maxBytes : Nat) (cerr : OStream) :
    (toHex p maxBytes cerr).1 = hexValue p maxBytes :=
  toHexLoop_fst maxBytes maxBytes p 0 cerr .new

/-- The algorithm that is selected behind an option when `p` is selected in front of it. -/
def Opt.select : Opt → FactoryPtr → FactoryPtr
  | .algorithm name, p => (lookup generics name).getD p
  | _, p => p

/-- What an option makes of the selected factory. -/
def Opt.configure : Opt → ICRCTestFactory → ICRCTestFactory
  | .generator optarg, f => f.setGenerator (hexValue optarg (f.numBytes * 2))
  | .invert optarg, f => f.setInvert (hexValue optarg (f.numBytes * 2))
  | .preset optarg, f => f.setPreset (hexValue optarg (f.numBytes * 2))
  | _, f => f

theorem processOption_algorithm {st : MainState} {name : List Char} {p : FactoryPtr}
    (h : scanLists lists name st.theFactory = some p) :
    processOption progname st (.algorithm name) = .ok { st with theFactory := some p } := by
  rw [processOption, h]

theorem processOption_unknown {st : MainState} {name : List Char}
    (h : scanLists lists name st.theFactory = none) :
    processOption progname st (.algorithm name) =
      .error ({ st with
        cerr := ((st.cerr.str "No algorithm with that name: ").put name).endl }.usageReturn
          progname 1) := by
  rw [processOption, h]

theorem MainState.update_eq (st : MainState) (p : FactoryPtr) (f : ICRCTestFactory) :
    st.update p f = { st with factories := Function.update st.factories p f } := by
  rw [MainState.update]
  congr 1
  funext q
  rw [Function.update_apply]

theorem setParameter_unselected {st : MainState} (hf : st.theFactory = none)
    (optarg : List Char) (message : String)
    (set : ICRCTestFactory → BitVec 64 → ICRCTestFactory) :
    setParameter progname st optarg message set =
      .error ((st.complain message).usageReturn progname 1) := by
  rw [setParameter, hf]

theorem setParameter_selected {st : MainState} {p : FactoryPtr} (hf : st.theFactory = some p)
    (optarg : List Char) (message : String)
    (set : ICRCTestFactory → BitVec 64 → ICRCTestFactory) :
    ∃ cerr, setParameter progname st optarg message set = .ok { st with
      cerr := cerr
      factories := Function.update st.factories p
        (set (st.factories p) (hexValue optarg ((st.factories p).numBytes * 2))) } := by
  rw [setParameter, hf]
  dsimp only
  rw [toHex_fst, MainState.update_eq]
  exact ⟨_, rfl⟩

/-- The state behind an option when `p` is selected in front of it. -/
def MainState.pass (st : MainState) (p : FactoryPtr) (opt : Opt) (cerr : OStream) : MainState where
  theFactory := some (opt.select p)
  doWriteTable := st.doWriteTable || decide (opt = .writeTable)
  doSearch := st.doSearch || decide (opt = .search)
  doVerify := st.doVerify || decide (opt = .verify)
  verbosity := st.verbosity + if opt = .verbose then 1 else 0
  binaryOutput := st.binaryOutput || decide (opt = .binary)
  factories := Function.update st.factories p (opt.configure (st.factories p))
  cerr := cerr

@[simp] theorem MainState.pass_theFactory (st : MainState) (p : FactoryPtr) (opt : Opt)
    (cerr : OStream) : (st.pass p opt cerr).theFactory = some (opt.select p) := rfl

@[simp] theorem MainState.pass_factories (st : MainState) (p : FactoryPtr) (opt : Opt)
    (cerr : OStream) :
    (st.pass p opt cerr).factories =
      Function.update st.factories p (opt.configure (st.factories p)) := rfl

theorem MainState.pass_doSearch (st : MainState) (p : FactoryPtr) (opt : Opt) (cerr : OStream) :
    (st.pass p opt cerr).doSearch = true ↔ opt = .search ∨ st.doSearch = true := by
  simp [MainState.pass, or_comm]

/-- **What one pass does when an algorithm is selected.** Every option but `--help` goes
on with the loop. -/
theorem processOption_selected {st : MainState} {p : FactoryPtr} (hf : st.theFactory = some p)
    {opt : Opt} (hopt : opt ≠ .help) :
    ∃ cerr, processOption progname st opt = .ok (st.pass p opt cerr) := by
  cases opt with
  | «algorithm» name =>
      have hscan : scanLists lists name st.theFactory = some ((lookup generics name).getD p) := by
        rw [scanLists_eq, hf]
        cases lookup generics name <;> rfl
      rw [processOption_algorithm hscan]
      exact ⟨st.cerr, by simp [MainState.pass, Opt.select, Opt.configure]⟩
  | generator optarg =>
      obtain ⟨cerr, h⟩ := setParameter_selected hf optarg _ _
      exact ⟨cerr, h.trans (by simp [MainState.pass, Opt.select, Opt.configure, ← hf])⟩
  | invert optarg =>
      obtain ⟨cerr, h⟩ := setParameter_selected hf optarg _ _
      exact ⟨cerr, h.trans (by simp [MainState.pass, Opt.select, Opt.configure, ← hf])⟩
  | preset optarg =>
      obtain ⟨cerr, h⟩ := setParameter_selected hf optarg _ _
      exact ⟨cerr, h.trans (by simp [MainState.pass, Opt.select, Opt.configure, ← hf])⟩
  | help => exact absurd rfl hopt
  | binary | search | verify | verbose | writeTable | other =>
      rw [processOption]
      exact ⟨st.cerr, by simp [MainState.pass, Opt.select, Opt.configure, ← hf]⟩

/-- **What one pass does to the selection.** Only an `-a` changes it, and a factory is
only changed when it is selected. -/
theorem processOption_selection {st st' : MainState} {opt : Opt}
    (h : processOption progname st opt = .ok st') :
    (∃ name p, opt = .algorithm name ∧ scanLists lists name st.theFactory = some p ∧
      st' = { st with theFactory := some p }) ∨
    ((∀ name, opt ≠ .algorithm name) ∧ st'.theFactory = st.theFactory ∧
      (st.theFactory = none → st'.factories = st.factories)) := by
  -- the cases `g`, `i` and `p`
  have hset : ∀ {optarg message set}, setParameter progname st optarg message set = .ok st' →
      st'.theFactory = st.theFactory ∧ (st.theFactory = none → st'.factories = st.factories) := by
    intro optarg message set h
    cases hf : st.theFactory with
    | none =>
        rw [setParameter_unselected hf] at h
        cases h
    | some p =>
        obtain ⟨cerr, hset⟩ := setParameter_selected hf optarg message set
        rw [hset] at h
        obtain rfl := Except.ok.inj h
        exact ⟨hf, fun h => absurd h (by simp)⟩
  cases opt with
  | «algorithm» name =>
      rw [processOption] at h
      cases hs : scanLists lists name st.theFactory with
      | none =>
          rw [hs] at h
          exact absurd h (by simp)
      | some p =>
          rw [hs] at h
          exact .inl ⟨name, p, rfl, hs, (Except.ok.inj h).symm⟩
  | generator optarg => exact .inr ⟨by simp, hset h⟩
  | invert optarg => exact .inr ⟨by simp, hset h⟩
  | preset optarg => exact .inr ⟨by simp, hset h⟩
  | help => exact absurd h (by simp [processOption])
  | binary | search | verify | verbose | writeTable | other =>
      obtain rfl := Except.ok.inj h
      exact .inr ⟨by simp, rfl, fun _ => rfl⟩

/-! ### Runs of the option loop -/

theorem optionLoop_of_ok {st st' : MainState} {opt : Opt}
    (h : processOption progname st opt = .ok st') (rest : List Opt) :
    optionLoop progname st (opt :: rest) = optionLoop progname st' rest := by
  rw [optionLoop, h]
  rfl

theorem optionLoop_of_error {st : MainState} {opt : Opt} {outcome : Outcome}
    (h : processOption progname st opt = .error outcome) (rest : List Opt) :
    optionLoop progname st (opt :: rest) = .error outcome := by
  rw [optionLoop, h]
  rfl

theorem optionLoop_append (st : MainState) (pre post : List Opt) :
    optionLoop progname st (pre ++ post) =
      optionLoop progname st pre >>= fun st => optionLoop progname st post := by
  induction pre generalizing st with
  | nil => rfl
  | cons opt pre ih =>
      rw [List.cons_append]
      cases h : processOption progname st opt with
      | error outcome =>
          rw [optionLoop_of_error h, optionLoop_of_error h]
          rfl
      | ok st' =>
          rw [optionLoop_of_ok h, optionLoop_of_ok h]
          exact ih st'

/-- What a change of the state does to one pass, it does to the loop. -/
theorem optionLoop_map {f : MainState → MainState} {g : Outcome → Outcome} {opts : List Opt}
    (h : ∀ opt ∈ opts, ∀ st, processOption progname (f st) opt =
      ((processOption progname st opt).map f).mapError g) (st : MainState) :
    optionLoop progname (f st) opts = ((optionLoop progname st opts).map f).mapError g := by
  induction opts generalizing st with
  | nil => rfl
  | cons opt opts ih =>
      have hstep := h opt List.mem_cons_self st
      cases hp : processOption progname st opt with
      | error outcome =>
          rw [hp] at hstep
          rw [optionLoop_of_error hp, optionLoop_of_error hstep]
          rfl
      | ok st' =>
          rw [hp] at hstep
          rw [optionLoop_of_ok hp, optionLoop_of_ok hstep]
          exact ih (fun o ho => h o (List.mem_cons_of_mem opt ho)) st'

/-- `main` from a point of the option loop on. -/
def runFrom (ulong : Nat) (progname : List Char) (st : MainState) (opts : List Opt)
    (operands : List (List Char)) : Outcome :=
  match optionLoop progname st opts with
  | .ok st => finish ulong progname st operands
  | .error outcome => outcome

section RunFrom

variable {ulong : Nat} {operands : List (List Char)}

theorem runFrom_of_ok {st st' : MainState} {opt : Opt} (h : processOption progname st opt = .ok st')
    (rest : List Opt) :
    runFrom ulong progname st (opt :: rest) operands =
      runFrom ulong progname st' rest operands := by
  rw [runFrom, runFrom, optionLoop_of_ok h]

theorem runFrom_of_error {st : MainState} {opt : Opt} {outcome : Outcome}
    (h : processOption progname st opt = .error outcome) (rest : List Opt) :
    runFrom ulong progname st (opt :: rest) operands = outcome := by
  rw [runFrom, optionLoop_of_error h]

end RunFrom

/-- The option loop of `main argv …` gets through `pre` and is in `st` then. -/
def Reaches (argv : List (List Char)) (pre : List Opt) (st : MainState) : Prop :=
  optionLoop (argv.headD []) (.init (echo argv .new)) pre = .ok st

/-- What holds of every state an option loop gets to, from what one pass preserves. -/
theorem optionLoop_induction {motive : MainState → Prop} {st st' : MainState} {opts : List Opt}
    (h : optionLoop progname st opts = .ok st') (hst : motive st)
    (step : ∀ s s', ∀ opt ∈ opts, motive s → processOption progname s opt = .ok s' → motive s') :
    motive st' := by
  induction opts generalizing st with
  | nil =>
      obtain rfl := Except.ok.inj h
      exact hst
  | cons opt opts ih =>
      cases hp : processOption progname st opt with
      | error outcome =>
          rw [optionLoop_of_error hp] at h
          cases h
      | ok s =>
          rw [optionLoop_of_ok hp] at h
          exact ih h (step st s opt List.mem_cons_self hst hp) fun s s' o ho =>
            step s s' o (List.mem_cons_of_mem opt ho)

/-- As long as nothing is selected, the factories are as they were constructed. -/
theorem factories_of_unselected {argv : List (List Char)} {pre : List Opt} {st : MainState}
    (h : Reaches argv pre st) : st.theFactory = none → st.factories = initialFactories := by
  refine optionLoop_induction (motive := fun s => s.theFactory = none →
    s.factories = initialFactories) h (fun _ => rfl) fun s s' opt _ hs hstep hnone => ?_
  obtain ⟨name, p, -, -, rfl⟩ | ⟨-, hf, hfs⟩ := processOption_selection hstep
  · exact absurd hnone (by simp)
  · rw [hf] at hnone
    rw [hfs hnone, hs hnone]

/-- Without an `-a` the selection stays. -/
theorem theFactory_of_no_algorithm {st st' : MainState} {opts : List Opt}
    (h : optionLoop progname st opts = .ok st') (hopts : ∀ name, .algorithm name ∉ opts) :
    st'.theFactory = st.theFactory := by
  refine optionLoop_induction (motive := fun s => s.theFactory = st.theFactory) h rfl
    fun s s' opt hopt hs hstep => ?_
  obtain ⟨name, p, rfl, -, -⟩ | ⟨-, hf, -⟩ := processOption_selection hstep
  · exact absurd hopt (hopts name)
  · rw [hf, hs]

/-! ### Every `-a` -/

/-- The option `-a name` that is processed behind `pre`, in state `st`, takes effect or is
rejected: if there is an algorithm with that name then it is selected next, and if
there is none then `main` returns 1, whatever follows. -/
structure TakesEffect (argv : List (List Char)) (pre : List Opt) (st : MainState)
    (name : List Char) : Prop where
  selected : ∀ a ∈ generics ++ algorithms, a.name.toList = name →
    ∃ st', processOption (argv.headD []) st (.algorithm name) = .ok st' ∧
      st'.theFactory = some a.factory
  rejected : (∀ a ∈ generics ++ algorithms, a.name.toList ≠ name) →
    ∀ ulong post operands, ∃ cout cerr,
      main ulong argv (pre ++ .algorithm name :: post) operands = .returned 1 cout cerr

/-- Nothing is selected yet, or the name is that of a generic algorithm, or that of the
algorithm that is selected already. -/
def Selectable (st : MainState) (name : List Char) : Prop :=
  st.theFactory = none ∨ (∃ a ∈ generics, a.name.toList = name) ∨
    ∃ a ∈ algorithms, a.name.toList = name ∧ st.theFactory = some a.factory

/-- `main` behind a prefix of its options that the loop gets through. -/
theorem main_of_reaches {argv : List (List Char)} {pre : List Opt} {st : MainState}
    (h : Reaches argv pre st) (ulong : Nat) (post : List Opt) (operands : List (List Char)) :
    main ulong argv (pre ++ post) operands = runFrom ulong (argv.headD []) st post operands := by
  rw [Reaches] at h
  rw [main, optionLoop_append, h]
  rfl

theorem unselected_of_unknown {st : MainState} {name : List Char} (h : Selectable st name)
    (hno : ∀ a ∈ generics ++ algorithms, a.name.toList ≠ name) : st.theFactory = none := by
  obtain hnone | ⟨a, ha, hn⟩ | ⟨a, ha, hn, -⟩ := h
  · exact hnone
  · exact absurd hn (hno a (List.mem_append_left _ ha))
  · exact absurd hn (hno a (List.mem_append_right _ ha))

theorem takesEffect_of_selectable {argv : List (List Char)} {pre : List Opt} {st : MainState}
    {name : List Char} (h : Reaches argv pre st) (hsel : Selectable st name) :
    TakesEffect argv pre st name where
  selected a ha hname := by
    suffices hs : scanLists lists name st.theFactory = some a.factory from
      ⟨_, processOption_algorithm hs, rfl⟩
    subst hname
    obtain hnone | ⟨b, hb, hn⟩ | ⟨b, hb, hn, hf⟩ := hsel
    · rw [hnone, scanLists_unselected ha]
    · -- the generic algorithms are searched in any case
      have hscan := scanLists_unselected (List.mem_append_left algorithms hb)
      rw [hn, scanLists_unselected ha] at hscan
      rw [scanLists_eq, ← hn, lookup_generics b hb, Option.some_or, hscan]
    · -- the selected algorithm has the same name
      have hscan := scanLists_unselected (List.mem_append_right generics hb)
      rw [hn, scanLists_unselected ha] at hscan
      rw [scanLists_eq, ← hn, lookup_generics_of_algorithms b hb, hf, hscan]
      rfl
  rejected hno ulong post operands := by
    have hnone := unselected_of_unknown hsel hno
    rw [main_of_reaches h,
      runFrom_of_error (processOption_unknown ((scanLists_unknown hno _).trans hnone))]
    -- nothing was selected, so the usage text comes out
    have hok : builtinsOk st.factories = true :=
      factories_of_unselected h hnone ▸ initial_builtinsOk
    refine ⟨.new, usageReturn_of_builtinsOk _ ?_ (argv.headD []) 1⟩
    exact hok

theorem selectable_of_takesEffect {argv : List (List Char)} {pre : List Opt} {st : MainState}
    {name : List Char} (h : Reaches argv pre st) (ht : TakesEffect argv pre st name) :
    Selectable st name := by
  cases hf : st.theFactory with
  | none => exact .inl hf
  | some p =>
      by_cases hg : ∃ a ∈ generics, a.name.toList = name
      · exact .inr (.inl hg)
      · -- the scan stops behind the generic algorithms, with what was selected
        have hscan : scanLists lists name st.theFactory = some p := by
          rw [scanLists_eq, lookup_eq_none_iff.mpr fun a ha hn => hg ⟨a, ha, hn⟩, hf]
          rfl
        by_cases hb : ∃ a ∈ algorithms, a.name.toList = name
        · obtain ⟨a, ha, hn⟩ := hb
          obtain ⟨st', hst', hsel⟩ := ht.selected a (List.mem_append_right _ ha) hn
          rw [processOption_algorithm hscan] at hst'
          obtain rfl := Except.ok.inj hst'
          exact .inr (.inr ⟨a, ha, hn, hf.trans hsel⟩)
        · -- an unknown name goes unnoticed: with a `--help` behind it `main` does not return 1
          have hno : ∀ a ∈ generics ++ algorithms, a.name.toList ≠ name := by
            intro a ha hn
            obtain ha | ha := List.mem_append.mp ha
            · exact hg ⟨a, ha, hn⟩
            · exact hb ⟨a, ha, hn⟩
          obtain ⟨cout, cerr, hmain⟩ := ht.rejected hno 64 [.help] []
          rw [main_of_reaches h, runFrom_of_ok (processOption_algorithm hscan),
            runFrom_of_error rfl, MainState.usageReturn] at hmain
          split at hmain
          · exact absurd hmain (by simp)
          · exact absurd hmain (by simp)

/-- **When an `-a` takes effect or is rejected.** At every position of an `-a` that is
processed, it is so exactly when the name is selectable there. So in a run all of
whose `-a` are selectable, every one takes effect or is rejected, and the algorithm
the loop ends with is the one the last `-a` names. -/
theorem algorithm_option_iff (argv : List (List Char)) :
    (∀ pre st name, Reaches argv pre st → (TakesEffect argv pre st name ↔ Selectable st name)) ∧
    ∀ opts,
      (∀ pre name post st, opts = pre ++ .algorithm name :: post → Reaches argv pre st →
        Selectable st name) →
      (∀ pre name post st, opts = pre ++ .algorithm name :: post → Reaches argv pre st →
        TakesEffect argv pre st name) ∧
      ∀ pre name post st, opts = pre ++ .algorithm name :: post →
        (∀ other, .algorithm other ∉ post) → Reaches argv opts st →
        ∃ a ∈ generics ++ algorithms, a.name.toList = name ∧ st.theFactory = some a.factory := by
  refine ⟨fun pre st name h => ⟨selectable_of_takesEffect h, takesEffect_of_selectable h⟩,
    fun opts hopts => ⟨fun pre name post st he h =>
      takesEffect_of_selectable h (hopts pre name post st he h), ?_⟩⟩
  intro pre name post st he hpost h
  rw [Reaches, he, optionLoop_append] at h
  -- the state in which the last `-a` is processed
  cases hpre : optionLoop (argv.headD []) (.init (echo argv .new)) pre with
  | error outcome =>
      rw [hpre] at h
      cases h
  | ok s =>
      have hsel := hopts pre name post s he hpre
      rw [hpre] at h
      change optionLoop _ s (.algorithm name :: post) = .ok st at h
      by_cases hex : ∃ a ∈ generics ++ algorithms, a.name.toList = name
      · obtain ⟨a, ha, hn⟩ := hex
        obtain ⟨s', hs', hf⟩ := (takesEffect_of_selectable hpre hsel).selected a ha hn
        rw [optionLoop_of_ok hs'] at h
        exact ⟨a, ha, hn, (theFactory_of_no_algorithm h hpost).trans hf⟩
      · -- a rejected option ends the loop
        have hno : ∀ a ∈ generics ++ algorithms, a.name.toList ≠ name :=
          fun a ha hn => hex ⟨a, ha, hn⟩
        have hscan := (scanLists_unknown hno _).trans (unselected_of_unknown hsel hno)
        rw [optionLoop_of_error (processOption_unknown hscan)] at h
        cases h

/-- `crc -a crc8 -a g8`: the second `-a` is generic and takes effect behind the first one. -/
theorem algorithm_option_g8 :
    ∃ st st', Reaches ["crc".toList] [.algorithm "crc8".toList] st ∧ st.theFactory = some .crc8 ∧
      TakesEffect ["crc".toList] [.algorithm "crc8".toList] st "g8".toList ∧
      Reaches ["crc".toList] [.algorithm "crc8".toList, .algorithm "g8".toList] st' ∧
      ∃ a ∈ generics ++ algorithms,
        a.name.toList = "g8".toList ∧ st'.theFactory = some a.factory := by
  have hscan : scanLists lists "crc8".toList none = some .crc8 := rfl
  have hscan' : scanLists lists "g8".toList (some .crc8) = some .g8 := rfl
  have hreach : Reaches ["crc".toList] [.algorithm "crc8".toList]
      { MainState.init (echo ["crc".toList] .new) with theFactory := some .crc8 } := by
    rw [Reaches, optionLoop, processOption_algorithm hscan]
    rfl
  have hreach' : Reaches ["crc".toList] [.algorithm "crc8".toList, .algorithm "g8".toList]
      { MainState.init (echo ["crc".toList] .new) with theFactory := some .g8 } := by
    rw [Reaches, optionLoop_of_ok (processOption_algorithm hscan),
      optionLoop_of_ok (processOption_algorithm hscan')]
    rfl
  have hgeneric : ∀ st, Selectable st "g8".toList := fun st =>
    .inr (.inl ⟨⟨"g8", .g8⟩, by decide, rfl⟩)
  have hsel : ∀ pre name post st,
      [Opt.algorithm "crc8".toList, .algorithm "g8".toList] = pre ++ .algorithm name :: post →
        Reaches ["crc".toList] pre st → Selectable st name := by
    intro pre name post st he h
    cases pre with
    | nil =>
        obtain rfl := Except.ok.inj h
        exact .inl rfl
    | cons opt pre =>
        cases pre with
        | nil =>
            simp only [List.singleton_append, List.cons.injEq, Opt.algorithm.injEq] at he
            obtain ⟨-, rfl, -⟩ := he
            exact hgeneric st
        | cons opt' pre => exact absurd (congrArg List.length he) (by simp)
  have hrun := (algorithm_option_iff ["crc".toList]).2 _ hsel
  exact ⟨_, _, hreach, rfl,
    ((algorithm_option_iff ["crc".toList]).1 _ _ _ hreach).mpr (hgeneric _), hreach',
    hrun.2 [.algorithm "crc8".toList] "g8".toList [] _ rfl (by simp) hreach'⟩

/-- After `-a crc8` neither `-a ccitt` takes effect nor is an unknown name rejected. -/
theorem not_takesEffect_second :
    ∃ st, Reaches ["crc".toList] [.algorithm "crc8".toList] st ∧
      ¬ TakesEffect ["crc".toList] [.algorithm "crc8".toList] st "ccitt".toList ∧
      ¬ TakesEffect ["crc".toList] [.algorithm "crc8".toList] st "nonsense".toList := by
  have hscan : scanLists lists "crc8".toList none = some .crc8 := rfl
  have hreach : Reaches ["crc".toList] [.algorithm "crc8".toList]
      { MainState.init (echo ["crc".toList] .new) with theFactory := some .crc8 } := by
    rw [Reaches, optionLoop, processOption_algorithm hscan]
    rfl
  -- neither name is generic or that of `crc8`
  have hnot : ∀ name, lookup generics name = none →
      (∀ a ∈ algorithms, a.name.toList = name → a.factory ≠ .crc8) →
      ¬ Selectable { MainState.init (echo ["crc".toList] .new) with theFactory := some .crc8 }
        name := by
    intro name hg hb h
    obtain h | ⟨a, ha, hn⟩ | ⟨a, ha, hn, hf⟩ := h
    · exact absurd h (by simp)
    · exact lookup_eq_none_iff.mp hg a ha hn
    · exact hb a ha hn (Option.some.inj hf).symm
  exact ⟨_, hreach,
    fun h => hnot _ rfl (by simp [algorithms]) (selectable_of_takesEffect hreach h),
    fun h => hnot _ rfl (by simp [algorithms]) (selectable_of_takesEffect hreach h)⟩

end CrcPP
