import CrcPP.ToolOptions

/-!
# CrcPP.ToolEscape

**When an exception leaves the tool.** Only the normal operation has a `try` block; the
usage text and the search create the tests of the built-in algorithms without one. The
search only runs when nothing was selected, with all factories as they were
constructed. But the usage text is also printed for `--help` and for `--search` with an
algorithm, and then the factory of the built-in algorithm that was selected may hold a
generator without an `X^0` term.

That takes a selected built-in algorithm and a last `-g` for it with such a generator,
followed by one of these two (`SpoilsUsage`). The three stages of the option loop are
treated backwards: a generic algorithm is selected, from which no `-a` goes back to a
built-in one (`escaped_of_generic`); a built-in algorithm is selected
(`escaped_of_builtin`); nothing is selected yet (`escaped_of_unselected`).
-/

namespace CrcPP

/-- An exception leaves `main`. -/
def Outcome.escaped : Outcome → Bool
  | .returned .. => false
  | .raised _ => true

theorem Outcome.escaped_eq_false_iff (o : Outcome) :
    o.escaped = false ↔ ∃ status cout cerr, o = .returned status cout cerr := by
  cases o with
  | returned status cout cerr => exact ⟨fun _ => ⟨status, cout, cerr, rfl⟩, fun _ => rfl⟩
  | raised e =>
      constructor
      · intro h
        cases h
      · rintro ⟨status, cout, cerr, h⟩
        cases h

/-! ### Where tests are created -/

theorem usageReturn_escaped (st : MainState) (progname : List Char) (status : Nat) :
    (st.usageReturn progname status).escaped = !builtinsOk st.factories := by
  rw [← usage_isOk st.factories progname st.cerr, MainState.usageReturn]
  cases usage st.factories progname st.cerr <;> rfl

theorem searchAlgorithms_isOk (fs : Factories) (src : List Byte) (list : List AlgorithmFactory)
    (found : Bool) (cout : OStream) :
    (searchAlgorithms fs src list found cout).isOk =
      list.all fun a => (fs a.factory).createTest.isOk := by
  induction list generalizing found cout with
  | nil => rfl
  | cons a list ih =>
      rw [searchAlgorithms, List.all_cons]
      cases (fs a.factory).createTest with
      | error e => rfl
      | ok t =>
          dsimp only [bind, Except.bind]
          split
          · exact ih _ _
          · exact ih _ _

theorem runSearch_escaped {st : MainState} (h : builtinsOk st.factories = true)
    (progname : List Char) (operands : List (List Char)) :
    (runSearch progname st operands).escaped = false := by
  rw [runSearch]
  generalize readOperands operands .new st.cerr = r
  obtain ⟨src, cout, cerr⟩ := r
  dsimp only
  split
  · have hu := usage_isOk st.factories progname
      ((cerr.str "Please specify data to be checked").endl)
    rw [h] at hu
    generalize usage st.factories progname _ = u at hu ⊢
    cases u with
    | ok cerr => rfl
    | error e => cases hu
  · have hs := searchAlgorithms_isOk st.factories src algorithms false cout.endl
    rw [← builtinsOk, h] at hs
    generalize searchAlgorithms st.factories src algorithms false cout.endl = s at hs ⊢
    cases s with
    | error e => cases hs
    | ok r =>
        obtain ⟨found, cout⟩ := r
        cases found <;> rfl

/-- The normal operation catches what `createTest()` throws. -/
theorem runNormal_escaped (ulong : Nat) (st : MainState) (f : ICRCTestFactory)
    (operands : List (List Char)) : (runNormal ulong st f operands).escaped = false := by
  rw [runNormal]
  cases f.createTest with
  | error ex => rfl
  | ok theTest =>
      dsimp only
      rw [runTest]
      split <;> rfl

theorem finish_escaped_of_selected {st : MainState} {p : FactoryPtr} (hf : st.theFactory = some p)
    (ulong : Nat) (progname : List Char) (operands : List (List Char)) :
    (finish ulong progname st operands).escaped = true ↔
      builtinsOk st.factories = false ∧ st.doSearch = true := by
  rw [finish, hf]
  cases hs : st.doSearch with
  | false =>
      dsimp only
      rw [runNormal_escaped]
      simp
  | true =>
      dsimp only
      rw [usageReturn_escaped, MainState.complain]
      simp

theorem finish_escaped_of_unselected {st : MainState} (hf : st.theFactory = none)
    (h : builtinsOk st.factories = true) (ulong : Nat) (progname : List Char)
    (operands : List (List Char)) : (finish ulong progname st operands).escaped = false := by
  have husage : ∀ message, ((st.complain message).usageReturn progname 1).escaped = false := by
    intro message
    rw [usageReturn_escaped, MainState.complain, h]
    rfl
  rw [finish, hf]
  cases st.doSearch with
  | false => exact husage _
  | true =>
      dsimp only
      split
      · exact husage _
      · exact runSearch_escaped h progname operands

/-! ### The condition -/

/-- An option that selects nothing, needs no selection and does not end the run. -/
def Opt.neutral : Opt → Bool
  | .algorithm _ | .generator _ | .help | .invert _ | .preset _ => false
  | .binary | .search | .verify | .verbose | .writeTable | .other => true

/-- A selected built-in algorithm does not stay selected behind the option: it selects a
generic algorithm or ends the run. -/
def Opt.leavesBuiltin : Opt → Bool
  | .algorithm name => (lookup generics name).isSome
  | .help => true
  | _ => false

/-- The argument of the last `-g`. -/
def lastGenerator : List Opt → Option (List Char)
  | [] => none
  | .generator optarg :: rest => (lastGenerator rest).or (some optarg)
  | _ :: rest => lastGenerator rest

/-- The `X^0` coefficient of the generator that `-g optarg` sets, for an algorithm, is not 0. -/
def hasConstantTerm (p : FactoryPtr) (optarg : List Char) : Bool :=
  let f := initialFactories p
  f.P.lobit ((hexValue optarg (f.numBytes * 2)).setWidth f.T.bits) != 0

/-- The first option that selects something, needs a selection or asks for help is the
`-a` of a built-in algorithm. The last `-g` as long as that algorithm stays selected
gives a generator without an `X^0` term, and there is a `--help` behind it or a
`--search` anywhere. -/
def SpoilsUsage (opts : List Opt) : Prop :=
  ∃ a ∈ algorithms, ∃ rest optarg,
    opts.dropWhile Opt.neutral = .algorithm a.name.toList :: rest ∧
    lastGenerator (rest.takeWhile fun opt => !opt.leavesBuiltin) = some optarg ∧
    hasConstantTerm a.factory optarg = false ∧ (.help ∈ rest ∨ .search ∈ opts)

/-! ### Runs with a selected algorithm -/

variable {ulong : Nat} {progname : List Char} {operands : List (List Char)}

/-- The run ends with the flag of `--search` set, if it gets to the end of its options. -/
def SearchAhead (st : MainState) (opts : List Opt) : Prop :=
  .search ∈ opts ∨ st.doSearch = true

theorem searchAhead_cons {st st' : MainState} {opt : Opt}
    (h : st'.doSearch = true ↔ opt = .search ∨ st.doSearch = true) (rest : List Opt) :
    SearchAhead st (opt :: rest) ↔ SearchAhead st' rest := by
  rw [SearchAhead, SearchAhead, h, List.mem_cons, eq_comm, or_assoc, or_left_comm]

/-- With an algorithm selected, the run prints the usage text. -/
def UsageAhead (st : MainState) (opts : List Opt) : Prop := .help ∈ opts ∨ SearchAhead st opts

theorem usageAhead_cons {st st' : MainState} {opt : Opt} (hopt : opt ≠ .help)
    (h : st'.doSearch = true ↔ opt = .search ∨ st.doSearch = true) (rest : List Opt) :
    UsageAhead st (opt :: rest) ↔ UsageAhead st' rest := by
  rw [UsageAhead, UsageAhead, searchAhead_cons h, List.mem_cons, eq_comm, or_iff_right hopt]

/-- A factory that no built-in algorithm uses may be changed. -/
theorem builtinsOk_update {p : FactoryPtr} (hp : ∀ a ∈ algorithms, a.factory ≠ p)
    (fs : Factories) (f : ICRCTestFactory) :
    builtinsOk (Function.update fs p f) = builtinsOk fs := by
  rw [builtinsOk, builtinsOk, Bool.eq_iff_iff, List.all_eq_true, List.all_eq_true]
  refine forall₂_congr fun a ha => ?_
  rw [Function.update_of_ne (hp a ha)]

theorem generic_not_builtin : ∀ g ∈ generics, ∀ a ∈ algorithms, a.factory ≠ g.factory := by
  decide

/-- A generic algorithm stays generic, whatever is selected later. -/
theorem select_generic {p : FactoryPtr} (hp : ∀ a ∈ algorithms, a.factory ≠ p) (opt : Opt) :
    ∀ a ∈ algorithms, a.factory ≠ opt.select p := by
  cases opt with
  | «algorithm» name =>
      intro a ha
      rw [Opt.select]
      cases hl : lookup generics name with
      | none => exact hp a ha
      | some q =>
          obtain ⟨g, hg, -, rfl⟩ := exists_of_lookup hl
          exact generic_not_builtin g hg a ha
  | _ => exact hp

/-- With a generic algorithm selected, the built-in ones stay as they are. -/
theorem escaped_of_generic {st : MainState} {p : FactoryPtr} (hf : st.theFactory = some p)
    (hp : ∀ a ∈ algorithms, a.factory ≠ p) (opts : List Opt) :
    (runFrom ulong progname st opts operands).escaped = true ↔
      builtinsOk st.factories = false ∧ UsageAhead st opts := by
  induction opts generalizing st p with
  | nil =>
      change (finish ulong progname st operands).escaped = true ↔ _
      rw [finish_escaped_of_selected hf, UsageAhead, SearchAhead]
      simp
  | cons opt opts ih =>
      by_cases hopt : opt = .help
      · subst hopt
        rw [runFrom_of_error rfl, usageReturn_escaped, UsageAhead]
        simp
      · obtain ⟨cerr, hst'⟩ := processOption_selected hf hopt
        rw [runFrom_of_ok hst', ih rfl (select_generic hp opt),
          MainState.pass_factories, builtinsOk_update hp,
          usageAhead_cons hopt (st.pass_doSearch p opt cerr)]

/-! ### Runs with a selected built-in algorithm -/

/-- The built-in algorithm `a` is selected, `optarg` is the argument of its last `-g`, and
the other factories are as they were constructed. -/
structure Builtin (a : AlgorithmFactory) (optarg : Option (List Char)) (st : MainState) :
    Prop where
  mem : a ∈ algorithms
  theFactory : st.theFactory = some a.factory
  others : ∀ q, q ≠ a.factory → st.factories q = initialFactories q
  own : ∃ generator preset invert : BitVec 64,
    st.factories a.factory = .new (initialFactories a.factory).order (initialFactories a.factory).T
      generator preset invert ∧
    ((initialFactories a.factory).P.lobit (generator.setWidth (initialFactories a.factory).T.bits) ≠
      0 ↔ ∀ s, optarg = some s → hasConstantTerm a.factory s = true)

/-- The other built-in algorithms are fine, so it depends on the last `-g`. -/
theorem Builtin.builtinsOk_eq_false_iff {a : AlgorithmFactory} {optarg : Option (List Char)}
    {st : MainState} (h : Builtin a optarg st) :
    builtinsOk st.factories = false ↔
      ∃ s, optarg = some s ∧ hasConstantTerm a.factory s = false := by
  obtain ⟨generator, preset, invert, hown, hlobit⟩ := h.own
  have hok : (st.factories a.factory).createTest.isOk = true ↔
      ∀ s, optarg = some s → hasConstantTerm a.factory s = true := by
    rw [hown, ICRCTestFactory.createTest_isOk_iff]
    exact hlobit
  have hall : builtinsOk st.factories = true ↔
      (st.factories a.factory).createTest.isOk = true := by
    rw [builtinsOk, List.all_eq_true]
    refine ⟨fun hb => hb a h.mem, fun ha b hb => ?_⟩
    by_cases hba : b.factory = a.factory
    · rw [hba]
      exact ha
    · rw [h.others b.factory hba]
      exact List.all_eq_true.mp initial_builtinsOk b hb
  rw [← Bool.not_eq_true, hall, hok]
  simp

/-- What a pass makes of the argument of the last `-g`. -/
def Opt.regenerate : Opt → Option (List Char) → Option (List Char)
  | .generator optarg, _ => some optarg
  | _, last => last

/-- A pass that does not leave the built-in algorithm. -/
theorem Builtin.step {a : AlgorithmFactory} {optarg : Option (List Char)} {st : MainState}
    (h : Builtin a optarg st) {opt : Opt} (hopt : opt.leavesBuiltin = false) (cerr : OStream) :
    Builtin a (opt.regenerate optarg) (st.pass a.factory opt cerr) where
  mem := h.mem
  theFactory := by
    cases opt with
    | «algorithm» name =>
        rw [Opt.leavesBuiltin, Option.isSome_eq_false_iff, Option.isNone_iff_eq_none] at hopt
        rw [MainState.pass_theFactory, Opt.select, hopt]
        rfl
    | _ => rfl
  others q hq := by
    rw [MainState.pass_factories, Function.update_of_ne hq, h.others q hq]
  own := by
    obtain ⟨generator, preset, invert, hown, hlobit⟩ := h.own
    rw [MainState.pass_factories, Function.update_self, hown]
    cases opt with
    | generator s =>
        refine ⟨_, preset, invert, rfl, fun hnew s' hs' => ?_, fun hall => ?_⟩
        · obtain rfl := Option.some.inj hs'
          exact bne_iff_ne.mpr hnew
        · exact bne_iff_ne.mp (hall s rfl)
    | invert s => exact ⟨generator, preset, _, rfl, hlobit⟩
    | preset s => exact ⟨generator, _, invert, rfl, hlobit⟩
    | _ => exact ⟨generator, preset, invert, rfl, hlobit⟩

theorem lastGenerator_cons (opt : Opt) (rest : List Opt) (optarg : Option (List Char)) :
    (lastGenerator (opt :: rest)).or optarg = (lastGenerator rest).or (opt.regenerate optarg) := by
  cases opt with
  | generator s =>
      rw [lastGenerator, Option.or_assoc]
      rfl
  | _ => rfl

/-- **With a built-in algorithm selected**, an exception leaves `main` when the last `-g`
for it is no good and the usage text is printed later. -/
theorem escaped_of_builtin {st : MainState} {a : AlgorithmFactory} {optarg : Option (List Char)}
    (h : Builtin a optarg st) (opts : List Opt) :
    (runFrom ulong progname st opts operands).escaped = true ↔
      (∃ s, (lastGenerator (opts.takeWhile fun opt => !opt.leavesBuiltin)).or optarg = some s ∧
        hasConstantTerm a.factory s = false) ∧ UsageAhead st opts := by
  induction opts generalizing st optarg with
  | nil =>
      change (finish ulong progname st operands).escaped = true ↔ _
      rw [finish_escaped_of_selected h.theFactory, h.builtinsOk_eq_false_iff, UsageAhead,
        SearchAhead]
      simp [lastGenerator]
  | cons opt opts ih =>
      cases hopt : opt.leavesBuiltin with
      | false =>
          have hhelp : opt ≠ .help := by
            rintro rfl
            cases hopt
          obtain ⟨cerr, hst'⟩ := processOption_selected h.theFactory hhelp
          rw [runFrom_of_ok hst', ih (h.step hopt cerr),
            usageAhead_cons hhelp (st.pass_doSearch a.factory opt cerr),
            List.takeWhile_cons_of_pos (by rw [hopt]; rfl), lastGenerator_cons]
      | true =>
          rw [List.takeWhile_cons_of_neg (by rw [hopt]; decide), lastGenerator, Option.none_or,
            ← h.builtinsOk_eq_false_iff]
          by_cases hhelp : opt = .help
          · subst hhelp
            rw [runFrom_of_error rfl, usageReturn_escaped, UsageAhead]
            simp
          · -- a generic algorithm: it is selected and everything stays as it is
            obtain ⟨name, rfl⟩ : ∃ name, opt = .algorithm name := by
              cases opt with
              | «algorithm» name => exact ⟨name, rfl⟩
              | help => exact absurd rfl hhelp
              | _ => cases hopt
            obtain ⟨q, hq⟩ := Option.isSome_iff_exists.mp hopt
            obtain ⟨g, hg, -, rfl⟩ := exists_of_lookup hq
            obtain ⟨cerr, hst'⟩ := processOption_selected h.theFactory hhelp
            have hf : (st.pass a.factory (.algorithm name) cerr).theFactory = some g.factory := by
              rw [MainState.pass_theFactory, Opt.select, hq, Option.getD_some]
            have hfs : (st.pass a.factory (.algorithm name) cerr).factories = st.factories :=
              Function.update_eq_self a.factory st.factories
            rw [runFrom_of_ok hst', escaped_of_generic hf (generic_not_builtin g hg), hfs,
              usageAhead_cons hhelp (st.pass_doSearch a.factory _ cerr)]

/-! ### Runs with nothing selected -/

theorem processOption_neutral (progname : List Char) (st : MainState) {opt : Opt}
    (hopt : opt.neutral = true) :
    ∃ st', processOption progname st opt = .ok st' ∧ st'.theFactory = st.theFactory ∧
      st'.factories = st.factories ∧
      (st'.doSearch = true ↔ opt = .search ∨ st.doSearch = true) := by
  cases opt with
  | «algorithm» | generator | help | invert | preset => cases hopt
  | binary | search | verify | verbose | writeTable | other => exact ⟨_, rfl, rfl, rfl, by simp⟩

theorem Builtin.start (a : AlgorithmFactory) (ha : a ∈ algorithms) {st : MainState}
    (hfs : st.factories = initialFactories) :
    Builtin a none { st with theFactory := some a.factory } where
  mem := ha
  theFactory := rfl
  others q _ := congrFun hfs q
  own := by
    have hnew : ∀ p : FactoryPtr, ∃ generator preset invert : BitVec 64,
        initialFactories p = .new (initialFactories p).order (initialFactories p).T
          generator preset invert := by
      intro p
      cases p <;> exact ⟨_, _, _, rfl⟩
    obtain ⟨generator, preset, invert, h⟩ := hnew a.factory
    refine ⟨generator, preset, invert, (congrFun hfs _).trans h, fun _ s hs => ?_, fun _ => ?_⟩
    · cases hs
    · have hok := List.all_eq_true.mp initial_builtinsOk a ha
      rw [h, ICRCTestFactory.createTest_isOk_iff] at hok
      exact hok

/-- The first `-a`. -/
theorem escaped_of_algorithm {st : MainState} (hf : st.theFactory = none)
    (hfs : st.factories = initialFactories) (name : List Char) (opts : List Opt) :
    (runFrom ulong progname st (.algorithm name :: opts) operands).escaped = true ↔
      ∃ a ∈ algorithms, ∃ rest optarg,
        Opt.algorithm name :: opts = .algorithm a.name.toList :: rest ∧
        lastGenerator (rest.takeWhile fun opt => !opt.leavesBuiltin) = some optarg ∧
        hasConstantTerm a.factory optarg = false ∧
        (.help ∈ rest ∨ SearchAhead st (.algorithm name :: opts)) := by
  have hok : builtinsOk st.factories = true := hfs ▸ initial_builtinsOk
  cases hg : lookup generics name with
  | some q =>
      -- a generic algorithm
      obtain ⟨g, hgm, -, rfl⟩ := exists_of_lookup hg
      have hscan : scanLists lists name st.theFactory = some g.factory := by
        rw [scanLists_eq, hg, Option.some_or]
      rw [runFrom_of_ok (processOption_algorithm hscan),
        escaped_of_generic rfl (generic_not_builtin g hgm), hok]
      refine iff_of_false (by simp) ?_
      rintro ⟨a, ha, rest, optarg, hcons, -⟩
      obtain ⟨rfl, -⟩ := by simpa using hcons
      rw [lookup_generics_of_algorithms a ha] at hg
      cases hg
  | none =>
      have hscan : scanLists lists name st.theFactory = lookup algorithms name := by
        rw [scanLists_eq, hg, hf, Option.none_or, Option.none_or]
      cases hb : lookup algorithms name with
      | none =>
          -- an unknown name
          rw [runFrom_of_error (processOption_unknown (hscan.trans hb)), usageReturn_escaped, hok]
          refine iff_of_false (by decide) ?_
          rintro ⟨a, ha, rest, optarg, hcons, -⟩
          obtain ⟨rfl, -⟩ := by simpa using hcons
          exact lookup_eq_none_iff.mp hb a ha rfl
      | some p =>
          -- a built-in algorithm
          obtain ⟨a, ha, rfl, rfl⟩ := exists_of_lookup hb
          rw [runFrom_of_ok (processOption_algorithm (hscan.trans hb)),
            escaped_of_builtin (Builtin.start a ha hfs), Option.or_none]
          have hsearch : ({ st with theFactory := some a.factory } : MainState).doSearch = true ↔
              Opt.algorithm a.name.toList = .search ∨ st.doSearch = true := by simp
          have hahead : UsageAhead { st with theFactory := some a.factory } opts ↔
              .help ∈ opts ∨ SearchAhead st (.algorithm a.name.toList :: opts) := by
            rw [searchAhead_cons hsearch]
            rfl
          rw [hahead]
          constructor
          · rintro ⟨⟨optarg, hlast, hterm⟩, husage⟩
            exact ⟨a, ha, opts, optarg, rfl, hlast, hterm, husage⟩
          · rintro ⟨a', ha', rest, optarg, hcons, hlast, hterm, husage⟩
            obtain ⟨hname, rfl⟩ := by simpa using hcons
            -- both entries have the same name
            have hfactory := lookup_algorithms a' ha'
            rw [← hname, lookup_algorithms a ha] at hfactory
            rw [← Option.some.inj hfactory] at hterm
            exact ⟨⟨optarg, hlast, hterm⟩, husage⟩

/-- **With nothing selected yet**, what counts is the first option that is not neutral. -/
theorem escaped_of_unselected {st : MainState} (hf : st.theFactory = none)
    (hfs : st.factories = initialFactories) (opts : List Opt) :
    (runFrom ulong progname st opts operands).escaped = true ↔
      ∃ a ∈ algorithms, ∃ rest optarg,
        opts.dropWhile Opt.neutral = .algorithm a.name.toList :: rest ∧
        lastGenerator (rest.takeWhile fun opt => !opt.leavesBuiltin) = some optarg ∧
        hasConstantTerm a.factory optarg = false ∧
        (.help ∈ rest ∨ SearchAhead st opts) := by
  have hok : builtinsOk st.factories = true := hfs ▸ initial_builtinsOk
  induction opts generalizing st with
  | nil =>
      change (finish ulong progname st operands).escaped = true ↔ _
      rw [finish_escaped_of_unselected hf hok]
      simp
  | cons opt opts ih =>
      cases hopt : opt.neutral with
      | true =>
          obtain ⟨st', hst', hf', hfs', hsearch⟩ := processOption_neutral progname st hopt
          rw [runFrom_of_ok hst', List.dropWhile_cons_of_pos hopt, searchAhead_cons hsearch]
          exact ih (hf'.trans hf) (hfs'.trans hfs) (hfs' ▸ hok)
      | false =>
          rw [List.dropWhile_cons_of_neg (by rw [hopt]; decide)]
          -- the usage text comes out, with all factories as they were
          have husage : ∀ st' : MainState, st'.factories = st.factories → ∀ status,
              processOption progname st opt = .error (st'.usageReturn progname status) →
              (runFrom ulong progname st (opt :: opts) operands).escaped = false := by
            intro st' hfs' status h
            rw [runFrom_of_error h, usageReturn_escaped, hfs', hok]
            rfl
          cases opt with
          | «algorithm» name => exact escaped_of_algorithm hf hfs name opts
          | help =>
              rw [husage st rfl 0 rfl]
              simp
          | generator optarg =>
              rw [husage (st.complain _) rfl 1 (setParameter_unselected hf optarg _ _)]
              simp
          | invert optarg =>
              rw [husage (st.complain _) rfl 1 (setParameter_unselected hf optarg _ _)]
              simp
          | preset optarg =>
              rw [husage (st.complain _) rfl 1 (setParameter_unselected hf optarg _ _)]
              simp
          | _ => cases hopt

theorem main_escaped_iff (ulong : Nat) (argv : List (List Char)) (opts : List Opt)
    (operands : List (List Char)) :
    (main ulong argv opts operands).escaped = true ↔ SpoilsUsage opts := by
  change (runFrom ulong (argv.headD []) (.init (echo argv .new)) opts operands).escaped = true ↔ _
  rw [escaped_of_unselected rfl rfl]
  simp [SpoilsUsage, SearchAhead, MainState.init]

/-- **No exception leaves the tool** exactly when the options do not spoil the usage text. -/
theorem main_returns_iff (ulong : Nat) (argv : List (List Char)) (opts : List Opt)
    (operands : List (List Char)) :
    (∃ status cout cerr, main ulong argv opts operands = .returned status cout cerr) ↔
      ¬ SpoilsUsage opts := by
  rw [← Outcome.escaped_eq_false_iff, ← Bool.not_eq_true, main_escaped_iff]

/-- `crc -a crc8 -g 00 -h`. -/
theorem not_main_returns_crc8 :
    ¬ ∃ status cout cerr, main 64 ["crc".toList]
      [.algorithm "crc8".toList, .generator "00".toList, .help] [] =
        .returned status cout cerr := by
  rw [← Outcome.escaped_eq_false_iff, Bool.not_eq_false, main_escaped_iff]
  exact ⟨⟨"crc8", .crc8⟩, by decide, [.generator "00".toList, .help], "00".toList, rfl, rfl,
    by decide +kernel, .inl (by decide)⟩

end CrcPP
