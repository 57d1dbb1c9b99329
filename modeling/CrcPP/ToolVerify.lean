import CrcPP.Check
import CrcPP.ToolSearch

/-!
# CrcPP.ToolVerify

**The tool verifies what it generates.** A run with `-a`, parameters and no flag but `-v` is
a run in normal operation with the factory that has these parameters (`main_configured`).
Its text gives back the digits of the message and its CRC, and `toHex` reads them as they
were. Whatever the operands were, a second run sees a message with its CRC behind it, which
`good` accepts in a full-width class (`good_addByte_result`), and a search reports the
algorithm that the CRC is from (`main_search`).
-/

namespace CrcPP

open Words

variable {T : DataType}

/-- Bytes with their result behind them are good, whatever preset and inversion are. -/
theorem good_addByte_result (o : BitOrder) (f : CRCFactory (o.polyType T T.bits))
    (c : CRC (o.polyType T T.bits)) (bs : List Byte) :
    ((CRCTest.ofCRC f c).crcAlgorithm.addAll
      (bs ++ ((CRCTest.ofCRC f c).crcAlgorithm.addAll bs).result)).good = true := by
  rw [CRCAlgorithm.good, CRCAlgorithm.result, CRCAlgorithm.addAll_new_crcStream,
    CRCAlgorithm.addAll_new_crcStream, CRCStream.result, CRCStream.process_append,
    CRCStream.good_insertPoly_iff (polyType_lossless o T)]

theorem operandByte_byteToken (b : Byte) : operandByte (byteToken b) = b := by
  rw [operandByte, hexValue, toHex_byteToken, BitVec.setWidth_setWidth_of_le b (by decide),
    BitVec.setWidth_eq]

/-! ### Parameters -/

/-- The options that set a parameter of the selected algorithm. -/
def Opt.isParameter : Opt → Bool
  | .generator _ | .invert _ | .preset _ => true
  | _ => false

/-- Make the parameters of a factory those that the options say. -/
def configureAll (params : List Opt) (f : ICRCTestFactory) : ICRCTestFactory :=
  params.foldl (fun f opt => opt.configure f) f

/-- The factory of an algorithm with the parameters that the options say. -/
def configured (a : AlgorithmFactory) (params : List Opt) : ICRCTestFactory :=
  configureAll params (initialFactories a.factory)

theorem isFlag_of_isParameter {opt : Opt} (h : opt.isParameter = true) : opt.isFlag = false := by
  cases opt with
  | generator | invert | preset => rfl
  | _ => simp [Opt.isParameter] at h

/-- They change the selected factory, and no other is selected. -/
theorem applyAll_of_isParameter {params : List Opt}
    (hparams : ∀ opt ∈ params, opt.isParameter = true) (s : Selection) :
    (s.applyAll params).factory = configureAll params s.factory := by
  induction params generalizing s with
  | nil => rfl
  | cons opt params ih =>
      have hselect : opt.select s.theFactory = s.theFactory := by
        have hopt := hparams opt List.mem_cons_self
        cases opt with
        | «algorithm» name => simp [Opt.isParameter] at hopt
        | _ => rfl
      have hfactory : (s.apply opt).factory = opt.configure s.factory := by
        rw [Selection.factory, Selection.apply]
        dsimp only
        rw [hselect, Function.update_self]
      have hrest := ih (fun o ho => hparams o (List.mem_cons_of_mem opt ho)) (s.apply opt)
      rw [hfactory] at hrest
      exact hrest

theorem selected_eq_configured (a : AlgorithmFactory) {params : List Opt}
    (hparams : ∀ opt ∈ params, opt.isParameter = true) : selected a params = configured a params :=
  applyAll_of_isParameter hparams (.start a)

section Configured

variable {a : AlgorithmFactory} {opts params : List Opt}
  (hopts : opts.filter (· ≠ .verify) = .algorithm a.name.toList :: params)
  (hparams : ∀ opt ∈ params, opt.isParameter = true)

include hopts hparams

/-- No flag but `-v` is set. -/
theorem eq_verify_of_isFlag {opt : Opt} (hmem : opt ∈ opts) (hflag : opt.isFlag = true) :
    opt = .verify := by
  by_contra hne
  have hother : opt ∈ opts.filter (· ≠ .verify) := List.mem_filter.mpr ⟨hmem, by simpa using hne⟩
  rw [hopts] at hother
  obtain rfl | hparam := List.mem_cons.mp hother
  · simp [Opt.isFlag] at hflag
  · rw [isFlag_of_isParameter (hparams opt hparam)] at hflag
    exact Bool.false_ne_true hflag

theorem configuration_eq_of_filter :
    configuration opts = .algorithm a.name.toList :: params := by
  rw [← hopts]
  refine List.filter_congr fun opt hmem => ?_
  cases hflag : opt.isFlag with
  | true =>
      obtain rfl := eq_verify_of_isFlag hopts hparams hmem hflag
      rfl
  | false =>
      have hne : opt ≠ .verify := by
        rintro rfl
        cases hflag
      rw [decide_eq_true hne]
      rfl

/-- **A run with parameters**, and no flag but `-v`. -/
theorem main_configured (ulong : Nat) (argv : List (List Char))
    (ha : a ∈ generics ++ algorithms) {t : CRCTest (configured a params).P}
    (ht : (configured a params).createTest = .ok t) (operands : List (List Char)) :
    ∃ cout cerr, main ulong argv opts operands =
        .returned (if !decide (.verify ∈ opts) ||
          (t.crcAlgorithm.addAll (operands.map operandByte)).good then 0 else 1) cout cerr ∧
      cout.text = runText t (operands.map operandByte)
        (remark (.verify ∈ opts) (t.crcAlgorithm.addAll (operands.map operandByte)).good) := by
  have hunset : ∀ opt : Opt, opt.isFlag = true → opt ≠ .verify → opt ∉ opts :=
    fun opt hflag hne hmem => hne (eq_verify_of_isFlag hopts hparams hmem hflag)
  have hwrite : .writeTable ∉ opts := hunset _ rfl (by simp)
  have hhelp : .help ∉ params := fun h => absurd (hparams _ h) (by decide)
  obtain ⟨st, hplain, hverify, -, hmain⟩ := exists_main_eq_runNormal ulong argv ha
    (configuration_eq_of_filter hopts hparams) hhelp (hunset .search rfl (by simp)) operands
  obtain ⟨cout, cerr, hrun, htext⟩ := runTest_normal ht hplain hverify ulong opts operands
  rw [selected_eq_configured a hparams, runNormal, ht] at hmain
  refine ⟨cout, cerr, ?_, ?_⟩
  · rw [hmain]
    refine hrun.trans ?_
    simp [normalStatus, hwrite]
  · rw [htext, normalText, if_neg hwrite, if_neg (hunset .verbose rfl (by simp)),
      if_neg (hunset .binary rfl (by simp)), List.nil_append]

end Configured

/-- **A run of the search**, on bytes that are good for a built-in algorithm. -/
theorem main_search (ulong : Nat) (argv : List (List Char)) {a : AlgorithmFactory}
    (ha : a ∈ algorithms) {t : CRCTest (initialFactories a.factory).P}
    (ht : (initialFactories a.factory).createTest = .ok t) {operands : List (List Char)}
    (hne : operands ≠ [])
    (hgood : (t.crcAlgorithm.addAll (operands.map operandByte)).good = true) :
    ∃ cout cerr, main ulong argv [.search] operands = .returned 0 cout cerr ∧
      reportLine a <:+: cout.text := by
  have haccepts : a.accepts (operands.map operandByte) = true :=
    (AlgorithmFactory.accepts_eq ht _).trans hgood
  have hfactories : ((MainState.init (echo argv .new)).withFlags [.search]).factories =
      initialFactories := rfl
  obtain ⟨status, cout, cerr, hrun, htext, hstatus⟩ :=
    runSearch_operands (argv.headD []) hfactories hne
  refine ⟨cout, cerr, ?_, ?_⟩
  · rw [if_pos ⟨a, ha, haccepts⟩] at hstatus
    rw [main_eq_runSearch ulong argv rfl List.mem_cons_self (by simp), hrun, hstatus]
  · have hline : reportLine a <:+: a.report := by
      rw [AlgorithmFactory.report_eq ht]
      exact (List.prefix_append _ _).isInfix
    have hreport : a.report <:+:
        (algorithms.filter (·.accepts (operands.map operandByte))).flatMap (·.report) :=
      List.infix_of_mem_flatten (List.mem_map_of_mem (List.mem_filter.mpr ⟨ha, haccepts⟩))
    rw [htext, searchText]
    exact (hline.trans hreport).trans (List.suffix_append _ _).isInfix

/-- **The tool verifies what it generates**, for an algorithm with any parameters for which
a test can be created, and any operands. -/
theorem verifies_what_it_generates (ulong : Nat) {a : AlgorithmFactory}
    (ha : a ∈ generics ++ algorithms) {params : List Opt}
    (hparams : ∀ opt ∈ params, opt.isParameter = true) {t : CRCTest (configured a params).P}
    (ht : (configured a params).createTest = .ok t) (argv : List (List Char))
    (operands : List (List Char)) :
    ∃ cout cerr,
      main ulong argv (.algorithm a.name.toList :: params) operands = .returned 0 cout cerr ∧
      (∀ argv' opts, opts.filter (· ≠ .verify) = .algorithm a.name.toList :: params →
        .verify ∈ opts → ∃ cout' cerr',
          main ulong argv' opts (words cout.text) = .returned 0 cout' cerr' ∧
          cout'.text = runText t ((words cout.text).map operandByte) " (OK)".toList) ∧
      (a ∈ algorithms → params = [] → ∀ argv', ∃ cout' cerr',
        main ulong argv' [.search] (words cout.text) = .returned 0 cout' cerr' ∧
        reportLine a <:+: cout'.text) := by
  have hplain : ∀ opt ∈ Opt.algorithm a.name.toList :: params, opt ≠ .verify := by
    intro opt ho
    obtain rfl | ho := List.mem_cons.mp ho
    · simp
    · rintro rfl
      exact absurd (hparams _ ho) (by decide)
  have hfilter := List.filter_eq_self.mpr fun opt ho => decide_eq_true (hplain opt ho)
  obtain ⟨cout, cerr, hrun, htext⟩ := main_configured hfilter hparams ulong argv ha ht operands
  have hv : decide (.verify ∈ Opt.algorithm a.name.toList :: params) = false :=
    decide_eq_false fun h => hplain _ h rfl
  rw [hv] at hrun htext
  -- the second run and the search see a message with its result behind it
  obtain ⟨c, -, rfl⟩ := exists_of_createTest ht
  have hwords := words_runText (CRCTest.ofCRC (configured a params).theFactory c)
    (operands.map operandByte)
  have hgood := good_addByte_result (configured a params).order (configured a params).theFactory c
    (operands.map operandByte)
  change cout.text = runText _ _ [] at htext
  rw [← htext] at hwords
  have hbytes : (words cout.text).map operandByte = operands.map operandByte ++
      ((CRCTest.ofCRC (configured a params).theFactory c).crcAlgorithm.addAll
        (operands.map operandByte)).result := by
    rw [hwords, List.map_map]
    exact (List.map_congr_left fun b _ => operandByte_byteToken b).trans (List.map_id _)
  rw [← hbytes] at hgood
  refine ⟨cout, cerr, hrun, ?_, ?_⟩
  · intro argv' opts hopts hmem
    obtain ⟨cout', cerr', hrun', htext'⟩ :=
      main_configured hopts hparams ulong argv' ha ht (words cout.text)
    rw [hgood, decide_eq_true hmem] at hrun' htext'
    exact ⟨cout', cerr', hrun', htext'⟩
  · rintro hb rfl argv'
    refine main_search ulong argv' hb ht (fun hnil => ?_) hgood
    rw [hwords, List.map_eq_nil_iff, List.append_eq_nil_iff] at hnil
    exact CRCAlgorithm.result_ne_nil _ hnil.2

/-- `crc -a g16 -g 1021 31 zz` and what follows from it. -/
theorem verifies_what_it_generates_g16 :
    ∃ t, (configured ⟨"g16", .g16⟩ [.generator "1021".toList]).createTest = .ok t ∧
      ∃ cout cerr, main 64 ["crc".toList] [.algorithm "g16".toList, .generator "1021".toList]
          ["31".toList, "zz".toList] = .returned 0 cout cerr ∧
        ∃ cout' cerr', main 64 ["crc".toList]
            [.algorithm "g16".toList, .generator "1021".toList, .verify] (words cout.text) =
              .returned 0 cout' cerr' ∧
          cout'.text = runText t ((words cout.text).map operandByte) " (OK)".toList := by
  have hok : (configured ⟨"g16", .g16⟩ [.generator "1021".toList]).createTest.isOk = true := by
    rw [ICRCTestFactory.createTest_isOk_iff]
    decide +kernel
  cases ht : (configured ⟨"g16", .g16⟩ [.generator "1021".toList]).createTest with
  | error e =>
      rw [ht] at hok
      cases hok
  | ok t =>
      obtain ⟨cout, cerr, hrun, hverify, -⟩ := verifies_what_it_generates 64 (a := ⟨"g16", .g16⟩)
        (by decide) (by simp [Opt.isParameter]) ht
        ["crc".toList] ["31".toList, "zz".toList]
      exact ⟨t, rfl, cout, cerr, hrun, hverify ["crc".toList] _ (by rfl) (by simp)⟩

end CrcPP
