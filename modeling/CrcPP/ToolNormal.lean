import CrcPP.ToolCommandLine
import CrcPP.ToolRun
import CrcPP.ToolSelection

/-!
# CrcPP.ToolNormal

**What a run in normal operation writes and returns**, for any options that lead to it: the
table with `-w`, and otherwise the message and its CRC, as hex digits or as they are
with `-b`, behind a description with `-V`. With `-v` the status says whether the message
is good (`main_normal`), and that is so exactly when its last bytes are the CRC of what
stands in front of them (`commandLine_verify_iff`). On `std::cerr` it leaves the echo of
the command line and the complaints about its arguments, in their order
(`main_complaints`).
-/

namespace CrcPP

variable {T : DataType} {P : PolyType T}

/-- What is written with `-b`: the message and its CRC. -/
def binaryText (t : CRCTest P) (bs : List Byte) : List Char :=
  (bs ++ (t.crcAlgorithm.addAll bs).result).map charOfByte

/-- What a run in normal operation writes for a message. -/
def normalText (ulong : Nat) (t : CRCTest P) (opts : List Opt) (bs : List Byte) : List Char :=
  if .writeTable ∈ opts then (t.writeTable ulong .new).text
  else
    (if .verbose ∈ opts then describeText t else []) ++
      if .binary ∈ opts then binaryText t bs
      else runText t bs (remark (.verify ∈ opts) (t.crcAlgorithm.addAll bs).good)

/-- The status of a run in normal operation. -/
def normalStatus (t : CRCTest P) (opts : List Opt) (bs : List Byte) : Nat :=
  if .writeTable ∈ opts ∨ .verify ∉ opts ∨ (t.crcAlgorithm.addAll bs).good = true then 0 else 1

/-! ### The run -/

/-- The factory that the options behind the first `-a` leave selected. -/
def selected (a : AlgorithmFactory) (rest : List Opt) : ICRCTestFactory :=
  ((Selection.start a).applyAll rest).factory

/-- What stands in front of the operands' bytes. -/
theorem exists_head {f : ICRCTestFactory} {t : CRCTest f.P} (ht : f.createTest = .ok t) (p : Prop)
    [Decidable p] :
    ∃ b fill, (if p then (t.describe .new).endl else .new) =
      ⟨if p then describeText t else [], b, fill, 0⟩ := by
  by_cases hp : p
  · rw [if_pos hp, if_pos hp, OStream.new, describe_eq ht, OStream.endl_mk]
    exact ⟨_, _, rfl⟩
  · rw [if_neg hp, if_neg hp]
    exact ⟨_, _, rfl⟩

/-- The flags of a plain run; `-v` is left open. -/
structure Plain (st : MainState) : Prop where
  doWriteTable : st.doWriteTable = false
  doSearch : st.doSearch = false
  verbosity : st.verbosity = 0
  binaryOutput : st.binaryOutput = false

theorem runTest_normal {f : ICRCTestFactory} {t : CRCTest f.P} (ht : f.createTest = .ok t)
    {st : MainState} (hplain : Plain st) (hverify : st.doVerify = false) (ulong : Nat)
    (opts : List Opt) (operands : List (List Char)) :
    ∃ cout cerr, runTest ulong (st.withFlags opts) t operands =
        .returned (normalStatus t opts (operands.map operandByte)) cout cerr ∧
      cout.text = normalText ulong t opts (operands.map operandByte) := by
  have hw : (st.withFlags opts).doWriteTable = decide (.writeTable ∈ opts) := by
    simp [MainState.withFlags, hplain.doWriteTable]
  have hb : (st.withFlags opts).binaryOutput = decide (.binary ∈ opts) := by
    simp [MainState.withFlags, hplain.binaryOutput]
  have hv : (st.withFlags opts).doVerify = decide (.verify ∈ opts) := by
    simp [MainState.withFlags, hverify]
  have hV : (st.withFlags opts).verbosity > 0 ↔ .verbose ∈ opts := by
    simp [MainState.withFlags, hplain.verbosity]
  unfold runTest
  rw [hw, hb, hv, normalStatus, normalText]
  simp only [hV]
  by_cases hwrite : .writeTable ∈ opts
  · rw [if_pos (decide_eq_true hwrite), if_pos (Or.inl hwrite), if_pos hwrite]
    exact ⟨_, _, rfl, rfl⟩
  · rw [if_neg (by simpa using hwrite), if_neg hwrite]
    obtain ⟨b, fill, hhead⟩ := exists_head ht (.verbose ∈ opts)
    generalize (if Opt.verbose ∈ opts then describeText t else []) = head at hhead ⊢
    rw [hhead]
    have hstatus : (if (!decide (Opt.verify ∈ opts) ||
          (t.crcAlgorithm.addAll (operands.map operandByte)).good) = true then 0 else 1) =
        if Opt.writeTable ∈ opts ∨ Opt.verify ∉ opts ∨
          (t.crcAlgorithm.addAll (operands.map operandByte)).good = true then 0 else 1 := by
      simp [hwrite]
    by_cases hbinary : .binary ∈ opts
    · obtain ⟨cerr, hadd⟩ :=
        addOperands_binary operands t.crcAlgorithm head b fill (st.withFlags opts).cerr
      rw [decide_eq_true hbinary, hadd, if_pos hbinary, ← hstatus]
      dsimp only
      rw [if_pos rfl, OStream.write_mk]
      refine ⟨_, _, rfl, ?_⟩
      rw [binaryText, List.map_append, List.append_assoc]
    · obtain ⟨b', cerr, hadd⟩ :=
        addOperands_hex operands t.crcAlgorithm head b fill (st.withFlags opts).cerr
      rw [decide_eq_false hbinary, hadd, if_neg hbinary, ← hstatus]
      dsimp only
      rw [if_neg Bool.false_ne_true, hexDump_mk]
      refine ⟨_, _, rfl, ?_⟩
      rw [runText, remark]
      by_cases hverify : .verify ∈ opts
      · rw [decide_eq_true hverify, if_pos rfl, if_pos rfl, OStream.str_mk, OStream.endl_mk]
        simp only [List.append_assoc]
      · rw [decide_eq_false hverify, if_neg Bool.false_ne_true, if_neg Bool.false_ne_true,
          OStream.endl_mk]
        simp only [List.append_assoc, List.nil_append]

section Normal

variable (ulong : Nat) (argv : List (List Char)) {a : AlgorithmFactory}
  (ha : a ∈ generics ++ algorithms) {opts rest : List Opt}
  (hopts : configuration opts = .algorithm a.name.toList :: rest) (hhelp : .help ∉ rest)
  (hsearch : .search ∉ opts) (operands : List (List Char))

include ha hopts hhelp hsearch

/-- Behind the loop no flag is set, and the complaints about the arguments are written. -/
theorem exists_main_eq_runNormal :
    ∃ st, Plain st ∧ st.doVerify = false ∧
      st.cerr = ⟨echoText argv ++ (Selection.start a).complaints rest, .dec, ' ', 0⟩ ∧
      main ulong argv opts operands =
        runNormal ulong (st.withFlags opts) (selected a rest) operands :=
  ⟨selectedState argv ((Selection.start a).applyAll rest) ((Selection.start a).complaints rest),
    ⟨rfl, rfl, rfl, rfl⟩, rfl, rfl, main_eq_runNormal ulong argv operands ha hopts hhelp hsearch⟩

/-- **A run in normal operation**, for any options that lead to it: what it writes and returns
with the factory that they leave selected. When no test can be created it writes nothing
and returns 1. -/
theorem main_normal :
    (∀ e, (selected a rest).createTest = .error e →
      ∃ cerr, main ulong argv opts operands = .returned 1 .new cerr) ∧
    ∀ t, (selected a rest).createTest = .ok t → ∃ cout cerr,
      main ulong argv opts operands =
        .returned (normalStatus t opts (operands.map operandByte)) cout cerr ∧
      cout.text = normalText ulong t opts (operands.map operandByte) := by
  obtain ⟨st, hplain, hverify, -, hmain⟩ :=
    exists_main_eq_runNormal ulong argv ha hopts hhelp hsearch operands
  rw [hmain, runNormal]
  constructor
  · intro e he
    rw [he]
    exact ⟨_, rfl⟩
  · intro t ht
    rw [ht]
    exact runTest_normal ht hplain hverify ulong opts operands

end Normal

/-- `crc -V -a g16 -b -g 1021 31`. -/
theorem main_normal_g16 :
    ∃ t, (selected ⟨"g16", .g16⟩ [.generator "1021".toList]).createTest = .ok t ∧
      ∃ cout cerr, main 64 ["crc".toList]
          [.verbose, .algorithm "g16".toList, .binary, .generator "1021".toList] ["31".toList] =
            .returned 0 cout cerr ∧
        cout.text = describeText t ++ binaryText t (["31".toList].map operandByte) := by
  have hok : (selected ⟨"g16", .g16⟩ [.generator "1021".toList]).createTest.isOk = true := by
    rw [ICRCTestFactory.createTest_isOk_iff]
    decide +kernel
  cases ht : (selected ⟨"g16", .g16⟩ [.generator "1021".toList]).createTest with
  | error e =>
      rw [ht] at hok
      cases hok
  | ok t =>
      have hopts : configuration [.verbose, .algorithm "g16".toList, .binary,
          .generator "1021".toList] = [.algorithm "g16".toList, .generator "1021".toList] := by
        simp [configuration, Opt.isFlag]
      obtain ⟨cout, cerr, hmain, htext⟩ := (main_normal 64 ["crc".toList] (a := ⟨"g16", .g16⟩)
        (by decide) hopts (by simp) (by simp) ["31".toList]).2 t ht
      exact ⟨t, rfl, cout, cerr, hmain, htext⟩

/-! ### Verification -/

/-- The message is good exactly when its last bytes are the CRC of what stands in front of
them. -/
theorem good_addAll_iff (f : ICRCTestFactory) {t : CRCTest f.P} (ht : f.createTest = .ok t)
    (bs : List Byte) (hlen : f.numBytes ≤ bs.length) :
    (t.crcAlgorithm.addAll bs).good = true ↔
      bs.drop (bs.length - f.numBytes) =
        (t.crcAlgorithm.addAll (bs.take (bs.length - f.numBytes))).result := by
  obtain ⟨c, -, rfl⟩ := exists_of_createTest ht
  have hdrop : (bs.drop (bs.length - f.numBytes)).length = f.T.sizeof := by
    rw [List.length_drop, Nat.sub_sub_self hlen, ICRCTestFactory.numBytes]
  obtain ⟨w, hw⟩ := CRCStream.exists_c_str_eq (T := f.T) f.order _ hdrop
  have hinsert := CRCStream.process_append f.order
    (CRCStream.new c f.theFactory.thePreset f.theFactory.theInvert)
    (bs.take (bs.length - f.numBytes)) w
  rw [hw, List.take_append_drop] at hinsert
  rw [CRCAlgorithm.good, CRCAlgorithm.result, CRCAlgorithm.addAll_new_crcStream,
    CRCAlgorithm.addAll_new_crcStream, hinsert,
    CRCStream.good_insertPoly_iff (polyType_lossless f.order f.T), ← hw, CRCStream.result]
  constructor
  · intro h
    rw [h]
  · intro h
    have hbits := congrArg f.order.bytesBits h
    rw [bytesBits_c_str, bytesBits_c_str] at hbits
    exact f.order.polyBits_injective f.T hbits

/-- **Verification on the command line**: with `-v` the status is 0 exactly when the bytes of
the operands end with the CRC of the bytes in front. -/
theorem commandLine_verify_iff {argv : List (List Char)} {a : AlgorithmFactory}
    (ha : a ∈ generics ++ algorithms) {rest : List Opt}
    (hopts : configuration (parsedOptions argv) = .algorithm a.name.toList :: rest)
    (hhelp : .help ∉ rest) (hverify : .verify ∈ parsedOptions argv)
    (hsearch : .search ∉ parsedOptions argv) (hwrite : .writeTable ∉ parsedOptions argv)
    {t : CRCTest (selected a rest).P} (ht : (selected a rest).createTest = .ok t)
    {bs : List Byte} (hbs : (parsedOperands argv).map operandByte = bs)
    (hlen : (selected a rest).numBytes ≤ bs.length) (ulong : Nat) {fuel : Nat}
    (hfuel : CommandLine.size argv.tail < fuel) :
    ∃ status cout cerr, commandLine ulong fuel argv = some (.returned status cout cerr) ∧
      (status = 0 ∨ status = 1) ∧
      (status = 0 ↔ bs.drop (bs.length - (selected a rest).numBytes) =
        (t.crcAlgorithm.addAll (bs.take (bs.length - (selected a rest).numBytes))).result) := by
  obtain ⟨st, hplain, hv, -, hmain⟩ :=
    exists_main_eq_runNormal ulong argv ha hopts hhelp hsearch (parsedOperands argv)
  obtain ⟨cout, cerr, hrun, -⟩ :=
    runTest_normal ht hplain hv ulong (parsedOptions argv) (parsedOperands argv)
  refine ⟨normalStatus t (parsedOptions argv) bs, cout, cerr, ?_, ?_, ?_⟩
  · rw [commandLine_run ulong argv hfuel, hmain, runNormal, ht]
    exact congrArg some (hrun.trans (by rw [hbs]))
  · rw [normalStatus]
    split
    · exact .inl rfl
    · exact .inr rfl
  · rw [← good_addAll_iff _ ht bs hlen, normalStatus]
    simp [hwrite, hverify]

/-- `crc -va crc8 31 97`. -/
theorem commandLine_verify_iff_crc8 :
    ∃ t, (selected ⟨"crc8", .crc8⟩ []).createTest = .ok t ∧
      ∃ status cout cerr, commandLine 64 20 ["crc".toList, "-va".toList, "crc8".toList,
          "31".toList, "97".toList] = some (.returned status cout cerr) ∧
        (status = 0 ∨ status = 1) ∧
        (status = 0 ↔ [0x97] = (t.crcAlgorithm.addAll [0x31]).result) := by
  have hok : (selected ⟨"crc8", .crc8⟩ []).createTest.isOk = true := by
    rw [ICRCTestFactory.createTest_isOk_iff]
    decide +kernel
  cases ht : (selected ⟨"crc8", .crc8⟩ []).createTest with
  | error e =>
      rw [ht] at hok
      cases hok
  | ok t =>
      have hflags : List.Forall₂ (fun c o => toolGrammar.short c = some (o, false)) ['v'] ['v'] :=
        .cons (by decide) .nil
      have hspell := CommandLine.Spelling.separate "crc8".toList hflags
        (show toolGrammar.short 'a' = some ('a', true) by decide) (by decide)
      have hparse : CommandLine.parse toolGrammar
          ["-va".toList, "crc8".toList, "31".toList, "97".toList] =
            ([.verify, .algorithm "crc8".toList].map Opt.item, ["31".toList, "97".toList]) :=
        CommandLine.parse_spells_operands (.single hspell) (by decide)
      have hopts := parsedOptions_of_parse "crc".toList hparse
      have hops := parsedOperands_of_parse "crc".toList hparse
      have hconfig : configuration (parsedOptions ["crc".toList, "-va".toList, "crc8".toList,
          "31".toList, "97".toList]) = [.algorithm "crc8".toList] := by
        rw [hopts]
        simp [configuration, Opt.isFlag]
      have hbytes : (parsedOperands ["crc".toList, "-va".toList, "crc8".toList, "31".toList,
          "97".toList]).map operandByte = [0x31, 0x97] := by
        rw [hops]
        decide
      exact ⟨t, rfl, commandLine_verify_iff (a := ⟨"crc8", .crc8⟩) (by decide) hconfig (by simp)
        (by rw [hopts]; simp) (by rw [hopts]; simp) (by rw [hopts]; simp) ht hbytes (by decide) 64
        (by decide)⟩

/-! ### Complaints -/

theorem addOperands_complaints {T : DataType} {P : PolyType T} (binaryOutput : Bool)
    (operands : List (List Char)) (algo : CRCAlgorithm P) (cout : OStream) (t : List Char)
    (fill : Char) :
    (addOperands binaryOutput operands algo cout ⟨t, .dec, fill, 0⟩).2.2 =
      ⟨t ++ operands.flatMap (hexComplaints · 2), .dec, fill, 0⟩ := by
  induction operands generalizing algo cout t with
  | nil => simp [addOperands]
  | cons operand operands ih =>
      rw [addOperands]
      dsimp only
      rw [toHex_mk, ih, List.flatMap_cons, List.append_assoc]

/-- Without `-w` the operands are read. -/
theorem runTest_complaints {T : DataType} {P : PolyType T} (ulong : Nat) (st : MainState)
    (t : CRCTest P) (operands : List (List Char)) {s : List Char} {fill : Char}
    (hcerr : st.cerr = ⟨s, .dec, fill, 0⟩) :
    ∃ status cout cerr, runTest ulong st t operands = .returned status cout cerr ∧
      cerr.text = s ++ if st.doWriteTable then [] else operands.flatMap (hexComplaints · 2) := by
  unfold runTest
  rw [hcerr]
  cases st.doWriteTable with
  | true => exact ⟨_, _, _, rfl, by simp⟩
  | false => exact ⟨_, _, _, rfl, by rw [addOperands_complaints]; simp⟩

/-- What is written about an invalid polynomial. -/
def polynomialText (e : LogicError) : List Char :=
  "ERROR: Invalid polynomial: ".toList ++ ['\n'] ++ ">>>>>> ".toList ++ e.what.toList ++ ['\n']

theorem complain_polynomial (t : List Char) (b : OStream.Base) (fill : Char) (e : LogicError) :
    (((((⟨t, b, fill, 0⟩ : OStream).str "ERROR: Invalid polynomial: ").endl.str ">>>>>> ").str
      e.what).endl).text = t ++ polynomialText e := by
  unfold polynomialText
  simp only [OStream.str_mk, OStream.endl_mk, List.append_assoc]

/-- What is written behind the option loop: about the polynomial or, if they are read, about
the operands. -/
def outcomeText {α : Type} (opts : List Opt) (operands : List (List Char)) :
    Except LogicError α → List Char
  | .error e => polynomialText e
  | .ok _ => if .writeTable ∈ opts then [] else operands.flatMap (hexComplaints · 2)

/-- **What a run in normal operation writes to `std::cerr`**: the echo, the complaints about
the arguments of the options, and those about the operands. -/
theorem main_complaints (ulong : Nat) (argv : List (List Char)) {a : AlgorithmFactory}
    (ha : a ∈ generics ++ algorithms) {opts rest : List Opt}
    (hopts : configuration opts = .algorithm a.name.toList :: rest) (hhelp : .help ∉ rest)
    (hsearch : .search ∉ opts) (operands : List (List Char)) :
    ∃ status cout cerr, main ulong argv opts operands = .returned status cout cerr ∧
      cerr.text = echoText argv ++ (Selection.start a).complaints rest ++
        outcomeText opts operands (selected a rest).createTest := by
  obtain ⟨st, hplain, -, hcerr, hmain⟩ :=
    exists_main_eq_runNormal ulong argv ha hopts hhelp hsearch operands
  have hwrite : (st.withFlags opts).doWriteTable = decide (.writeTable ∈ opts) := by
    simp [MainState.withFlags, hplain.doWriteTable]
  rw [hmain, runNormal]
  cases (selected a rest).createTest with
  | error e =>
      refine ⟨_, _, _, rfl, ?_⟩
      rw [show (st.withFlags opts).cerr = st.cerr from rfl, hcerr, complain_polynomial, outcomeText]
  | ok t =>
      obtain ⟨status, cout, cerr, hrun, htext⟩ :=
        runTest_complaints ulong (st.withFlags opts) t operands hcerr
      refine ⟨status, cout, cerr, hrun, ?_⟩
      rw [htext, hwrite, outcomeText]
      simp

/-- `crc -a g16 -v -g 10x21 -a g8 3z 414`. -/
theorem main_complaints_g8 :
    ∃ status cout cerr, main 64 ["crc".toList]
        [.algorithm "g16".toList, .verify, .generator "10x21".toList, .algorithm "g8".toList]
          ["3z".toList, "414".toList] = .returned status cout cerr ∧
      cerr.text = echoText ["crc".toList] ++ (Selection.start ⟨"g16", .g16⟩).complaints
          [.generator "10x21".toList, .algorithm "g8".toList] ++
        outcomeText [.algorithm "g16".toList, .verify, .generator "10x21".toList,
            .algorithm "g8".toList] ["3z".toList, "414".toList]
          (selected ⟨"g16", .g16⟩ [.generator "10x21".toList, .algorithm "g8".toList]).createTest :=
  main_complaints 64 ["crc".toList] (a := ⟨"g16", .g16⟩) (by decide)
    (by simp [configuration, Opt.isFlag]) (by simp) (by simp) _

end CrcPP
