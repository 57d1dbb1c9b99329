import CrcPP.ToolHex
import CrcPP.ToolOptions

/-!
# CrcPP.ToolRun

**What the tool's loops write.** The operands are written byte by byte, as two digits behind
whitespace, and so is the result, so splitting the text of a run gives the digits of the
message and its CRC (`words_runText`). The search writes a line for every built-in
algorithm that accepts the bytes, in the order of the table (`searchAlgorithms_eq`).
-/

namespace CrcPP

open Words

variable {T : DataType}

/-! ### Bytes through the algorithm -/

namespace CRCAlgorithm

variable {P : PolyType T}

/-- Add bytes, one after the other. -/
def addAll (a : CRCAlgorithm P) (bs : List Byte) : CRCAlgorithm P := bs.foldl addByte a

theorem addAll_crcStream (a : CRCAlgorithm P) (bs : List Byte) :
    (a.addAll bs).crcStream = a.crcStream.insertBytes bs := by
  induction bs generalizing a with
  | nil => rfl
  | cons b bs ih => exact ih (a.addByte b)

theorem result_ne_nil (a : CRCAlgorithm P) : a.result ≠ [] := by
  intro h
  have hlen : a.result.length = T.sizeof := a.crcStream.result.length_rCRC
  rw [h] at hlen
  cases T <;> exact absurd hlen (by decide)

/-- A new algorithm processes its bytes. -/
theorem addAll_new_crcStream (f : CRCFactory P) (c : CRC P) (bs : List Byte) :
    ((CRCTest.ofCRC f c).crcAlgorithm.addAll bs).crcStream =
      (CRCStream.new c f.thePreset f.theInvert).process bs := by
  rw [addAll_crcStream]
  rfl

end CRCAlgorithm

/-! ### The text of a run -/

/-- The byte that an operand stands for, well-formed or not. -/
def operandByte (operand : List Char) : Byte := (hexValue operand 2).setWidth 8

/-- Bytes that are dumped one by one. -/
def bytesText (bs : List Byte) : List Char := bs.flatMap fun b => dumpText 0 [b]

theorem head_bytesText (bs : List Byte) : ∀ c ∈ (bytesText bs).head?, c.isWhitespace = true := by
  cases bs with
  | nil => simp [bytesText]
  | cons b bs =>
      intro c hc
      obtain rfl := Option.some.inj hc
      rfl

theorem words_bytesText (bs : List Byte) : words (bytesText bs) = bs.map byteToken := by
  induction bs with
  | nil => rfl
  | cons b bs ih =>
      rw [bytesText, List.flatMap_cons, ← bytesText, words_append (head_bytesText bs), ih,
        words_dumpText]
      rfl

/-- The remark behind the result. -/
def remark (doVerify good : Bool) : List Char :=
  if doVerify then (if good then " (OK)" else " (BAD)").toList else []

/-- The text of a run in normal operation: the operands' bytes, the result, a remark. -/
def runText {P : PolyType T} (t : CRCTest P) (bs : List Byte) (remark : List Char) : List Char :=
  bytesText bs ++ dumpText 0 (t.crcAlgorithm.addAll bs).result ++ remark ++ ['\n']

/-- The words of a plain run are the digits of the bytes and of the result. -/
theorem words_runText {P : PolyType T} (t : CRCTest P) (bs : List Byte) :
    words (runText t bs []) = (bs ++ (t.crcAlgorithm.addAll bs).result).map byteToken := by
  rw [runText, List.append_nil, words_append_singleton rfl, words_append (head_dumpText 0 _),
    words_bytesText, words_dumpText, List.map_append]

/-! ### The operands -/

theorem addOperands_hex {P : PolyType T} (operands : List (List Char)) (algo : CRCAlgorithm P)
    (s : List Char) (b : OStream.Base) (fill : Char) (cerr : OStream) :
    ∃ b' cerr', addOperands false operands algo ⟨s, b, fill, 0⟩ cerr =
      (algo.addAll (operands.map operandByte),
        ⟨s ++ bytesText (operands.map operandByte), b', fill, 0⟩, cerr') := by
  induction operands generalizing algo s b cerr with
  | nil =>
      refine ⟨b, cerr, ?_⟩
      rw [addOperands, List.map_nil, bytesText, List.flatMap_nil, List.append_nil]
      rfl
  | cons operand operands ih =>
      obtain ⟨b', cerr', h⟩ := ih (algo.addByte (operandByte operand))
        (s ++ dumpText 0 [operandByte operand]) .dec (toHex operand 2 cerr).2
      refine ⟨b', cerr', ?_⟩
      rw [addOperands]
      dsimp only
      rw [if_neg Bool.false_ne_true, toHex_fst, hexDump_mk, ← operandByte, h, List.append_assoc]
      rfl

theorem addOperands_binary {P : PolyType T} (operands : List (List Char)) (algo : CRCAlgorithm P)
    (s : List Char) (b : OStream.Base) (fill : Char) (cerr : OStream) :
    ∃ cerr', addOperands true operands algo ⟨s, b, fill, 0⟩ cerr =
      (algo.addAll (operands.map operandByte),
        ⟨s ++ (operands.map operandByte).map charOfByte, b, fill, 0⟩, cerr') := by
  induction operands generalizing algo s cerr with
  | nil =>
      refine ⟨cerr, ?_⟩
      rw [addOperands, List.map_nil, List.map_nil, List.append_nil]
      rfl
  | cons operand operands ih =>
      obtain ⟨cerr', h⟩ := ih (algo.addByte (operandByte operand))
        (s ++ [charOfByte (operandByte operand)]) (toHex operand 2 cerr).2
      refine ⟨cerr', ?_⟩
      rw [addOperands]
      dsimp only
      rw [if_pos rfl, toHex_fst, ← operandByte, OStream.put_mk, h, List.append_assoc]
      rfl

theorem readOperands_mk (operands : List (List Char)) (t : List Char) (fill : Char)
    (cerr : OStream) :
    ∃ cerr', readOperands operands ⟨t, .dec, fill, 0⟩ cerr =
      (operands.map operandByte, ⟨t ++ bytesText (operands.map operandByte), .dec, fill, 0⟩,
        cerr') := by
  induction operands generalizing t cerr with
  | nil =>
      refine ⟨cerr, ?_⟩
      rw [readOperands, List.map_nil, bytesText, List.flatMap_nil, List.append_nil]
  | cons operand operands ih =>
      obtain ⟨cerr', h⟩ := ih (t ++ dumpText 0 [operandByte operand]) (toHex operand 2 cerr).2
      refine ⟨cerr', ?_⟩
      rw [readOperands]
      dsimp only
      rw [toHex_fst, hexDump_mk, ← operandByte, h, List.append_assoc]
      rfl

/-! ### The search -/

/-- The begin of the line with which the search reports an algorithm. -/
def reportLine (a : AlgorithmFactory) : List Char :=
  "Algorithm: ".toList ++ a.name.toList ++ ": ".toList

/-- What `-V` writes. -/
def describeText {P : PolyType T} (t : CRCTest P) : List Char := (t.describe .new).text ++ ['\n']

/-- A built-in algorithm, as it is constructed, accepts some bytes. -/
def AlgorithmFactory.accepts (a : AlgorithmFactory) (bs : List Byte) : Bool :=
  match (initialFactories a.factory).createTest with
  | .ok t => (t.crcAlgorithm.addAll bs).good
  | .error _ => false

/-- The line with which the search reports an algorithm. -/
def AlgorithmFactory.report (a : AlgorithmFactory) : List Char :=
  match (initialFactories a.factory).createTest with
  | .ok t => reportLine a ++ describeText t
  | .error _ => []

/-- What a search writes. -/
def searchText (bs : List Byte) : List Char :=
  bytesText bs ++ ['\n'] ++ (algorithms.filter (·.accepts bs)).flatMap (·.report)

/-- The description is the same text on every stream. -/
theorem describe_eq {f : ICRCTestFactory} {t : CRCTest f.P} (h : f.createTest = .ok t)
    (s : List Char) (b : OStream.Base) (fill : Char) :
    t.describe ⟨s, b, fill, 0⟩ = ⟨s ++ (t.describe .new).text, .hex, '0', 0⟩ := by
  obtain ⟨c, -, rfl⟩ := exists_of_createTest h
  have h1 : 1 < f.T.bits := Nat.lt_of_lt_of_le (by decide) f.T.eight_le_bits
  rw [OStream.new, describe_mk (f.order.admits_bits f.T) h1,
    describe_mk (f.order.admits_bits f.T) h1]
  rfl

theorem searchAlgorithms_pass {fs : Factories} {a : AlgorithmFactory}
    {t : CRCTest (fs a.factory).P} (ht : (fs a.factory).createTest = .ok t) (src : List Byte)
    (list : List AlgorithmFactory) (found : Bool) (cout : OStream) :
    searchAlgorithms fs src (a :: list) found cout =
      if (t.crcAlgorithm.addAll src).good then searchAlgorithms fs src list true
        (t.describe (((cout.str "Algorithm: ").str a.name).str ": ")).endl
      else searchAlgorithms fs src list found cout := by
  rw [searchAlgorithms, ht]
  rfl

/-- Every built-in algorithm can create its test. -/
theorem exists_builtin_test {a : AlgorithmFactory} (ha : a ∈ algorithms) :
    ∃ t, (initialFactories a.factory).createTest = .ok t := by
  have hok := List.all_eq_true.mp initial_builtinsOk a ha
  cases ht : (initialFactories a.factory).createTest with
  | error e =>
      rw [ht] at hok
      cases hok
  | ok t => exact ⟨t, rfl⟩

section Builtin

variable {a : AlgorithmFactory} {t : CRCTest (initialFactories a.factory).P}
  (ht : (initialFactories a.factory).createTest = .ok t)

include ht

theorem AlgorithmFactory.accepts_eq (bs : List Byte) :
    a.accepts bs = (t.crcAlgorithm.addAll bs).good := by
  rw [accepts, ht]

theorem AlgorithmFactory.report_eq : a.report = reportLine a ++ describeText t := by
  rw [report, ht]

end Builtin

/-- One pass of the search. -/
theorem searchAlgorithms_step {a : AlgorithmFactory} (ha : a ∈ algorithms) (src : List Byte)
    (list : List AlgorithmFactory) (found : Bool) (s : List Char) (b : OStream.Base)
    (fill : Char) :
    ∃ b' fill', searchAlgorithms initialFactories src (a :: list) found ⟨s, b, fill, 0⟩ =
      searchAlgorithms initialFactories src list (found || a.accepts src)
        ⟨s ++ if a.accepts src then a.report else [], b', fill', 0⟩ := by
  obtain ⟨t, ht⟩ := exists_builtin_test ha
  rw [searchAlgorithms_pass ht, ← AlgorithmFactory.accepts_eq ht]
  cases hgood : a.accepts src with
  | true =>
      refine ⟨.hex, '0', ?_⟩
      rw [if_pos rfl, if_pos rfl, Bool.or_true, AlgorithmFactory.report_eq ht, OStream.str_mk,
        OStream.str_mk, OStream.str_mk]
      unfold reportLine describeText
      generalize "Algorithm: ".toList = u
      generalize ": ".toList = v
      rw [describe_eq ht, OStream.endl_mk]
      simp only [List.append_assoc]
  | false =>
      refine ⟨b, fill, ?_⟩
      rw [if_neg Bool.false_ne_true, if_neg Bool.false_ne_true, Bool.or_false, List.append_nil]

/-- The search reports the algorithms in its list that accept the bytes, and no others. -/
theorem searchAlgorithms_eq (src : List Byte) {list : List AlgorithmFactory}
    (hlist : ∀ a ∈ list, a ∈ algorithms) (found : Bool) (s : List Char) (b : OStream.Base)
    (fill : Char) :
    ∃ b' fill', searchAlgorithms initialFactories src list found ⟨s, b, fill, 0⟩ =
      .ok (found || list.any (·.accepts src),
        ⟨s ++ (list.filter (·.accepts src)).flatMap (·.report), b', fill', 0⟩) := by
  induction list generalizing found s b fill with
  | nil =>
      refine ⟨b, fill, ?_⟩
      rw [searchAlgorithms, List.any_nil, Bool.or_false, List.filter_nil, List.flatMap_nil,
        List.append_nil]
  | cons a list ih =>
      obtain ⟨b₀, fill₀, hstep⟩ :=
        searchAlgorithms_step (hlist a List.mem_cons_self) src list found s b fill
      obtain ⟨b', fill', hloop⟩ := ih (fun x hx => hlist x (List.mem_cons_of_mem a hx))
        (found || a.accepts src) (s ++ if a.accepts src then a.report else []) b₀ fill₀
      refine ⟨b', fill', ?_⟩
      rw [hstep, hloop, List.any_cons, Bool.or_assoc, List.append_assoc, List.filter_cons]
      by_cases hgood : a.accepts src = true
      · rw [if_pos hgood, if_pos hgood, List.flatMap_cons]
      · rw [if_neg hgood, if_neg hgood, List.nil_append]

/-- What a search writes and returns. -/
theorem runSearch_operands (progname : List Char) {st : MainState}
    (h : st.factories = initialFactories) {operands : List (List Char)} (hne : operands ≠ []) :
    ∃ status cout cerr, runSearch progname st operands = .returned status cout cerr ∧
      cout.text = searchText (operands.map operandByte) ∧
      status = if ∃ a ∈ algorithms, a.accepts (operands.map operandByte) then 0 else 1 := by
  obtain ⟨cerr, hread⟩ := readOperands_mk operands [] ' ' st.cerr
  obtain ⟨b, fill, hloop⟩ := searchAlgorithms_eq (operands.map operandByte)
    (fun _ ha => ha) false (bytesText (operands.map operandByte) ++ ['\n']) .dec ' '
  have hlen : ¬ (operands.map operandByte).length = 0 := by
    rwa [List.length_map, List.length_eq_zero_iff]
  rw [Bool.false_or] at hloop
  rw [runSearch, OStream.new, hread, List.nil_append]
  dsimp only
  rw [if_neg hlen, OStream.endl_mk, h, hloop]
  cases hany : algorithms.any (·.accepts (operands.map operandByte)) with
  | true =>
      refine ⟨_, _, _, rfl, rfl, ?_⟩
      rw [if_pos (by simpa using hany)]
  | false =>
      refine ⟨_, _, _, rfl, rfl, ?_⟩
      rw [if_neg (by simpa using hany)]

end CrcPP
