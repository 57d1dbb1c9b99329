import CrcPP.ToolNormal

/-!
# CrcPP.ToolSearch

**What a search reports**: exactly the built-in algorithms that accept the bytes of the
operands, in the order of the table, each in a line of its own behind the dump of the
bytes; and an algorithm accepts bytes that end with its CRC of what stands in front. The
status says whether there is any (`main_search_exact`).
-/

namespace CrcPP

/-- The search of a run whose options select nothing. -/
theorem main_eq_runSearch (ulong : Nat) (argv : List (List Char)) {opts : List Opt}
    (hopts : configuration opts = []) (hsearch : .search ∈ opts) (hwrite : .writeTable ∉ opts)
    (operands : List (List Char)) :
    main ulong argv opts operands = runSearch (argv.headD [])
      ((MainState.init (echo argv .new)).withFlags opts) operands := by
  rw [main_unselected ulong argv operands hopts]
  simp only [destination, hopts, if_pos hsearch, if_neg hwrite]
  rfl

theorem runSearch_nil {progname : List Char} {st : MainState}
    (h : builtinsOk st.factories = true) :
    ∃ cerr, runSearch progname st [] = .returned 1 .new cerr :=
  usageReturn_of_builtinsOk (st.complain "Please specify data to be checked") h progname 1

/-- **A search reports exactly the algorithms that accept the bytes**, and its status says
whether there is one. With no operands it reports none. -/
theorem main_search_exact (ulong : Nat) (argv : List (List Char)) {opts : List Opt}
    (hopts : configuration opts = []) (hsearch : .search ∈ opts) (hwrite : .writeTable ∉ opts)
    (operands : List (List Char)) :
    (operands = [] → ∃ cerr, main ulong argv opts operands = .returned 1 .new cerr) ∧
    (operands ≠ [] → ∃ status cout cerr,
      main ulong argv opts operands = .returned status cout cerr ∧
      cout.text = searchText (operands.map operandByte) ∧
      status = if ∃ a ∈ algorithms, a.accepts (operands.map operandByte) then 0 else 1) ∧
    ∀ a ∈ algorithms, ∃ t, (initialFactories a.factory).createTest = .ok t ∧
      ∀ bs : List Byte, (initialFactories a.factory).numBytes ≤ bs.length →
        (a.accepts bs = true ↔ bs.drop (bs.length - (initialFactories a.factory).numBytes) =
          (t.crcAlgorithm.addAll
            (bs.take (bs.length - (initialFactories a.factory).numBytes))).result) := by
  rw [main_eq_runSearch ulong argv hopts hsearch hwrite]
  refine ⟨?_, runSearch_operands _ rfl, ?_⟩
  · rintro rfl
    exact runSearch_nil initial_builtinsOk
  · intro a ha
    obtain ⟨t, ht⟩ := exists_builtin_test ha
    refine ⟨t, ht, fun bs hlen => ?_⟩
    rw [AlgorithmFactory.accepts_eq ht]
    exact good_addAll_iff _ ht bs hlen

/-- `crc -s -V 31 97`. -/
theorem main_search_exact_pair :
    ∃ status cout cerr, main 64 ["crc".toList] [.search, .verbose] ["31".toList, "97".toList] =
        .returned status cout cerr ∧
      cout.text = searchText (["31".toList, "97".toList].map operandByte) ∧
      status = if ∃ a ∈ algorithms,
        a.accepts (["31".toList, "97".toList].map operandByte) then 0 else 1 :=
  (main_search_exact 64 ["crc".toList] (show configuration [.search, .verbose] = [] from rfl)
    (by simp) (by simp) ["31".toList, "97".toList]).2.1 (by simp)

end CrcPP
