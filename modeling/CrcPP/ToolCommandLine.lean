import CrcPP.GetoptParse
import CrcPP.ToolOptions

/-!
# CrcPP.ToolCommandLine

**From the command line to `main`.** `CrcPP.Tool` models `main` behind `getopt_long`; here
the two are put together, with the `getopt_long` of `src/win/getopt_long.c`: the option
loop calls it until it returns -1, and the operands are what is left of `argv` then.

The loop ends on every command line, it never uses an `optarg` that is a null pointer,
and what it does is what `main` does with the options and operands of the grammar
(`commandLine_eq_main`). In that grammar every option can be written, in several ways, and is
read as what was written (`commandLine_spelled`).
-/

namespace CrcPP

open CommandLine

/-- `longOptions`. -/
def longOptions : List LongOption :=
  [⟨"algorithm".toList, .required_argument, none, 'a'⟩,
    ⟨"binary".toList, .no_argument, none, 'b'⟩,
    ⟨"generator".toList, .required_argument, none, 'g'⟩,
    ⟨"help".toList, .no_argument, none, 'h'⟩,
    ⟨"invert".toList, .required_argument, none, 'i'⟩,
    ⟨"preset".toList, .required_argument, none, 'p'⟩,
    ⟨"search".toList, .no_argument, none, 's'⟩,
    ⟨"verbose".toList, .no_argument, none, 'V'⟩,
    ⟨"verify".toList, .no_argument, none, 'v'⟩,
    ⟨"write-table".toList, .no_argument, none, 'w'⟩]

/-- The option letters `main` passes to `getopt_long`. -/
def optionLetters : List Char := "a:bg:hi:p:svVw".toList

/-- The case of the switch for a character. There is none when the case would use an
`optarg` that is a null pointer. -/
def switchCase (opt : Char) (optarg : Option Word) : Option Opt :=
  match opt with
  | 'a' => optarg.map .algorithm
  | 'b' => some .binary
  | 'g' => optarg.map .generator
  | 'h' => some .help
  | 'i' => optarg.map .invert
  | 'p' => optarg.map .preset
  | 's' => some .search
  | 'v' => some .verify
  | 'V' => some .verbose
  | 'w' => some .writeTable
  | _ => some .other

/-- At most `fuel` passes of the option loop, with the calls of `getopt_long`. -/
def readOptions (argv : List Word) :
    Nat → Getopt → MainState → Option (Except Outcome (MainState × Getopt))
  | 0, _, _ => none
  | fuel + 1, g, st => do
    let (retval, g) ← getoptLong argv optionLetters longOptions g
    -- both write to the same file
    let st := { st with cerr := st.cerr.write g.stderr }
    let g := { g with stderr := [] }
    match retval with
    | .minusOne => some (.ok (st, g))
    | .minusTwo => readOptions argv fuel g st
    | .char c => do
      match processOption (argv.headD []) st (← switchCase c g.optarg) with
      | .ok st => readOptions argv fuel g st
      | .error outcome => some (.error outcome)

/-- `main(argc, argv)`, with at most `fuel` passes of the option loop. -/
def commandLine (ulong fuel : Nat) (argv : List Word) : Option Outcome := do
  match ← readOptions argv fuel .init (.init (echo argv .new)) with
  | .ok (st, g) => some (finish ulong (argv.headD []) st (argv.drop g.optind))
  | .error outcome => some outcome

/-! ### The options of a command line -/

/-- The grammar of the tool's tables. -/
abbrev toolGrammar : Grammar Char := getoptGrammar optionLetters longOptions

/-- The option that an item stands for. -/
def itemOption : Item Char → Opt
  | .opt c arg => (switchCase c arg).getD .other
  | .unknown | .missing => .other

/-- The options of a command line. -/
def parsedOptions (argv : List Word) : List Opt :=
  (parse toolGrammar argv.tail).1.map itemOption

/-- The operands of a command line. -/
def parsedOperands (argv : List Word) : List Word := (parse toolGrammar argv.tail).2

theorem mem_of_shortOption {ostr : List Char} {c d : Char} {b : Bool}
    (h : shortOption ostr c = some (d, b)) : c ∈ ostr := by
  obtain ⟨oli, hmatch, -, -⟩ := shortOption_eq_some.mp h
  by_contra hmem
  have hdrop : ostr.dropWhile (· ≠ c) = [] :=
    List.dropWhile_eq_nil_iff.mpr fun x hx => decide_eq_true fun hxc => hmem (hxc ▸ hx)
  rw [strchr_eq, hdrop] at hmatch
  split at hmatch <;> cases hmatch

/-- The options that may come without an argument are those whose case uses none. -/
theorem switchCase_of_unargued {c : Char}
    (h : (∃ x, toolGrammar.short x = some (c, false)) ∨
      ∃ name arity, toolGrammar.long name = some (c, arity) ∧ arity ≠ .required)
    (optarg : Option Word) : switchCase c optarg = some (itemOption (.opt c none)) := by
  have hmem : c ∈ ['b', 'h', 's', 'V', 'v', 'w'] := by
    obtain ⟨x, hx⟩ | ⟨name, arity, hname, harity⟩ := h
    · obtain rfl : x = c := (shortOption_eq_some.mp hx).choose_spec.2.1
      have hall : optionLetters.all (fun x => decide
          (shortOption optionLetters x = some (x, false) → x ∈ ['b', 'h', 's', 'V', 'v', 'w'])) =
            true := by decide
      exact of_decide_eq_true (List.all_eq_true.mp hall x (mem_of_shortOption hx)) hx
    · obtain ⟨o, ho, heq⟩ := Option.map_eq_some_iff.mp hname
      obtain ⟨rfl, rfl⟩ := Prod.mk.inj heq
      have hall : ∀ o ∈ longOptions, o.has_arg.arity ≠ .required →
          o.returned ∈ ['b', 'h', 's', 'V', 'v', 'w'] := by decide
      exact hall o (mem_of_findLong ho) harity
  simp only [List.mem_cons, List.not_mem_nil, or_false] at hmem
  obtain rfl | rfl | rfl | rfl | rfl | rfl := hmem <;> rfl

/-- **No case of the switch uses an argument that is not there.** -/
theorem switchCase_of_handedOut {ws : List Word} {i : Item Char}
    (hi : i ∈ (parse toolGrammar ws).1) {c : Char} {optarg : Option Word}
    (h : HandedOut i c optarg) : switchCase c optarg = some (itemOption i) := by
  cases h with
  | flag c optarg => exact switchCase_of_unargued (of_mem_parse_opt_none toolGrammar hi) optarg
  | value c arg =>
      have hsome : ∃ opt, switchCase c (some arg) = some opt := by
        unfold switchCase
        split <;> exact ⟨_, rfl⟩
      obtain ⟨opt, hopt⟩ := hsome
      rw [itemOption, hopt]
      rfl
  | unknown optarg => rfl
  | missing optarg => rfl

/-! ### The option loop with its calls -/

/-- With enough passes, the option loop processes the options that are read. -/
theorem exists_readOptions {argv : List Word} {g : Getopt} {is : List (Item Char)}
    {ops : List Word} (h : Reads argv optionLetters longOptions g is ops)
    (his : ∀ i ∈ is, ∀ c optarg, HandedOut i c optarg → switchCase c optarg = some (itemOption i))
    {fuel : Nat} (hfuel : is.length < fuel) (st : MainState) :
    ∃ g', argv.drop g'.optind = ops ∧ readOptions argv fuel g st =
      some ((optionLoop (argv.headD []) st (is.map itemOption)).map fun st => (st, g')) := by
  induction h generalizing fuel st with
  | @done g g' ops hcall hq hops =>
      obtain ⟨fuel, rfl⟩ := Nat.exists_eq_succ_of_ne_zero (Nat.ne_zero_of_lt hfuel)
      refine ⟨{ g' with stderr := [] }, hops, ?_⟩
      rw [readOptions, hcall]
      dsimp only [bind, Option.bind]
      rw [hq.stderr, OStream.write_nil]
      rfl
  | @call g g' i c is ops hcall hq hout _ ih =>
      obtain ⟨fuel, rfl⟩ := Nat.exists_eq_succ_of_ne_zero (Nat.ne_zero_of_lt hfuel)
      have hself : { g' with stderr := [] } = g' := by rw [← hq.stderr]
      have hstep : readOptions argv (fuel + 1) g st =
          match processOption (argv.headD []) st (itemOption i) with
          | .ok st => readOptions argv fuel g' st
          | .error outcome => some (.error outcome) := by
        rw [readOptions, hcall]
        dsimp only [bind, Option.bind]
        rw [hself, his i List.mem_cons_self c _ hout, hq.stderr, OStream.write_nil]
      have hrest := fun st => ih (fun j hj => his j (List.mem_cons_of_mem i hj))
        (Nat.lt_of_succ_lt_succ hfuel) st
      rw [hstep, List.map_cons]
      cases hp : processOption (argv.headD []) st (itemOption i) with
      | error outcome =>
          obtain ⟨g₁, hops, -⟩ := hrest st
          refine ⟨g₁, hops, ?_⟩
          rw [optionLoop_of_error hp]
          rfl
      | ok st' =>
          rw [optionLoop_of_ok hp]
          exact hrest st'

/-- `main` on a command line does what it does with the options and the operands that the
grammar makes of it. -/
theorem commandLine_run (ulong : Nat) (argv : List Word) {fuel : Nat}
    (hfuel : size argv.tail < fuel) :
    commandLine ulong fuel argv =
      some (main ulong argv (parsedOptions argv) (parsedOperands argv)) := by
  have hreads : ReadsOn argv optionLetters longOptions .init (parse toolGrammar argv.tail) :=
    reads_parse ⟨⟨rfl, rfl⟩, rfl, rfl, List.drop_one⟩
  obtain ⟨g, hops, hread⟩ := exists_readOptions hreads
    (fun i hi c optarg hout => switchCase_of_handedOut hi hout)
    ((length_parse_le toolGrammar argv.tail).trans_lt hfuel) (.init (echo argv .new))
  rw [commandLine, hread, main, ← parsedOptions]
  cases optionLoop (argv.headD []) (.init (echo argv .new)) (parsedOptions argv) with
  | error outcome => rfl
  | ok st => exact congrArg (fun ops => some (finish ulong (argv.headD []) st ops)) hops

/-- **The whole program on a command line.** It is `main` on the options and the operands
of the grammar, with a pass of the loop for each character at most; and no case of the
switch uses an argument that is not there. -/
theorem commandLine_eq_main (ulong : Nat) (argv : List Word) :
    (∀ fuel, size argv.tail < fuel → commandLine ulong fuel argv =
      some (main ulong argv (parsedOptions argv) (parsedOperands argv))) ∧
    ∀ i ∈ (parse toolGrammar argv.tail).1, ∀ c optarg, HandedOut i c optarg →
      switchCase c optarg = some (itemOption i) :=
  ⟨fun _ hfuel => commandLine_run ulong argv hfuel,
    fun _ hi _ _ hout => switchCase_of_handedOut hi hout⟩

/-- `crc --help`, with as many passes as there are characters. -/
theorem commandLine_eq_main_help :
    commandLine 64 7 ["crc".toList, "--help".toList] =
      some (main 64 ["crc".toList, "--help".toList]
        (parsedOptions ["crc".toList, "--help".toList])
        (parsedOperands ["crc".toList, "--help".toList])) :=
  (commandLine_eq_main 64 ["crc".toList, "--help".toList]).1 7 (by decide)

/-! ### Writing a command line -/

/-- The item that is read for an option. -/
def Opt.item : Opt → Item Char
  | .algorithm optarg => .opt 'a' (some optarg)
  | .binary => .opt 'b' none
  | .generator optarg => .opt 'g' (some optarg)
  | .help => .opt 'h' none
  | .invert optarg => .opt 'i' (some optarg)
  | .preset optarg => .opt 'p' (some optarg)
  | .search => .opt 's' none
  | .verify => .opt 'v' none
  | .verbose => .opt 'V' none
  | .writeTable => .opt 'w' none
  | .other => .unknown

@[simp] theorem itemOption_item (opt : Opt) : itemOption opt.item = opt := by
  cases opt <;> rfl

theorem map_itemOption_item (opts : List Opt) : (opts.map Opt.item).map itemOption = opts := by
  rw [List.map_map]
  exact (List.map_congr_left fun opt _ => itemOption_item opt).trans (List.map_id _)

/-- An option that takes no argument is spelled by its letter. -/
theorem spelling_flag {c : Char} (h : toolGrammar.short c = some (c, false)) (hc : c ≠ '-') :
    Spelling toolGrammar [.opt c none] [['-', c]] :=
  .letters (.cons h .nil) (List.cons_ne_nil c []) (by simpa using hc)

/-- An option that takes an argument is spelled by its letter, with the argument in the
next word. -/
theorem spelling_value {c : Char} (h : toolGrammar.short c = some (c, true)) (hc : c ≠ '-')
    (arg : Word) : Spelling toolGrammar [.opt c (some arg)] [['-', c], arg] :=
  @Spelling.separate _ _ [] [] c c arg .nil h (by simpa using hc)

/-- Every option can be spelled. -/
theorem exists_spelling {opt : Opt} (h : opt ≠ .other) :
    ∃ ws, Spelling toolGrammar [opt.item] ws := by
  cases opt with
  | «algorithm» arg => exact ⟨_, spelling_value (by decide) (by decide) arg⟩
  | generator arg => exact ⟨_, spelling_value (by decide) (by decide) arg⟩
  | invert arg => exact ⟨_, spelling_value (by decide) (by decide) arg⟩
  | preset arg => exact ⟨_, spelling_value (by decide) (by decide) arg⟩
  | binary | help | search | verify | verbose | writeTable =>
      exact ⟨_, spelling_flag (by decide) (by decide)⟩
  | other => exact absurd rfl h

theorem exists_spells {opts : List Opt} (h : .other ∉ opts) :
    ∃ ws, Spells toolGrammar (opts.map Opt.item) ws := by
  induction opts with
  | nil => exact ⟨[], .nil⟩
  | cons opt opts ih =>
      obtain ⟨ws, hws⟩ := ih fun hmem => h (List.mem_cons_of_mem opt hmem)
      obtain ⟨vs, hvs⟩ := exists_spelling fun heq => h (heq ▸ List.mem_cons_self)
      exact ⟨vs ++ ws, .cons hvs hws⟩

/-- The tool reads `argv` as these options and operands. -/
def ReadAs (argv : List Word) (opts : List Opt) (operands : List Word) : Prop :=
  ∀ ulong fuel, size argv.tail < fuel →
    commandLine ulong fuel argv = some (main ulong argv opts operands)

section Parsed

variable (argv0 : Word) {words : List Word} {opts : List Opt} {operands : List Word}
  (h : parse toolGrammar words = (opts.map Opt.item, operands))

include h

theorem parsedOptions_of_parse : parsedOptions (argv0 :: words) = opts := by
  rw [parsedOptions, List.tail_cons, h, map_itemOption_item]

theorem parsedOperands_of_parse : parsedOperands (argv0 :: words) = operands := by
  rw [parsedOperands, List.tail_cons, h]

theorem readAs_of_parse : ReadAs (argv0 :: words) opts operands := by
  intro ulong fuel hfuel
  rw [commandLine_run ulong _ hfuel, parsedOptions_of_parse argv0 h,
    parsedOperands_of_parse argv0 h]

end Parsed

/-- **Options can be written, and are read as what was written**: every list of options the
tool has cases for can be spelled, and in whatever way it is spelled, with operands behind
it, the tool reads these options and operands. Only operands that begin with a dash need
the separator. -/
theorem commandLine_spelled :
    (∀ opts : List Opt, .other ∉ opts → ∃ ws, Spells toolGrammar (opts.map Opt.item) ws) ∧
    ∀ (opts : List Opt) (ws : List Word), Spells toolGrammar (opts.map Opt.item) ws →
      ∀ argv0 operands,
        ReadAs (argv0 :: (ws ++ "--".toList :: operands)) opts operands ∧
        ((∀ w ∈ operands.head?, w.head? ≠ some '-') →
          ReadAs (argv0 :: (ws ++ operands)) opts operands) :=
  ⟨fun _ hopts => exists_spells hopts, fun _ _ h argv0 operands =>
    ⟨readAs_of_parse argv0 (parse_spells_separator h operands),
      fun hops => readAs_of_parse argv0 (parse_spells_operands h hops)⟩⟩

/-- `crc -bvg1021 --alg g16 31`. -/
theorem commandLine_spelled_bundle :
    ReadAs ["crc".toList, "-bvg1021".toList, "--alg".toList, "g16".toList, "31".toList]
      [.binary, .verify, .generator "1021".toList, .algorithm "g16".toList] ["31".toList] := by
  have hflags : List.Forall₂ (fun c o => toolGrammar.short c = some (o, false)) ['b', 'v']
      ['b', 'v'] := .cons (by decide) (.cons (by decide) .nil)
  have hletters : Spelling toolGrammar
      [.opt 'b' none, .opt 'v' none, .opt 'g' (some "1021".toList)] ["-bvg1021".toList] :=
    .attached hflags (by decide) (by decide) (by decide)
  have halg : toolGrammar.long "alg".toList = some ('a', .required) := by decide
  have hname : Spelling toolGrammar [.opt 'a' (some "g16".toList)] ["--alg".toList, "g16".toList] :=
    .longSeparate _ halg (by decide) (by decide) (by decide)
  exact (commandLine_spelled.2
    [.binary, .verify, .generator "1021".toList, .algorithm "g16".toList] _
    (.cons hletters (.cons hname .nil)) "crc".toList ["31".toList]).2 (by decide)

end CrcPP
