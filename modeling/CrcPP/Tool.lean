import CrcPP.CRCFactory

/-!
# CrcPP.Tool

The command line tool, `src/crc.cpp`: the tables of algorithms, the conversion of
operands, the hex dump, the usage text and `main`.

`main` is modelled behind `getopt_long`: it takes the options in the order in which
`getopt_long` hands them out, and the operands that are left. The factories live as
long as the program and are changed by `-g`, `-p` and `-i`, so they are part of the
state of the option loop. What `main` writes to the two streams is part of its outcome.

An argument is the list of its characters, without the terminating null character.
-/

namespace CrcPP

/-! ### The tables -/

/-- The `CRCParameters` objects the tables point to. -/
inductive FactoryPtr
  | ieee802_3
  | crc32
  | ccitt
  | ccittNative
  | ccittNativeInverted
  | crc16
  | crc16n
  | hec
  | crc8
  | j1850
  | sae2f
  | g32r
  | g32
  | g16r
  | g16
  | g8r
  | g8
  deriving Repr, DecidableEq

/-- The objects at a point of the program's run. -/
abbrev Factories := FactoryPtr → ICRCTestFactory

/-- The objects as they are constructed. -/
def initialFactories : Factories
  -- Standard CRC-32 Network Order (Ethernet etc...)
  | .ieee802_3 => .new .network .uint32_t 0xEDB88320 (~~~0) (~~~0)
  -- CRC-32 Native order, not inverted
  | .crc32 => .new .native .uint32_t 0x04C11DB7 (~~~0) 0
  -- Standard CRC-CCITT Network Order (X.25/HDLC)
  | .ccitt => .new .network .uint16_t 0x8408 (~~~0) (~~~0)
  -- CRC-CCITT Native Order, not inverted
  | .ccittNative => .new .native .uint16_t 0x1021 (~~~0) 0
  -- CRC-CCITT Native Order, inverted
  | .ccittNativeInverted => .new .native .uint16_t 0x1021 (~~~0) (~~~0)
  -- CRC-16 (IBM)
  | .crc16 => .new .native .uint16_t 0x8005 0 0
  -- CRC-16 Network order
  | .crc16n => .new .network .uint16_t 0xA001 (~~~0) 0
  -- 8-Bit CRC ITU-T Network Order, Result exored with 0x55 (ISDN HEC)
  | .hec => .new .network .uint8_t 0xE0 0 0x55
  -- 8-Bit CRC ITU-T Native Order
  | .crc8 => .new .native .uint8_t 0x07 0 0
  -- 8-Bit CRC SAE J1850
  | .j1850 => .new .native .uint8_t 0x1D (~~~0) (~~~0)
  -- 8-Bit CRC SAE 2F
  | .sae2f => .new .native .uint8_t 0x2F (~~~0) (~~~0)
  | .g32r => .new .network .uint32_t 0 (~~~0) (~~~0)
  | .g32 => .new .native .uint32_t 0 (~~~0) (~~~0)
  | .g16r => .new .network .uint16_t 0 (~~~0) (~~~0)
  | .g16 => .new .native .uint16_t 0 (~~~0) (~~~0)
  | .g8r => .new .network .uint8_t 0 (~~~0) (~~~0)
  | .g8 => .new .native .uint8_t 0 (~~~0) (~~~0)

/-- An entry of a table. -/
structure AlgorithmFactory where
  name : String
  factory : FactoryPtr
  deriving Repr, DecidableEq

/-- `algorithms`. -/
def algorithms : List AlgorithmFactory :=
  [⟨"ieee802.3", .ieee802_3⟩, ⟨"crc32", .crc32⟩, ⟨"ccitt", .ccitt⟩,
    ⟨"ccitt-native", .ccittNative⟩, ⟨"ccitt-native-inverted", .ccittNativeInverted⟩,
    ⟨"crc16", .crc16⟩, ⟨"crc16n", .crc16n⟩, ⟨"hec", .hec⟩, ⟨"crc8", .crc8⟩,
    ⟨"j1850", .j1850⟩, ⟨"sae2f", .sae2f⟩]

/-- `generics`. -/
def generics : List AlgorithmFactory :=
  [⟨"g32r", .g32r⟩, ⟨"g32", .g32⟩, ⟨"g16r", .g16r⟩, ⟨"g16", .g16⟩, ⟨"g8r", .g8r⟩, ⟨"g8", .g8⟩]

/-- `lists`. -/
def lists : List (List AlgorithmFactory) := [generics, algorithms]

/-! ### Reading and dumping bytes -/

/-- The loop of `toHex`, with `left` digits to go, and the test behind it. -/
def toHexLoop (maxBytes : Nat) :
    Nat → List Char → BitVec 64 → OStream → BitVec 64 × OStream
  | _, [], hexData, cerr => (hexData, cerr)
  | 0, p, hexData, cerr =>
    (hexData, ((((cerr.str "hex expression should be ").num maxBytes).str
      " bytes only. Extra chars: '").put p |>.str "' ignored.").endl)
  | left + 1, c :: p, hexData, cerr =>
    if c ≥ '0' ∧ c ≤ '9' then
      toHexLoop maxBytes left p (hexData <<< 4 ||| BitVec.ofNat 64 (c.toNat - '0'.toNat)) cerr
    else if c ≥ 'a' ∧ c ≤ 'f' then
      toHexLoop maxBytes left p
        (hexData <<< 4 ||| BitVec.ofNat 64 (c.toNat - 'a'.toNat + 10)) cerr
    else if c ≥ 'A' ∧ c ≤ 'F' then
      toHexLoop maxBytes left p
        (hexData <<< 4 ||| BitVec.ofNat 64 (c.toNat - 'A'.toNat + 10)) cerr
    else
      toHexLoop maxBytes left p hexData ((cerr.str "invalid hex char: '").put [c]).endl

/-- `toHex(p, maxBytes)`: the value, and `std::cerr` with the complaints. -/
def toHex (p : List Char) (maxBytes : Nat) (cerr : OStream) : BitVec 64 × OStream :=
  toHexLoop maxBytes maxBytes p 0 cerr

/-- The loop of `operator << (std::ostream&, HexDump const&)` from index `i` on. -/
def hexDumpLoop : Nat → List Byte → OStream → OStream
  | _, [], stream => stream
  | i, data :: rest, stream =>
    let stream :=
      if i > 0 then
        if i % 16 = 0 then stream.endl
        else if i % 8 = 0 then stream.str "\t"
        else stream
      else stream
    let value := data.toNat
    let stream :=
      if value < 0x10 then (stream.str " 0").num value else (stream.str " ").num value
    hexDumpLoop (i + 1) rest stream

/-- `stream << HexDump(data, size)`. The list is the `size` bytes at `data`. -/
def hexDump (d : List Byte) (stream : OStream) : OStream := (hexDumpLoop 0 d stream.hex).dec

/-- The character a byte is written as. -/
def charOfByte (b : Byte) : Char := Char.ofNat b.toNat

/-! ### The usage text -/

/-- The loop of `usage` over `algorithms`. Nothing catches what `createTest()`
throws. -/
def usageAlgorithms (fs : Factories) :
    List AlgorithmFactory → OStream → Except LogicError OStream
  | [], cerr => .ok cerr
  | a :: rest, cerr => do
    let test ← (fs a.factory).createTest
    usageAlgorithms fs rest
      (test.describe (((cerr.str "  ").str a.name).str " ")).endl

/-- The loop of `usage` over `generics`. -/
def usageGenerics (fs : Factories) : List AlgorithmFactory → OStream → OStream
  | [], cerr => cerr
  | a :: rest, cerr =>
    let f := fs a.factory
    let cerr := ((((cerr.str "  ").str a.name).str " ").num f.numBits).str " bits, "
    usageGenerics fs rest
      ((cerr.str (if f.isNative then "native" else "network")).str " order").endl

/-- `usage(progname)`. -/
def usage (fs : Factories) (progname : List Char) (cerr : OStream) :
    Except LogicError OStream := do
  let cerr := (cerr.str "Usage:").endl
  let cerr := ((cerr.put progname).str " -a algo | --algorithm=algo [-b] xx xx xx ... ").endl
  let cerr := ((cerr.put progname).str " -a algo | --algorithm=algo -w | --write-table ").endl
  let cerr := (cerr.str "    where xx are pairs of hex digits").endl.endl
  let cerr := (cerr.str "Options:").endl
  let cerr := (cerr.str "-b | --binary    binary output").endl
  let cerr := (cerr.str "-g | --generator specify generator polynomial in hex").endl
  let cerr := (cerr.str "-i | --invert    specify invert (xor) in hex").endl
  let cerr := (cerr.str "-p | --preset    specify preset value in hex").endl
  let cerr := (cerr.str "-v | --verify    exit with status 0 if CRC is OK, 1 if bad").endl.endl
  let cerr := (cerr.str ("If generator, invert or preset is used, algo must be specified " ++
    "first (to determine the number of bytes)")).endl.endl
  let cerr := (cerr.str "algo is one of: ").endl
  let cerr ← usageAlgorithms fs algorithms cerr
  let cerr := cerr.endl
  let cerr := (cerr.str ("Additionally, one of the following generic specifications may be " ++
    "used: ")).dec.endl
  let cerr := usageGenerics fs generics cerr
  let cerr := (cerr.str ("These generics do not incude a valid polynomical, so --generator " ++
    "MUST be used.")).endl.endl
  return ((cerr.put progname).str (" -s | --search xx xx xx ... search for algorithm giving " ++
    "good crc with that data")).endl.endl

/-! ### The option loop -/

/-- An option as `getopt_long` hands it out; `other` is one that the switch has no
case for, such as the `'?'` of an unknown option. -/
inductive Opt
  | algorithm (optarg : List Char)
  | binary
  | generator (optarg : List Char)
  | help
  | invert (optarg : List Char)
  | preset (optarg : List Char)
  | search
  | verify
  | verbose
  | writeTable
  | other
  deriving Repr, DecidableEq

/-- How `main` ends: it returns a status, or an exception leaves it. -/
inductive Outcome
  | returned (status : Nat) (cout cerr : OStream)
  | raised (e : LogicError)

/-- The variables of `main` during the option loop, with the factories and
`std::cerr`. Nothing is written to `std::cout` there. -/
structure MainState where
  theFactory : Option FactoryPtr
  doWriteTable : Bool
  doSearch : Bool
  doVerify : Bool
  verbosity : Nat
  binaryOutput : Bool
  factories : Factories
  cerr : OStream

namespace MainState

/-- The variables as they are initialised. -/
def init (cerr : OStream) : MainState where
  theFactory := none
  doWriteTable := false
  doSearch := false
  doVerify := false
  verbosity := 0
  binaryOutput := false
  factories := initialFactories
  cerr := cerr

/-- Write a line to `std::cerr`. -/
def complain (st : MainState) (message : String) : MainState :=
  { st with cerr := (st.cerr.str message).endl }

/-- `usage(argv[0]); return status;`. -/
def usageReturn (st : MainState) (progname : List Char) (status : Nat) : Outcome :=
  match usage st.factories progname st.cerr with
  | .ok cerr => .returned status .new cerr
  | .error e => .raised e

/-- Change an object. -/
def update (st : MainState) (p : FactoryPtr) (f : ICRCTestFactory) : MainState :=
  { st with factories := fun q => if q = p then f else st.factories q }

end MainState

/-- The scan of one list: at a match the inner loop assigns `theFactory` and breaks. -/
def scanList (list : List AlgorithmFactory) (optarg : List Char)
    (theFactory : Option FactoryPtr) : Option FactoryPtr :=
  match list with
  | [] => theFactory
  | a :: rest => if a.name.toList = optarg then some a.factory else scanList rest optarg theFactory

/-- The scan of the lists: the outer loop breaks behind a list when `theFactory` is
not null then. -/
def scanLists (lists : List (List AlgorithmFactory)) (optarg : List Char)
    (theFactory : Option FactoryPtr) : Option FactoryPtr :=
  match lists with
  | [] => theFactory
  | list :: rest =>
    match scanList list optarg theFactory with
    | some p => some p
    | none => scanLists rest optarg none

/-- The cases `'g'`, `'i'` and `'p'`: the argument is converted with two digits for
each byte of the selected algorithm and stored in its factory. -/
def setParameter (progname : List Char) (st : MainState) (optarg : List Char) (message : String)
    (set : ICRCTestFactory → BitVec 64 → ICRCTestFactory) : Except Outcome MainState :=
  match st.theFactory with
  | none => .error ((st.complain message).usageReturn progname 1)
  | some p =>
    let (value, cerr) := toHex optarg ((st.factories p).numBytes * 2) st.cerr
    .ok ({ st with cerr := cerr }.update p (set (st.factories p) value))

/-- One pass of the option loop: the switch. It goes on with a new state or leaves
`main`. -/
def processOption (progname : List Char) (st : MainState) : Opt → Except Outcome MainState
  | .algorithm optarg =>
    match scanLists lists optarg st.theFactory with
    | some p => .ok { st with theFactory := some p }
    | none =>
      .error ({ st with
        cerr := ((st.cerr.str "No algorithm with that name: ").put optarg).endl }.usageReturn
          progname 1)
  | .binary => .ok { st with binaryOutput := true }
  | .generator optarg =>
    setParameter progname st optarg "Base algorithm must be specified before --generator"
      ICRCTestFactory.setGenerator
  | .help => .error (st.usageReturn progname 0)
  | .invert optarg =>
    setParameter progname st optarg "Base algorithm must be specified before --invert"
      ICRCTestFactory.setInvert
  | .preset optarg =>
    setParameter progname st optarg "Base algorithm must be specified before --preset"
      ICRCTestFactory.setPreset
  | .search => .ok { st with doSearch := true }
  | .verify => .ok { st with doVerify := true }
  | .verbose => .ok { st with verbosity := st.verbosity + 1 }
  | .writeTable => .ok { st with doWriteTable := true }
  | .other => .ok st

/-- The option loop. -/
def optionLoop (progname : List Char) : MainState → List Opt → Except Outcome MainState
  | st, [] => .ok st
  | st, opt :: rest => do
    let st ← processOption progname st opt
    optionLoop progname st rest

/-! ### The search -/

/-- The loop of the search over the operands: the bytes, and the two streams. -/
def readOperands : List (List Char) → OStream → OStream → List Byte × OStream × OStream
  | [], cout, cerr => ([], cout, cerr)
  | operand :: rest, cout, cerr =>
    let (hexData, cerr) := toHex operand 2 cerr
    let nextByte : Byte := hexData.setWidth 8
    let (src, cout, cerr) := readOperands rest (hexDump [nextByte] cout) cerr
    (nextByte :: src, cout, cerr)

/-- The loop of the search over `algorithms`: whether one was found, and
`std::cout`. Nothing catches what `createTest()` throws. -/
def searchAlgorithms (fs : Factories) (src : List Byte) :
    List AlgorithmFactory → Bool → OStream → Except LogicError (Bool × OStream)
  | [], found, cout => .ok (found, cout)
  | a :: rest, found, cout => do
    let aTest ← (fs a.factory).createTest
    let algo := src.foldl CRCAlgorithm.addByte aTest.crcAlgorithm
    if algo.good then
      let cout := ((cout.str "Algorithm: ").str a.name).str ": "
      searchAlgorithms fs src rest true (aTest.describe cout).endl
    else searchAlgorithms fs src rest found cout

/-- The branch `if (doSearch)`. -/
def runSearch (progname : List Char) (st : MainState) (operands : List (List Char)) : Outcome :=
  let (src, cout, cerr) := readOperands operands .new st.cerr
  if src.length = 0 then
    match usage st.factories progname ((cerr.str "Please specify data to be checked").endl) with
    | .ok cerr => .returned 1 cout cerr
    | .error e => .raised e
  else
    match searchAlgorithms st.factories src algorithms false cout.endl with
    | .ok (true, cout) => .returned 0 cout cerr
    | .ok (false, cout) => .returned 1 cout ((cerr.str "No algorithm matches data").endl)
    | .error e => .raised e

/-! ### Normal operation -/

/-- The loop of the normal operation over the operands. -/
def addOperands {T : DataType} {P : PolyType T} (binaryOutput : Bool) :
    List (List Char) → CRCAlgorithm P → OStream → OStream → CRCAlgorithm P × OStream × OStream
  | [], algo, cout, cerr => (algo, cout, cerr)
  | operand :: rest, algo, cout, cerr =>
    let (hexData, cerr) := toHex operand 2 cerr
    let nextByte : Byte := hexData.setWidth 8
    addOperands binaryOutput rest (algo.addByte nextByte)
      (if binaryOutput then cout.put [charOfByte nextByte] else hexDump [nextByte] cout) cerr

/-- `main` behind the `try` block, with the test it created. -/
def runTest {T : DataType} {P : PolyType T} (ulong : Nat) (st : MainState) (theTest : CRCTest P)
    (operands : List (List Char)) : Outcome :=
  if st.doWriteTable then .returned 0 (theTest.writeTable ulong .new) st.cerr
  else
    let cout : OStream := .new
    let cout := if st.verbosity > 0 then (theTest.describe cout).endl else cout
    let (algo, cout, cerr) :=
      addOperands st.binaryOutput operands theTest.crcAlgorithm cout st.cerr
    let res := algo.result
    let cout :=
      if st.binaryOutput then cout.write (res.map charOfByte)
      else
        let cout := hexDump res cout
        let cout := if st.doVerify then cout.str (if algo.good then " (OK)" else " (BAD)") else cout
        cout.endl
    .returned (if !st.doVerify || algo.good then 0 else 1) cout cerr

/-- Normal operation with the selected factory. -/
def runNormal (ulong : Nat) (st : MainState) (theFactory : ICRCTestFactory)
    (operands : List (List Char)) : Outcome :=
  match theFactory.createTest with
  | .error ex =>
    .returned 1 .new
      (((st.cerr.str "ERROR: Invalid polynomial: ").endl.str ">>>>>> ").str ex.what).endl
  | .ok theTest => runTest ulong st theTest operands

/-! ### `main` -/

/-- `main` behind the option loop. The checks leave the search to runs without an
algorithm and the normal operation to runs with one. -/
def finish (ulong : Nat) (progname : List Char) (st : MainState)
    (operands : List (List Char)) : Outcome :=
  match st.theFactory, st.doSearch with
  | none, false => (st.complain "No algorithm selected.").usageReturn progname 1
  | some _, true => (st.complain "Do not specify algorithm with --search.").usageReturn progname 1
  | none, true =>
    if st.doWriteTable then
      (st.complain "--search and --write-table are mutually exclusive.").usageReturn progname 1
    else runSearch progname st operands
  | some p, false => runNormal ulong st (st.factories p) operands

/-- The echo of the command line. -/
def echo (argv : List (List Char)) (cerr : OStream) : OStream :=
  (argv.foldl (fun cerr arg => (cerr.put arg).str " ") cerr).endl

/-- `main`, on a platform whose `unsigned long` has `ulong` bits. `argv` is the command
line it echoes, `opts` and `operands` are what `getopt_long` makes of it. -/
def main (ulong : Nat) (argv : List (List Char)) (opts : List Opt)
    (operands : List (List Char)) : Outcome :=
  let progname := argv.headD []
  match optionLoop progname (.init (echo argv .new)) opts with
  | .ok st => finish ulong progname st operands
  | .error outcome => outcome

end CrcPP
