import CrcPP.CRCInfo
import CrcPP.Stream

/-!
# CrcPP.CRCFactory

The algorithms of the command line tool and what builds them: `CRCAlgorithm<P>`
(`src/CRCAlgorithm.h`), `CRCFactory<P>` (`src/CRCFactory.h`), and `CRCTest<P>` and
`CRCParameters<P>` (`src/crc.cpp`).

A factory stores whatever generator it is given. Whether the generator is any good
comes out when a test is created: the `CRC` constructor in it throws.

The tool reaches these templates through the interfaces `ICRCTestFactory` and
`ICRCTest`. It instantiates them for full-width classes only, so an object behind an
interface is a bit order, a data type and the object of that class.
-/

namespace CrcPP

variable {T : DataType}

/-- An object of class `CRCAlgorithm<P>`. -/
structure CRCAlgorithm (P : PolyType T) where
  crcAlgorithm : CRC P
  crcStream : CRCStream P

namespace CRCAlgorithm

variable {P : PolyType T}

/-- The constructor. -/
def new (P : PolyType T) (generator preset invert : T.Val) :
    Except LogicError (CRCAlgorithm P) := do
  let crcAlgorithm ← CRC.new P generator
  return ⟨crcAlgorithm, CRCStream.new crcAlgorithm preset invert⟩

/-- `addByte(b)`. -/
def addByte (a : CRCAlgorithm P) (b : Byte) : CRCAlgorithm P :=
  { a with crcStream := a.crcStream.insertByte b }

/-- `good()`. -/
def good (a : CRCAlgorithm P) : Bool := a.crcStream.good

/-- `result()`. -/
def result (a : CRCAlgorithm P) : List Byte := a.crcStream.result.c_str

end CRCAlgorithm

/-- An object of class `CRCFactory<P>`. -/
structure CRCFactory (P : PolyType T) where
  theGenerator : T.Val
  thePreset : T.Val
  theInvert : T.Val

namespace CRCFactory

variable {P : PolyType T}

/-- The constructor. -/
def new (P : PolyType T) : CRCFactory P := ⟨0, ~~~0, ~~~0⟩

/-- `create(info)`: the algorithm, and its information object. -/
def create (f : CRCFactory P) : Except LogicError (CRCAlgorithm P × CRCInfo P) := do
  let crcAlgorithm ← CRCAlgorithm.new P f.theGenerator f.thePreset f.theInvert
  return (crcAlgorithm, ⟨crcAlgorithm.crcAlgorithm⟩)

/-- `generator()`. -/
def generator (f : CRCFactory P) : BitVec 64 := f.theGenerator.setWidth 64

/-- `preset()`. -/
def preset (f : CRCFactory P) : BitVec 64 := f.thePreset.setWidth 64

/-- `invert()`. -/
def invert (f : CRCFactory P) : BitVec 64 := f.theInvert.setWidth 64

/-- `setGenerator(aGenerator)`: the value is converted to `P::data_type`. -/
def setGenerator (f : CRCFactory P) (aGenerator : BitVec 64) : CRCFactory P :=
  { f with theGenerator := aGenerator.setWidth T.bits }

/-- `setPreset(aPreset)`. -/
def setPreset (f : CRCFactory P) (aPreset : BitVec 64) : CRCFactory P :=
  { f with thePreset := aPreset.setWidth T.bits }

/-- `setInvert(anInvert)`. -/
def setInvert (f : CRCFactory P) (anInvert : BitVec 64) : CRCFactory P :=
  { f with theInvert := anInvert.setWidth T.bits }

end CRCFactory

/-- An object of class `CRCTest<P>`. -/
structure CRCTest (P : PolyType T) where
  crcAlgorithm : CRCAlgorithm P
  crcInfo : CRCInfo P
  theGenerator : BitVec 64
  thePreset : BitVec 64
  theInvert : BitVec 64

namespace CRCTest

variable {P : PolyType T}

/-- The constructor. -/
def new (aFactory : CRCFactory P) : Except LogicError (CRCTest P) := do
  let (crcAlgorithm, crcInfo) ← aFactory.create
  return ⟨crcAlgorithm, crcInfo, aFactory.generator, aFactory.preset, aFactory.invert⟩

/-- `writeTable(s)`. -/
def writeTable (t : CRCTest P) (ulong : Nat) (s : OStream) : OStream :=
  t.crcInfo.writeTable ulong s

/-- `describe(s)`. -/
def describe (t : CRCTest P) (s : OStream) : OStream :=
  let s := t.crcInfo.writePoly s
  let s := ((s.str " in ").str (if t.crcInfo.isNative then "native" else "network")).str " order"
  let s := s.hex
  let s := s.setfill '0'
  let fieldWidth := T.sizeof * 2
  let s := ((s.str " = 0x").setw fieldWidth).num t.theGenerator.toNat
  let s := ((s.str ", preset 0x").setw fieldWidth).num t.thePreset.toNat
  ((s.str ", invert 0x").setw fieldWidth).num t.theInvert.toNat

end CRCTest

/-- An object behind the interface `ICRCTestFactory`: a `CRCParameters<P>`, which
holds the factory `getFactory()` returns. -/
structure ICRCTestFactory where
  order : BitOrder
  T : DataType
  theFactory : CRCFactory (order.polyType T T.bits)

namespace ICRCTestFactory

/-- The class `P` the object is an instance for. -/
abbrev P (f : ICRCTestFactory) : PolyType f.T := f.order.polyType f.T f.T.bits

/-- The constructor of `CRCParameters<P>`. -/
def new (order : BitOrder) (T : DataType) (aGenerator aPreset anInvert : BitVec 64) :
    ICRCTestFactory where
  order := order
  T := T
  theFactory :=
    (((CRCFactory.new _).setGenerator aGenerator).setPreset aPreset).setInvert anInvert

/-- `isNative()`. -/
def isNative (f : ICRCTestFactory) : Bool := f.P.lobit 1 == 1

/-- `numBits()`. -/
def numBits (f : ICRCTestFactory) : Nat := f.P.numbits

/-- `numBytes()`. -/
def numBytes (f : ICRCTestFactory) : Nat := f.T.sizeof

/-- `getFactory().setGenerator(aGenerator)`. -/
def setGenerator (f : ICRCTestFactory) (aGenerator : BitVec 64) : ICRCTestFactory :=
  { f with theFactory := f.theFactory.setGenerator aGenerator }

/-- `getFactory().setPreset(aPreset)`. -/
def setPreset (f : ICRCTestFactory) (aPreset : BitVec 64) : ICRCTestFactory :=
  { f with theFactory := f.theFactory.setPreset aPreset }

/-- `getFactory().setInvert(anInvert)`. -/
def setInvert (f : ICRCTestFactory) (anInvert : BitVec 64) : ICRCTestFactory :=
  { f with theFactory := f.theFactory.setInvert anInvert }

/-- `createTest()`. -/
def createTest (f : ICRCTestFactory) : Except LogicError (CRCTest f.P) := CRCTest.new f.theFactory

end ICRCTestFactory

/-! ### When a test can be created -/

/-- The test a factory with an accepted generator creates. -/
def CRCTest.ofCRC {P : PolyType T} (f : CRCFactory P) (c : CRC P) : CRCTest P :=
  ⟨⟨c, CRCStream.new c f.thePreset f.theInvert⟩, ⟨c⟩, f.generator, f.preset, f.invert⟩

theorem CRCTest.new_eq {P : PolyType T} (f : CRCFactory P) :
    CRCTest.new f = (CRC.new P f.theGenerator).map (CRCTest.ofCRC f) := by
  rw [CRCTest.new, CRCFactory.create, CRCAlgorithm.new]
  cases CRC.new P f.theGenerator <;> rfl

/-- A test can be created exactly when the generator has its `X^0` term. -/
theorem ICRCTestFactory.createTest_isOk_iff (f : ICRCTestFactory) :
    f.createTest.isOk = true ↔ f.P.lobit f.theFactory.theGenerator ≠ 0 := by
  rw [createTest, CRCTest.new_eq, ← CRC.new_isOk_iff]
  cases CRC.new f.P f.theFactory.theGenerator <;> rfl

end CrcPP
