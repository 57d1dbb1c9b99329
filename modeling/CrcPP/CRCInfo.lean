import CrcPP.Crc
import CrcPP.Text.OStream

/-!
# CrcPP.CRCInfo

The class template `CRCInfo<P>` of `src/CRCInfo.h`: what an algorithm tells about
itself, and the two writers, of its generator polynomial and of its lookup table.

The writers change the format state of the stream they write to, so they are
modelled as functions from one stream to another.
-/

namespace CrcPP

variable {T : DataType}

/-- The conversion of a value to `unsigned long`, a type of `ulong` bits. -/
def unsignedLong (ulong : Nat) (value : T.Val) : Nat := value.toNat % 2 ^ ulong

/-- An object of class `CRCInfo<P>`. -/
structure CRCInfo (P : PolyType T) where
  _algorithm : CRC P

namespace CRCInfo

variable {P : PolyType T}

/-- `isNative()`: whether the value 1 has its `X^0` coefficient set. -/
def isNative (_ : CRCInfo P) : Bool := P.lobit 1 == 1

/-- `numBits()`. -/
def numBits (_ : CRCInfo P) : Nat := P.numbits

/-- `numBytes()`. -/
def numBytes (_ : CRCInfo P) : Nat := T.sizeof

/-- The loop `for (; i > 0; --i)` of `writePoly`. -/
def writePolyLoop (P : PolyType T) : Nat → T.Val → OStream → OStream
  | 0, _, s => s
  | i + 1, g, s =>
    writePolyLoop P i (P.shift g 1)
      (if P.hibit g ≠ 0 then
        if i + 1 > 1 then ((s.str " + X").str "^").num (i + 1) else s.str " + X"
      else s)

/-- `writePoly(s)`. -/
def writePoly (info : CRCInfo P) (s : OStream) : OStream :=
  (writePolyLoop P (P.numbits - 1) info._algorithm.generator
    ((s.dec.str "X^").num P.numbits)).str " + 1"

/-- `fieldWidth`: the number of hex digits of a value. -/
def fieldWidth (T : DataType) : Nat := T.sizeof * 2

/-- One pass of the loop of `writeTable`. -/
def writeEntry (info : CRCInfo P) (ulong : Nat) (s : OStream) (i : Fin 256) : OStream :=
  let s := if i.val % 8 = 0 then s.str "    " else s
  let s := s.str "0x"
  let s := (s.setw (fieldWidth T)).num (unsignedLong ulong info._algorithm.table[i])
  let s := if i.val ≠ 255 then s.str ", " else s
  if i.val % 8 = 7 then s.endl else s

/-- What `writeTable` writes in front of the entries. -/
def writeTableHead (info : CRCInfo P) (ulong : Nat) (s : OStream) : OStream :=
  let s := s.str "// CRC Table for poly "
  let s := (info.writePoly s).endl
  let s := s.str "// Bit order: "
  let s := (s.str (if info.isNative then "native (lsb is lowest coefficient)"
    else "network (lsb is highest coefficient)")).endl
  let s := s.hex
  let s := s.setfill '0'
  let s := s.str "// Representation of poly in that bit order: 0x"
  let s := ((s.setw (fieldWidth T)).num
    (unsignedLong ulong info._algorithm.generator)).endl
  let s := (((s.str "const uint").num (fieldWidth T * 4)).str "_t crcTable[] =").endl
  (s.str "\x7b").endl

/-- `writeTable(s)`. -/
def writeTable (info : CRCInfo P) (ulong : Nat) (s : OStream) : OStream :=
  let s := info.writeTableHead ulong s
  let s := (List.finRange 256).foldl (info.writeEntry ulong) s
  (s.str "\x7d;").endl.dec

end CRCInfo

end CrcPP
