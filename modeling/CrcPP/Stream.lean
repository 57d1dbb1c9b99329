import CrcPP.Crc

/-!
# CrcPP.Stream

The class templates `CRCResult<P>` and `CRCStream<P>` of `inc/crcstream.h`.

A stream is a state machine over one register. `Feed` and `StreamOp` are the
calls a user can make to move it, `CRCStream.run` makes them in order, and
`StreamOp.pending` says which data bits a sequence of calls has fed since the
register was last preset. The source's mutating members return the new stream
here; `gen` and `check` return their result with it.
-/

namespace CrcPP

variable {T : DataType}

/-! ### `CRCResult` -/

/-- The constructor's loop: one byte after the other from the top. -/
def resultBytes (P : PolyType T) : Nat → T.Val → List Byte
  | 0, _ => []
  | i + 1, nCRC => P.hibyte nCRC :: resultBytes P i (P.shift nCRC 8)

@[simp] theorem length_resultBytes (P : PolyType T) (k : Nat) (nCRC : T.Val) :
    (resultBytes P k nCRC).length = k := by
  induction k generalizing nCRC with
  | zero => rfl
  | succ k ih => simp [resultBytes, ih]

/-- A CRC in the byte order in which it is sent. -/
@[ext] structure CRCResult (P : PolyType T) where
  rCRC : List Byte
  /-- The array has `sizeof(typename P::data_type)` elements. -/
  length_rCRC : rCRC.length = T.sizeof
  deriving DecidableEq

namespace CRCResult

variable {P : PolyType T}

/-- The constructor. -/
def new (P : PolyType T) (nCRC : T.Val) : CRCResult P :=
  ⟨resultBytes P T.sizeof nCRC, length_resultBytes P T.sizeof nCRC⟩

/-- `c_str()`. -/
def c_str (r : CRCResult P) : List Byte := r.rCRC

/-- `size()`. -/
def size (_ : CRCResult P) : Nat := T.sizeof

theorem length_c_str (r : CRCResult P) : r.c_str.length = r.size := r.length_rCRC

end CRCResult

/-! ### `CRCStream` -/

/-- An object of class `CRCStream<P>`. -/
structure CRCStream (P : PolyType T) where
  _algorithm : CRC P
  _crc : T.Val
  _preset : T.Val
  _invert : T.Val

namespace CRCStream

variable {P : PolyType T}

/-- Reset the stream for reuse in another calculation. -/
def reset (s : CRCStream P) : CRCStream P := { s with _crc := s._preset }

/-- The constructor which allows to specify preset and invert. The register
holds nothing yet when the constructor's body calls `reset`. -/
def new (algorithm : CRC P) (preset invert : T.Val) : CRCStream P :=
  reset ⟨algorithm, 0, preset, invert⟩

/-- The constructor with one argument: preset and inversion are `~0`. -/
def newDefault (algorithm : CRC P) : CRCStream P :=
  reset ⟨algorithm, 0, ~~~0, ~~~0⟩

/-- `operator << (char const)`: the character converts to `uint8_t`. -/
def insertChar (s : CRCStream P) (data : Byte) : CRCStream P :=
  { s with _crc := s._algorithm.add data s._crc }

/-- `operator << (uint8_t const)`. -/
def insertByte (s : CRCStream P) (data : Byte) : CRCStream P :=
  { s with _crc := s._algorithm.add data s._crc }

/-- `operator << (char const*)`. The list holds the characters from `data` on;
the loop ends at the null character, or at the end of the list if that stands
right behind it. -/
def insertCStr (s : CRCStream P) : List Byte → CRCStream P
  | [] => s
  | data :: rest =>
    if data ≠ 0 then
      insertCStr { s with _crc := s._algorithm.add data s._crc } rest
    else s

/-- `operator << (D const&)` for a collection of bytes. -/
def insertBytes (s : CRCStream P) (data : List Byte) : CRCStream P :=
  { s with _crc := data.foldl (fun reg byte => s._algorithm.add byte reg) s._crc }

/-- `operator << (P const&)`. -/
def insertPoly (s : CRCStream P) (data : T.Val) : CRCStream P :=
  { s with _crc := s._algorithm.addPoly data s._crc }

/-- Add a single bit. -/
def addBit (s : CRCStream P) (bit : Byte) : CRCStream P :=
  { s with _crc := s._algorithm.addbit bit s._crc }

/-- The calculated CRC in raw format. -/
def crc (s : CRCStream P) : T.Val := s._crc ^^^ s._invert

/-- The calculated CRC in a byte order suitable for the output stream. -/
def result (s : CRCStream P) : CRCResult P := CRCResult.new P s.crc

/-- Whether CRC checking has been successful: `good()`. -/
def good (s : CRCStream P) : Bool :=
  s._crc == s._algorithm.addPoly s._invert 0

/-- `good(unsigned int extrabits)`. -/
def goodExtra (s : CRCStream P) (extrabits : Nat) : Bool :=
  s._crc == (s._algorithm.addbit 0)^[extrabits] (s._algorithm.addPoly s._invert 0)

/-- Process a collection. -/
def process (s : CRCStream P) (data : List Byte) : CRCStream P := s.reset.insertBytes data

/-- Process `len` bytes from a pointer: one insertion for each. -/
def processLen (s : CRCStream P) (data : Nat → Byte) (len : Nat) : CRCStream P :=
  (List.range len).foldl (fun s i => s.insertByte (data i)) s.reset

/-- Generate the CRC for a collection. -/
def gen (s : CRCStream P) (data : List Byte) : CRCResult P × CRCStream P :=
  ((s.process data).result, s.process data)

/-- Generate the CRC for `len` bytes. -/
def genLen (s : CRCStream P) (data : Nat → Byte) (len : Nat) : CRCResult P × CRCStream P :=
  ((s.processLen data len).result, s.processLen data len)

/-- Check the CRC of a collection. -/
def check (s : CRCStream P) (data : List Byte) : Bool × CRCStream P :=
  ((s.process data).good, s.process data)

/-- Check the CRC of `len` bytes. -/
def checkLen (s : CRCStream P) (data : Nat → Byte) (len : Nat) : Bool × CRCStream P :=
  ((s.processLen data len).good, s.processLen data len)

end CRCStream

/-! ### Calls and runs -/

/-- A call of one of the byte insertion operators. -/
inductive ByteInsertion
  | char (c : Byte)
  | byte (b : Byte)
  | cstr (s : List Byte)
  | bytes (bs : List Byte)
  deriving Repr, DecidableEq

/-- The bytes an insertion feeds. -/
def ByteInsertion.data : ByteInsertion → List Byte
  | char c => [c]
  | byte b => [b]
  | cstr s => s.takeWhile (· ≠ 0)
  | bytes bs => bs

/-- A call that feeds data; `bit` is `addBit` with 0 or 1. -/
inductive Feed (T : DataType)
  | insert (i : ByteInsertion)
  | poly (p : T.Val)
  | bit (b : Bool)

/-- A call that moves a stream. -/
inductive StreamOp (T : DataType)
  | feed (f : Feed T)
  | reset

namespace CRCStream

variable {P : PolyType T}

/-- Make one byte insertion. -/
def insert (s : CRCStream P) : ByteInsertion → CRCStream P
  | .char c => s.insertChar c
  | .byte b => s.insertByte b
  | .cstr cs => s.insertCStr cs
  | .bytes bs => s.insertBytes bs

/-- Make one call that feeds data. -/
def feed (s : CRCStream P) : Feed T → CRCStream P
  | .insert i => s.insert i
  | .poly p => s.insertPoly p
  | .bit b => s.addBit (uint8OfBool b)

/-- Feed a whole message. -/
def feedAll (s : CRCStream P) (fs : List (Feed T)) : CRCStream P := fs.foldl feed s

/-- Make one call. -/
def exec (s : CRCStream P) : StreamOp T → CRCStream P
  | .feed f => s.feed f
  | .reset => s.reset

/-- Make a sequence of calls. -/
def run (s : CRCStream P) (ops : List (StreamOp T)) : CRCStream P := ops.foldl exec s

@[simp] theorem feedAll_nil (s : CRCStream P) : s.feedAll [] = s := rfl

@[simp] theorem feedAll_cons (s : CRCStream P) (f : Feed T) (fs : List (Feed T)) :
    s.feedAll (f :: fs) = (s.feed f).feedAll fs := rfl

@[simp] theorem run_nil (s : CRCStream P) : s.run [] = s := rfl

@[simp] theorem run_cons (s : CRCStream P) (op : StreamOp T) (ops : List (StreamOp T)) :
    s.run (op :: ops) = (s.exec op).run ops := rfl

theorem run_concat (s : CRCStream P) (ops : List (StreamOp T)) (op : StreamOp T) :
    s.run (ops ++ [op]) = (s.run ops).exec op := by
  simp [run]

/-- Presetting and feeding a message, as a run. -/
theorem run_reset_feeds (s : CRCStream P) (fs : List (Feed T)) :
    s.run (.reset :: fs.map .feed) = s.reset.feedAll fs := by
  rw [run_cons, run, List.foldl_map]
  rfl

/-! ### What a call does to the register

Every call writes the register only: the algorithm, the preset and the
inversion stay as they were built. -/

/-- Two streams with the same algorithm, preset and inversion. -/
structure SameSetup (s t : CRCStream P) : Prop where
  algorithm : t._algorithm = s._algorithm
  preset : t._preset = s._preset
  invert : t._invert = s._invert

theorem SameSetup.refl (s : CRCStream P) : SameSetup s s := ⟨rfl, rfl, rfl⟩

theorem SameSetup.trans {s t u : CRCStream P} (h : SameSetup s t) (h' : SameSetup t u) :
    SameSetup s u :=
  ⟨h'.algorithm.trans h.algorithm, h'.preset.trans h.preset, h'.invert.trans h.invert⟩

/-- A C string feeds its characters up to the null character. -/
theorem insertCStr_eq (s : CRCStream P) (cs : List Byte) :
    s.insertCStr cs =
      { s with _crc := s._algorithm.addBytes (cs.takeWhile (· ≠ 0)) s._crc } := by
  induction cs generalizing s with
  | nil => rfl
  | cons c cs ih =>
      by_cases hc : c = 0
      · rw [insertCStr, if_neg (not_not_intro hc), List.takeWhile_cons_of_neg (by simpa using hc)]
        rfl
      · rw [insertCStr, if_pos hc, ih, List.takeWhile_cons_of_pos (by simpa using hc)]
        rfl

/-- A byte insertion feeds its bytes to the algorithm. -/
theorem insert_eq (s : CRCStream P) (i : ByteInsertion) :
    s.insert i = { s with _crc := s._algorithm.addBytes i.data s._crc } := by
  cases i with
  | char c => rfl
  | byte b => rfl
  | cstr cs => exact insertCStr_eq s cs
  | bytes bs => simp only [insert, insertBytes, CRC.foldl_add, ByteInsertion.data]

theorem sameSetup_feed (s : CRCStream P) (f : Feed T) : SameSetup s (s.feed f) := by
  cases f with
  | insert i => rw [feed, insert_eq]; exact ⟨rfl, rfl, rfl⟩
  | poly p => exact ⟨rfl, rfl, rfl⟩
  | bit b => exact ⟨rfl, rfl, rfl⟩

theorem sameSetup_exec (s : CRCStream P) (op : StreamOp T) : SameSetup s (s.exec op) := by
  cases op with
  | feed f => exact sameSetup_feed s f
  | reset => exact ⟨rfl, rfl, rfl⟩

theorem sameSetup_run (s : CRCStream P) (ops : List (StreamOp T)) :
    SameSetup s (s.run ops) := by
  induction ops generalizing s with
  | nil => exact SameSetup.refl s
  | cons op ops ih => exact (sameSetup_exec s op).trans (ih (s.exec op))

/-- Processing a collection feeds its bytes to the preset register. -/
theorem process_eq (s : CRCStream P) (data : List Byte) :
    s.process data = { s with _crc := s._algorithm.addBytes data s._preset } := by
  simp only [process, insertBytes, reset, CRC.foldl_add]

/-- The overloads with a length process the bytes the pointer reaches. -/
theorem processLen_eq (s : CRCStream P) (data : Nat → Byte) (len : Nat) :
    s.processLen data len = s.process ((List.range len).map data) := by
  have loop : ∀ (is : List Nat) (t : CRCStream P),
      is.foldl (fun s i => s.insertByte (data i)) t =
        { t with _crc := t._algorithm.addBytes (is.map data) t._crc } := by
    intro is
    induction is with
    | nil => intro t; rfl
    | cons i is ih => intro t; exact ih (t.insertByte (data i))
  rw [processLen, loop, process_eq]
  rfl

theorem checkLen_eq (s : CRCStream P) (data : Nat → Byte) (len : Nat) :
    s.checkLen data len = s.check ((List.range len).map data) := by
  simp only [checkLen, check, processLen_eq]

theorem genLen_eq (s : CRCStream P) (data : Nat → Byte) (len : Nat) :
    s.genLen data len = s.gen ((List.range len).map data) := by
  simp only [genLen, gen, processLen_eq]

end CRCStream

end CrcPP
