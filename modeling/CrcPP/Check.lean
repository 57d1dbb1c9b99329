import CrcPP.Serial

/-!
# CrcPP.Check

**What `good` and `check` accept.**

`good` compares the register with what the inversion value makes of a zero
register. When a stream's own `crc()` is inserted behind a message, the two
registers agree up to the message's register moved up by `numbits`, so `good`
accepts exactly when that leaves nothing (`good_insertPoly_crc`); in a lossless
class it never leaves anything.

In a lossless class feeding zero is injective, because the generator has its
`X^0` term (`addbit_zero_injective`). So the register after a message has one
right continuation only, and `check` accepts nothing but the generated CRC
(`check_iff_gen`).
-/

namespace CrcPP

variable {T : DataType} {P : PolyType T}

namespace CRC

/-! ### Feeding zero loses nothing -/

/-- A register that a zero bit clears was clear: otherwise the generator would
be a register shifted up, and its `X^0` term would be missing. -/
theorem eq_zero_of_addbit_zero (hP : P.Lossless) (c : CRC P) {v : T.Val}
    (h : c.addbit 0 v = 0) : v = 0 := by
  rw [← tableStep_eq_addbit, tableStep] at h
  by_cases hv : P.hibit v = 0
  · rw [if_neg (not_not_intro hv)] at h
    exact hP.eq_zero_of_shift v hv h
  · rw [if_pos hv, xor_eq_zero_iff] at h
    exact absurd (h ▸ hP.lobit_shift v) c.lobit_generator

theorem addbit_zero_injective (hP : P.Lossless) (c : CRC P) :
    Function.Injective (c.addbit 0) := by
  intro v w h
  have hz : c.addbit 0 (v ^^^ w) = 0 := by
    rw [c.addbit_zero_xor hP.toLawful, h]
    exact BitVec.xor_self
  exact xor_eq_zero_iff.mp (c.eq_zero_of_addbit_zero hP hz)

/-- In a lossless class a zero byte is eight zero bits. -/
theorem add_zero_eq_iterate (hP : P.Lossless) (c : CRC P) :
    c.add 0 = (c.addbit 0)^[8] := by
  funext e
  rw [c.add_zero_eq hP.toLawful, hP.shift_sethibyte]
  exact BitVec.xor_zero

theorem add_zero_injective (hP : P.Lossless) (c : CRC P) : Function.Injective (c.add 0) := by
  rw [c.add_zero_eq_iterate hP]
  exact (c.addbit_zero_injective hP).iterate 8

theorem advance_injective (hP : P.Lossless) (c : CRC P) : Function.Injective c.advance :=
  ((c.addbit_zero_injective hP).iterate _).comp ((c.add_zero_injective hP).iterate _)

end CRC

namespace CRCStream

/-! ### `good` -/

/-- The register `good` compares with. -/
theorem good_iff (hP : P.Lawful) (s : CRCStream P) :
    s.good = true ↔
      s._crc = s._algorithm.advance s._invert ^^^ P.shift s._invert P.numbits := by
  have h := s._algorithm.addPoly_xor hP s._invert 0
  rw [show (0 : T.Val) ^^^ s._invert = s._invert from BitVec.zero_xor] at h
  rw [good, beq_iff_eq, eq_xor_of_xor_eq h]

/-- **A codeword is accepted** exactly when the register of the message leaves
nothing behind when it is moved up by `numbits`. -/
theorem good_insertPoly_crc (hP : P.Lawful) (s : CRCStream P) :
    (s.insertPoly s.crc).good = true ↔ P.shift s._crc P.numbits = 0 := by
  -- both registers are the zero-fed inversion value, each with its own remains
  have hreg : (s.insertPoly s.crc)._crc =
      s._algorithm.advance s._invert ^^^
        (P.shift s._crc P.numbits ^^^ P.shift s._invert P.numbits) := by
    have h := s._algorithm.addPoly_xor hP s.crc s._crc
    rw [crc, ← BitVec.xor_assoc, BitVec.xor_self, BitVec.zero_xor, hP.shift_xor] at h
    exact eq_xor_of_xor_eq h
  rw [good_iff hP, hreg]
  have hswap : s._algorithm.advance s._invert ^^^
        (P.shift s._crc P.numbits ^^^ P.shift s._invert P.numbits) =
      P.shift s._crc P.numbits ^^^
        (s._algorithm.advance s._invert ^^^ P.shift s._invert P.numbits) := by ac_rfl
  rw [hswap]
  constructor
  · intro h
    have h' := xor_eq_zero_iff.mpr h
    rwa [insertPoly, xor_xor_cancel] at h'
  · intro h
    rw [h]
    exact BitVec.zero_xor

/-! ### `check` -/

/-- In a lossless class, inserting a word after a message passes `good` exactly
when the word is the message's CRC. -/
theorem good_insertPoly_iff (hP : P.Lossless) (s : CRCStream P) (w : T.Val) :
    (s.insertPoly w).good = true ↔ w = s.crc := by
  have h := s._algorithm.addPoly_xor hP.toLawful w s._crc
  rw [hP.shift_numbits, show ∀ v : T.Val, v ^^^ 0 = v from fun v => BitVec.xor_zero] at h
  rw [good_iff hP.toLawful, insertPoly, h, hP.shift_numbits,
    show ∀ v : T.Val, v ^^^ 0 = v from fun v => BitVec.xor_zero,
    (s._algorithm.advance_injective hP).eq_iff, crc]
  constructor
  · intro h'
    rw [← h', ← BitVec.xor_assoc, BitVec.xor_self, BitVec.zero_xor]
  · rintro rfl
    rw [← BitVec.xor_assoc, BitVec.xor_self, BitVec.zero_xor]

/-- Feeding `sizeof(T)` bytes after a message is inserting the word they make. -/
theorem process_append (o : BitOrder) (s : CRCStream (o.polyType T T.bits)) (m : List Byte)
    (w : T.Val) :
    s.process (m ++ (CRCResult.new (o.polyType T T.bits) w).c_str) =
      (s.process m).insertPoly w := by
  have hn := o.admits_bits T
  have hx := (polyType_lossless o T).byteExact
  simp only [process_eq, insertPoly]
  rw [CRC.addBytes_append, CRC.addBytes_eq_addBits hn hx, CRC.addPoly_eq_addBits hn hx,
    bytesBits_c_str]

/-- Any `sizeof(T)` bytes are the bytes of the `CRCResult` of some word. -/
theorem exists_c_str_eq (o : BitOrder) (bs : List Byte) (h : bs.length = T.sizeof) :
    ∃ w : T.Val, (CRCResult.new (o.polyType T T.bits) w).c_str = bs := by
  obtain ⟨w, hw⟩ := o.exists_polyBits_eq (Nat.le_refl T.bits) (o.bytesBits bs)
    (by rw [BitOrder.length_bytesBits, h, T.bits_eq])
  refine ⟨w, o.bytesBits_injective ?_⟩
  rw [bytesBits_c_str, hw]

/-- **Exactness of `check`.** In a full-width class, whatever the stream was used
for before, `check` accepts a sequence exactly when its last `sizeof(T)` bytes are
those of the CRC that `gen` returns for what stands in front of them. -/
theorem check_iff_gen (o : BitOrder) (T : DataType) (stream : CRCStream (o.polyType T T.bits))
    (s : List Byte) (hs : T.sizeof ≤ s.length) :
    (stream.check s).1 = true ↔
      s.drop (s.length - T.sizeof) =
        (stream.gen (s.take (s.length - T.sizeof))).1.c_str := by
  obtain ⟨w, hw⟩ := exists_c_str_eq (T := T) o (s.drop (s.length - T.sizeof))
    (by rw [List.length_drop]; omega)
  have hcheck : (stream.check s).1 =
      ((stream.process (s.take (s.length - T.sizeof))).insertPoly w).good := by
    rw [← process_append, hw, List.take_append_drop, check]
  rw [hcheck, good_insertPoly_iff (polyType_lossless o T), ← hw]
  constructor
  · rintro rfl
    rfl
  · intro h
    have hbits := congrArg o.bytesBits h
    rw [gen, result, bytesBits_c_str, bytesBits_c_str] at hbits
    exact o.polyBits_injective T hbits

/-! In a full-width class both are evaluated bit by bit, without the table. -/

theorem gen_eq_addBits (o : BitOrder) (s : CRCStream (o.polyType T T.bits)) (m : List Byte) :
    (s.gen m).1 =
      CRCResult.new _ (s._algorithm.addBits (o.bytesBits m) s._preset ^^^ s._invert) := by
  rw [gen, process_eq, result, crc,
    CRC.addBytes_eq_addBits (o.admits_bits T) (polyType_lossless o T).byteExact]

theorem check_eq_addBits (o : BitOrder) (s : CRCStream (o.polyType T T.bits)) (m : List Byte) :
    (s.check m).1 =
      (s._algorithm.addBits (o.bytesBits m) s._preset ==
        s._algorithm.addBits (o.polyBits T.bits s._invert) 0) := by
  have hn := o.admits_bits T
  have hx := (polyType_lossless o T).byteExact
  rw [check, process_eq, good, CRC.addBytes_eq_addBits hn hx, CRC.addPoly_eq_addBits hn hx]

/-- Two bytes and their CCITT-16 check value in network order. -/
theorem check_ccitt : ((newDefault ccittN).check [0x01, 0x73, 0x83, 0x57]).1 = true := by
  refine (check_iff_gen .network .uint16_t (newDefault ccittN) [0x01, 0x73, 0x83, 0x57]
    (by decide)).mpr ?_
  rw [gen_eq_addBits .network]
  decide +kernel

end CRCStream

end CrcPP
