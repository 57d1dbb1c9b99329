import CrcPP.Bits

/-!
# CrcPP.Serial

**The table-driven path computes the bit-serial one.** `addbit` is the
definition of a CRC; `add` on bytes and words is an optimisation with a table.
Here every feeding call is shown to leave the register that `addbit` alone
leaves over the bits the call denotes (`Feed.bits`).

For the lossless classes the two registers are equal as values of `T`. For any
admissible class they differ by bits above the coefficients at most, and
`add_eq_addBits_xor` says by which.
-/

namespace CrcPP

variable {T : DataType}

namespace CRC

/-- Feed bits one by one, first element first. -/
def addBits {P : PolyType T} (c : CRC P) (bits : List Bool) (reg : T.Val) : T.Val :=
  bits.foldl (fun reg b => c.addbit (uint8OfBool b) reg) reg

section

variable {P : PolyType T} (c : CRC P)

@[simp] theorem addBits_nil (reg : T.Val) : c.addBits [] reg = reg := rfl

@[simp] theorem addBits_cons (b : Bool) (bits : List Bool) (reg : T.Val) :
    c.addBits (b :: bits) reg = c.addBits bits (c.addbit (uint8OfBool b) reg) := rfl

theorem addBits_append (xs ys : List Bool) (reg : T.Val) :
    c.addBits (xs ++ ys) reg = c.addBits ys (c.addBits xs reg) :=
  List.foldl_append

/-- The bit loop of a word feeds the bits that leave the word at the top. -/
theorem addPolyBits_eq (hP : P.Lawful) (k : Nat) (work reg : T.Val) :
    c.addPolyBits k work reg = c.addBits (outBits P k work) reg := by
  induction k generalizing work reg with
  | zero => rfl
  | succ k ih =>
      have hbit : uint8OfBool (P.hibit work != 0) = P.hibit work := by
        rcases hP.hibit_cases work with h | h <;> rw [h] <;> rfl
      rw [addPolyBits, ih, outBits, addBits_cons, hbit]

/-- A byte step against the bits of `work`'s top byte: equal but for what
`sethibyte` and `shift` leave above the coefficients. -/
theorem add_hibyte_eq (hP : P.Lawful) (work reg : T.Val) :
    c.add (P.hibyte work) reg =
      c.addBits (outBits P 8 work) reg ^^^
        P.shift (P.sethibyte (P.hibyte reg ^^^ P.hibyte work)) 8 := by
  have hbits := c.addPolyBits_xor hP 8 work reg
  rw [c.addPolyBits_eq hP] at hbits
  have hbyte := c.add_xor hP work reg
  rw [c.add_zero_eq hP, ← hbits, hP.hibyte_xor] at hbyte
  rw [eq_xor_of_xor_eq hbyte]
  calc c.addBits (outBits P 8 work) reg ^^^ P.shift work 8 ^^^
        P.shift (P.sethibyte (P.hibyte reg ^^^ P.hibyte work)) 8 ^^^ P.shift work 8
      = c.addBits (outBits P 8 work) reg ^^^
          P.shift (P.sethibyte (P.hibyte reg ^^^ P.hibyte work)) 8 ^^^ P.shift work 8 ^^^
          P.shift work 8 := by ac_rfl
    _ = _ := xor_xor_cancel _ _

end

variable {o : BitOrder} {n : Nat}

/-- **The byte step against the byte's eight bits**, for any admissible class. -/
theorem add_eq_addBits_xor (hn : o.Admits T n) (c : CRC (o.polyType T n)) (b : Byte)
    (reg : T.Val) :
    c.add b reg =
      c.addBits (o.byteBits b) reg ^^^
        (o.polyType T n).shift
          ((o.polyType T n).sethibyte ((o.polyType T n).hibyte reg ^^^ b)) 8 := by
  have h := c.add_hibyte_eq (polyType_lawful hn) ((o.polyType T n).sethibyte b) reg
  rwa [outBits_hibyte hn, (polyType_lawful hn).hibyte_sethibyte] at h

end CRC

/-! ### Classes in which a byte step is exactly eight bit steps

`sethibyte` and `shift` leave nothing above the coefficients in the full-width
classes, and in no network-order class: there the byte is shifted out at the
bottom of the word. -/

/-- The byte that is moved out leaves no trace. -/
def PolyType.ByteExact (P : PolyType T) : Prop :=
  ∀ d : Byte, P.shift (P.sethibyte d) 8 = 0

theorem PolyType.Lossless.byteExact {P : PolyType T} (hP : P.Lossless) : P.ByteExact :=
  hP.shift_sethibyte

theorem PolyN_byteExact (T : DataType) (n : Nat) : (PolyN T n).ByteExact :=
  PolyN_shift_sethibyte n

namespace CRC

variable {o : BitOrder} {n : Nat}

/-- A byte step is the eight bit steps of its bits. -/
theorem add_eq_addBits (hn : o.Admits T n) (hx : (o.polyType T n).ByteExact)
    (c : CRC (o.polyType T n)) (b : Byte) (reg : T.Val) :
    c.add b reg = c.addBits (o.byteBits b) reg := by
  rw [c.add_eq_addBits_xor hn, hx]
  exact BitVec.xor_zero

theorem addBytes_eq_addBits (hn : o.Admits T n) (hx : (o.polyType T n).ByteExact)
    (c : CRC (o.polyType T n)) (bs : List Byte) (reg : T.Val) :
    c.addBytes bs reg = c.addBits (o.bytesBits bs) reg := by
  induction bs generalizing reg with
  | nil => rfl
  | cons b bs ih =>
      rw [addBytes_cons, ih, c.add_eq_addBits hn hx, BitOrder.bytesBits_cons, addBits_append]

/-- A word feeds its coefficients from the highest down. -/
theorem addPoly_eq_addBits (hn : o.Admits T n) (hx : (o.polyType T n).ByteExact)
    (c : CRC (o.polyType T n)) (p reg : T.Val) :
    c.addPoly p reg = c.addBits (o.polyBits n p) reg := by
  have hP := polyType_lawful hn
  have hstep : c.add 0 = (c.addbit 0)^[8] := by
    funext e
    rw [c.add_zero_eq hP, hx]
    exact BitVec.xor_zero
  have hword := c.addPoly_xor hP p reg
  have hbits := c.addPolyBits_xor hP n p reg
  rw [advance, hstep, ← Function.iterate_mul, ← Function.iterate_add_apply, polyType_numbits,
    Nat.mod_add_div, ← hbits] at hword
  rw [← outBits_numbits hn, ← c.addPolyBits_eq hP]
  have h := eq_xor_of_xor_eq hword
  rwa [xor_xor_cancel] at h

end CRC

/-! ### Streams -/

namespace CRCStream

variable {o : BitOrder} {n : Nat}

/-- One feeding call feeds the bits it denotes. -/
theorem feed_crc (hn : o.Admits T n) (hx : (o.polyType T n).ByteExact)
    (s : CRCStream (o.polyType T n)) (f : Feed T) :
    (s.feed f)._crc = s._algorithm.addBits (f.bits o n) s._crc := by
  cases f with
  | insert i =>
      rw [feed, insert_eq]
      exact s._algorithm.addBytes_eq_addBits hn hx i.data s._crc
  | poly p => exact s._algorithm.addPoly_eq_addBits hn hx p s._crc
  | bit b => rfl

/-- A run of feeding calls feeds their bits one after the other. -/
theorem feedAll_crc (hn : o.Admits T n) (hx : (o.polyType T n).ByteExact)
    (s : CRCStream (o.polyType T n)) (fs : List (Feed T)) :
    (s.feedAll fs)._crc = s._algorithm.addBits (fs.flatMap (Feed.bits o n)) s._crc := by
  induction fs generalizing s with
  | nil => rfl
  | cons f fs ih =>
      rw [feedAll_cons, ih, feed_crc hn hx, (sameSetup_feed s f).algorithm, List.flatMap_cons,
        CRC.addBits_append]

/-- **Table-driven feeding is bit-serial feeding.** In a full-width class, any
mix of feeding calls leaves the register that `addbit` leaves over the
concatenation of the bits they denote; and the bits of a polynomial are those of
the bytes of its `CRCResult`. -/
theorem feedAll_eq_serial (o : BitOrder) (T : DataType)
    (s : CRCStream (o.polyType T T.bits)) (fs : List (Feed T)) :
    (s.feedAll fs)._crc = s._algorithm.addBits (fs.flatMap (Feed.bits o T.bits)) s._crc ∧
      ∀ p : T.Val,
        o.polyBits T.bits p = o.bytesBits (CRCResult.new (o.polyType T T.bits) p).c_str := by
  refine ⟨feedAll_crc (o.admits_bits T) (polyType_lossless o T).byteExact s fs, ?_⟩
  intro p
  exact (bytesBits_c_str o p).symm

end CRCStream

end CrcPP
