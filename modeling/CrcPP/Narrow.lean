import CrcPP.Remainder
import CrcPP.Simulation

/-!
# CrcPP.Narrow

**Narrow polynomials in native order**, `Poly<T, n>` with `8 ≤ n ≤ W` for a type
`T` of `W` bits.

The source never masks, so the bits of a register above its `n` coefficients
hold whatever was shifted there. They never come back: the low `n` bits of
everything are a function of the low `n` bits of what went in (`narrow_native`).
What the bits above do to the two `good` members is the subject of
`CrcPP.NarrowGood` and `CrcPP.NarrowPadded`.
-/

namespace CrcPP

open Polynomial BitPoly BitOrder

variable {T : DataType} {n : Nat}

/-! ### The low bits -/

/-- No member of `Poly<T, n>` moves a bit from above the coefficients into them. -/
theorem simulates_lowAgree (hn : native.Admits T n) :
    (Poly T n).Simulates (Poly T n) (LowAgree n) id where
  numbits := rfl
  zero := rfl
  xor := LowAgree.xor
  hibit := by
    intro v w h
    have := hn.1
    rw [Poly_hibit hn, Poly_hibit hn, lowAgree_iff.mp h (n - 1) (by omega)]
  hibyte := by
    intro v w h
    have := hn.1
    refine BitVec.eq_of_getLsbD_eq fun i hi => ?_
    rw [id, getLsbD_Poly_hibyte, getLsbD_Poly_hibyte, lowAgree_iff.mp h _ (by omega)]
  sethibyte d := rfl
  shift := by
    intro v w k h
    rw [lowAgree_iff]
    intro i hi
    rw [getLsbD_Poly_shift, getLsbD_Poly_shift, lowAgree_iff.mp h _ (by omega)]
  byte_xor a b := rfl
  byte_eq_zero := Iff.rfl

/-- **The unused high bits do not matter.** Two streams of a class `Poly<T, n>`
whose generators, presets and inversions agree on their low `n` bits, called with
the same data up to the high bits of polynomials, agree on the low `n` bits of
`crc()` and on `result()` at every step; and the low `n` bits of `crc()` are the
remainder of the preset and the bits fed since the last reset, modulo
`X^n + generator`, plus the inversion value. -/
theorem narrow_native (T : DataType) (n : Nat) (hn : native.Admits T n) (c d : CRC (Poly T n))
    (hg : LowAgree n c._generator d._generator) (p q v w : T.Val) (hp : LowAgree n p q)
    (hv : LowAgree n v w) (ops ops' : List (StreamOp T))
    (hops : List.Forall₂ (StreamOp.Rel (LowAgree n) id) ops ops') (k : Nat) :
    let s := (CRCStream.new c p v).run (ops.take k)
    let t := (CRCStream.new d q w).run (ops'.take k)
    let bits := StreamOp.pending native n (ops.take k)
    LowAgree n s.crc t.crc ∧ s.result = t.result ∧
      native.toPoly n s.crc =
        (native.toPoly n p * X ^ bits.length + bitsPoly bits * X ^ n) %ₘ
          (X ^ n + BitOrder.native.toPoly n c._generator) + BitOrder.native.toPoly n v := by
  intro s t bits
  have hsim := simulates_lowAgree hn
  have hrel : CRCStream.Rel (LowAgree n) s t :=
    CRCStream.run_simulates hsim (List.forall₂_take k hops)
      (CRCStream.new_simulates hg hp hv)
  refine ⟨CRCStream.crc_simulates hsim hrel, ?_, ?_⟩
  · have hbytes := CRCStream.result_simulates hsim hrel
    rw [List.map_id] at hbytes
    exact CRCResult.ext hbytes
  · have hreg := CRCStream.toPoly_run_crc_eq (o := native) hn (CRCStream.new c p v) rfl
      (ops.take k)
    have hinvert : s._invert = v := (CRCStream.sameSetup_run (CRCStream.new c p v) _).invert
    rw [CRCStream.crc, toPoly_xor, hinvert]
    exact congrArg (· + BitOrder.native.toPoly n v) hreg

/-- CAN with a bit set above the 15 coefficients, in the generator, the preset,
the inversion and a polynomial. -/
theorem narrow_can :
    LowAgree 15
      ((CRCStream.new canCrc 0x7FFF 0).run
        [.feed (.insert (.byte 0x31)), .feed (.poly 0x1234)]).crc
      ((CRCStream.new (CRC.ofGenerator (Poly .uint16_t 15) 0xC599 (by decide)) 0xFFFF 0x8000).run
        [.feed (.insert (.byte 0x31)), .feed (.poly 0x9234)]).crc :=
  (narrow_native .uint16_t 15 (by decide) canCrc (CRC.ofGenerator _ 0xC599 (by decide)) (by decide)
    0x7FFF 0xFFFF 0 0x8000 (by decide) (by decide)
    [.feed (.insert (.byte 0x31)), .feed (.poly 0x1234)]
    [.feed (.insert (.byte 0x31)), .feed (.poly 0x9234)]
    (.cons (.feed (.insert _)) (.cons (.feed (.poly (by decide))) .nil)) 2).1

/-- The CAN frame that the source's tests feed. The 15 low bits are its recorded CRC. -/
example :
    ((CRCStream.new canCrc 0 0).run
      [.feed (.bit false), .feed (.bit false), .feed (.insert (.byte 0xC2)),
        .feed (.bit false), .feed (.bit true), .feed (.bit true), .feed (.bit true),
        .feed (.bit true), .feed (.bit true), .feed (.insert (.byte 0x00)),
        .feed (.insert (.byte 0x04)), .feed (.bit false), .feed (.bit false),
        .feed (.bit false), .feed (.bit false), .feed (.bit false), .feed (.bit true),
        .feed (.bit false), .feed (.insert (.byte 0x01)),
        .feed (.insert (.byte 0x00))]).crc &&& 0x7FFF = 0x74B0 := by
  decide +kernel

/-- In native order the all-ones default preset and the `n`-bit one are the same
CRC. -/
theorem native_newDefault (hn : native.Admits T n) (c : CRC (Poly T n)) (m : List Byte) :
    LowAgree n ((CRCStream.newDefault c).insertBytes m).crc
      ((CRCStream.new c (BitVec.ofNat T.bits (2 ^ n - 1))
        (BitVec.ofNat T.bits (2 ^ n - 1))).insertBytes m).crc := by
  have hones : LowAgree n (~~~(0 : T.Val)) (BitVec.ofNat T.bits (2 ^ n - 1)) :=
    lowAgree_ones hn.2
  have hrel : CRCStream.Rel (LowAgree n) (CRCStream.newDefault c)
      (CRCStream.new c (BitVec.ofNat T.bits (2 ^ n - 1)) (BitVec.ofNat T.bits (2 ^ n - 1))) :=
    ⟨rfl, hones, hones, hones⟩
  have hfed := CRCStream.feed_simulates (simulates_lowAgree hn) hrel (.insert (.bytes m))
  rw [ByteInsertion.map, List.map_id] at hfed
  exact CRCStream.crc_simulates (simulates_lowAgree hn) hfed

end CrcPP
