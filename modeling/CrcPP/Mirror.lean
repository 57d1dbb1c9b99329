import CrcPP.Simulation
import CrcPP.PolyLaws

/-!
# CrcPP.Mirror

**Native and network order are mirror images.** `Poly` and `PolyN` implement
their members with different masks and shifts, but at full width each member of
`PolyN` is the member of `Poly` seen through bit reversal. By `CrcPP.Simulation`
that extends to every run: reversing the generator, the preset, the inversion
and all data reverses everything the stream answers.
-/

namespace CrcPP

variable {T : DataType}

/-- A value and its mirror image. -/
def Mirrored (v w : T.Val) : Prop := w = v.reverse

theorem getLsbD_reverse_eq {w : Nat} (v : BitVec w) {i : Nat} (hi : i < w) :
    v.reverse.getLsbD i = v.getLsbD (w - 1 - i) := by
  rw [BitVec.getLsbD_reverse, BitVec.getMsbD_eq_getLsbD, decide_eq_true hi, Bool.true_and]

theorem reverse_xor {w : Nat} (v v' : BitVec w) :
    (v ^^^ v').reverse = v.reverse ^^^ v'.reverse := by
  refine BitVec.eq_of_getLsbD_eq fun i hi => ?_
  rw [BitVec.getLsbD_xor, getLsbD_reverse_eq _ hi, getLsbD_reverse_eq _ hi,
    getLsbD_reverse_eq _ hi, BitVec.getLsbD_xor]

theorem reverse_injective {w : Nat} : Function.Injective (BitVec.reverse (w := w)) := by
  intro v v' h
  rw [← BitVec.reverse_reverse_eq (x := v), h, BitVec.reverse_reverse_eq]

/-- The members of the two full-width classes mirror each other. -/
theorem simulates_mirrored (T : DataType) :
    (Poly T T.bits).Simulates (PolyN T T.bits) Mirrored BitVec.reverse where
  numbits := rfl
  zero := (BitVec.reverse_eq_zero_iff.mpr rfl).symm
  xor := by
    rintro v _ v' _ rfl rfl
    exact (reverse_xor v v').symm
  hibit := by
    rintro v _ rfl
    have := T.eight_le_bits
    rw [Poly_hibit (BitOrder.admits_bits .native T), PolyN_hibit,
      getLsbD_reverse_eq v (by omega), Nat.sub_zero]
  hibyte := by
    rintro v _ rfl
    have := T.eight_le_bits
    refine BitVec.eq_of_getLsbD_eq fun i hi => ?_
    rw [getLsbD_reverse_eq _ hi, getLsbD_Poly_hibyte_of_lt T.bits v (by omega),
      getLsbD_PolyN_hibyte_of_lt T.bits _ hi, getLsbD_reverse_eq v (by omega)]
    congr 1
    omega
  sethibyte := by
    intro d
    have := T.eight_le_bits
    refine BitVec.eq_of_getLsbD_eq fun i hi => ?_
    rw [getLsbD_PolyN_sethibyte, getLsbD_reverse_eq _ hi]
    rcases Nat.lt_or_ge i 8 with h8 | h8
    · rw [getLsbD_reverse_eq d h8, show T.bits - 1 - i = T.bits - 8 + (8 - 1 - i) by omega,
        getLsbD_Poly_sethibyte_add d (by omega)]
    · rw [BitVec.getLsbD_of_ge _ i h8, getLsbD_Poly_sethibyte_of_lt d (by omega)]
  shift := by
    rintro v _ k rfl
    refine BitVec.eq_of_getLsbD_eq fun i hi => ?_
    rw [getLsbD_PolyN_shift, getLsbD_reverse_eq _ hi]
    rcases Nat.lt_or_ge (k + i) T.bits with h | h
    · rw [getLsbD_reverse_eq v h, show T.bits - 1 - i = k + (T.bits - 1 - (k + i)) by omega,
        getLsbD_Poly_shift_add T.bits v (by omega)]
    · rw [BitVec.getLsbD_of_ge _ _ h, getLsbD_Poly_shift_of_lt T.bits v (by omega)]
  byte_xor := reverse_xor
  byte_eq_zero := BitVec.reverse_eq_zero_iff

/-- The mirror image of a call. -/
def StreamOp.mirror : StreamOp T → StreamOp T
  | feed (.insert i) => feed (.insert (i.map BitVec.reverse))
  | feed (.poly p) => feed (.poly p.reverse)
  | feed (.bit b) => feed (.bit b)
  | reset => reset

theorem StreamOp.rel_mirror (op : StreamOp T) : Rel Mirrored BitVec.reverse op op.mirror := by
  rcases op with (i | p | b) | _
  · exact .feed (.insert i)
  · exact .feed (.poly rfl)
  · exact .feed (.bit b)
  · exact .reset

/-- The two constructors test mirrored bits. -/
theorem lobit_reverse (g : T.Val) :
    (PolyN T T.bits).lobit g.reverse = (Poly T T.bits).lobit g := by
  have := T.eight_le_bits
  rw [PolyN_lobit (BitOrder.admits_bits .network T), Poly_lobit,
    getLsbD_reverse_eq g (by omega), Nat.sub_self]

/-- **Mirror images.** `CRC<Poly<T>>` accepts a generator exactly when
`CRC<PolyN<T>>` accepts its reversal. When they do, a stream in native order and
one in network order that is built from reversed arguments and called with
reversed data stay mirror images at every step. -/
theorem mirror_images (T : DataType) (g p v : T.Val) :
    ((CRC.new (Poly T T.bits) g).isOk = (CRC.new (PolyN T T.bits) g.reverse).isOk) ∧
      ∀ (c : CRC (Poly T T.bits)) (d : CRC (PolyN T T.bits)),
        CRC.new (Poly T T.bits) g = .ok c → CRC.new (PolyN T T.bits) g.reverse = .ok d →
        ∀ (ops : List (StreamOp T)) (k : Nat),
          let s := (CRCStream.new c p v).run (ops.take k)
          let t := (CRCStream.new d p.reverse v.reverse).run ((ops.map StreamOp.mirror).take k)
          t.crc = s.crc.reverse ∧
            t.result.c_str = s.result.c_str.map BitVec.reverse ∧ t.good = s.good := by
  refine ⟨?_, ?_⟩
  · rw [Bool.eq_iff_iff, CRC.new_isOk_iff, CRC.new_isOk_iff, lobit_reverse]
  · intro c d hc hd ops k s t
    have hsim := simulates_mirrored T
    have hg : Mirrored c._generator d._generator := by
      rw [CRC.generator_of_new hc, CRC.generator_of_new hd]
      rfl
    have hops : List.Forall₂ (StreamOp.Rel Mirrored BitVec.reverse) (ops.take k)
        ((ops.map StreamOp.mirror).take k) := by
      rw [← List.map_take, List.forall₂_map_right_iff]
      exact List.forall₂_same.mpr fun op _ => op.rel_mirror
    have hrel : CRCStream.Rel Mirrored s t :=
      CRCStream.run_simulates hsim hops (CRCStream.new_simulates hg rfl rfl)
    refine ⟨CRCStream.crc_simulates hsim hrel, (CRCStream.result_simulates hsim hrel).symm, ?_⟩
    refine (CRCStream.good_simulates hsim hrel ?_).symm
    rintro v _ v' _ rfl rfl
    exact reverse_injective.eq_iff.symm

/-- CCITT-16 in both orders, one byte and one bit into a message. -/
theorem mirror_ccitt :
    ((CRCStream.new ccittN 0xFFFF 0).run
        [.feed (.insert (.byte 0x8C)), .feed (.bit true)]).crc =
      ((CRCStream.new ccitt 0xFFFF 0).run
        [.feed (.insert (.byte 0x31)), .feed (.bit true)]).crc.reverse :=
  ((mirror_images .uint16_t 0x1021 0xFFFF 0).2 ccitt ccittN (CRC.new_generator ccitt)
    (CRC.new_generator ccittN) [.feed (.insert (.byte 0x31)), .feed (.bit true)] 2).1

end CrcPP
