import CrcPP.Linear

/-!
# CrcPP.Bits

What data **means**: the coefficients a value of a polynomial class has, and the
bits a call feeds, in the order in which they are transmitted.

The source's README gives the two readings. In native order bit `i`
of a value is the coefficient of `X^i`, and a byte is sent most significant bit
first; in network order bit `i` is the coefficient of `X^(n-1-i)`, and a byte is
sent least significant bit first. Both are stated here without the member
functions. That the members read and move exactly these coefficients is proved
below (`hibit_shift_eq`, `outBits_hibyte`), so that the later modules never look
at a mask or a shift again.

In a class narrower than `T` only the low `n` bits of a value are coefficients.
`LowAgree` is equality as far as they go.
-/

namespace CrcPP

variable {T : DataType}

namespace BitOrder

/-- The coefficient of `X^k` in a value read with `n` coefficients. -/
def coeff (o : BitOrder) (n : Nat) (v : T.Val) (k : Nat) : Bool :=
  match o with
  | native => v.getLsbD k
  | network => v.getLsbD (n - 1 - k)

/-- The bits of a byte in transmission order. -/
def byteBits (o : BitOrder) (b : Byte) : List Bool :=
  match o with
  | native => (List.range 8).map fun k => b.getLsbD (7 - k)
  | network => (List.range 8).map fun k => b.getLsbD k

/-- The bits of a byte sequence in transmission order. -/
def bytesBits (o : BitOrder) (bs : List Byte) : List Bool := bs.flatMap o.byteBits

/-- The coefficients of a polynomial from the highest down. -/
def polyBits (o : BitOrder) (n : Nat) (p : T.Val) : List Bool :=
  (List.range n).map fun k => o.coeff n p (n - 1 - k)

@[simp] theorem length_byteBits (o : BitOrder) (b : Byte) : (o.byteBits b).length = 8 := by
  cases o <;> rfl

@[simp] theorem bytesBits_nil (o : BitOrder) : o.bytesBits [] = [] := rfl

@[simp] theorem bytesBits_cons (o : BitOrder) (b : Byte) (bs : List Byte) :
    o.bytesBits (b :: bs) = o.byteBits b ++ o.bytesBits bs := rfl

theorem length_bytesBits (o : BitOrder) (bs : List Byte) :
    (o.bytesBits bs).length = 8 * bs.length := by
  induction bs with
  | nil => rfl
  | cons b bs ih =>
      rw [bytesBits_cons, List.length_append, length_byteBits, ih, List.length_cons]
      omega

@[simp] theorem length_polyBits (o : BitOrder) (n : Nat) (p : T.Val) :
    (o.polyBits n p).length = n := by
  simp [polyBits]

@[simp] theorem coeff_xor (o : BitOrder) (n : Nat) (v w : T.Val) (k : Nat) :
    o.coeff n (v ^^^ w) k = (o.coeff n v k ^^ o.coeff n w k) := by
  cases o <;> exact BitVec.getLsbD_xor

theorem byteBits_zero (o : BitOrder) : o.byteBits 0 = List.replicate 8 false := by
  cases o <;> rfl

theorem bytesBits_replicate_zero (o : BitOrder) (k : Nat) :
    o.bytesBits (List.replicate k 0) = List.replicate (8 * k) false := by
  induction k with
  | zero => rfl
  | succ k ih =>
      rw [List.replicate_succ, bytesBits_cons, ih, byteBits_zero, Nat.mul_succ, Nat.add_comm,
        ← List.replicate_append_replicate]

/-- Bytes can be told apart by their bits. -/
theorem byteBits_injective (o : BitOrder) : Function.Injective o.byteBits := by
  intro a b h
  cases o with
  | native =>
      simp only [byteBits, List.map_inj_left, List.mem_range] at h
      refine BitVec.eq_of_getLsbD_eq fun i hi => ?_
      have := h (7 - i) (by omega)
      rwa [Nat.sub_sub_self (by omega)] at this
  | network =>
      simp only [byteBits, List.map_inj_left, List.mem_range] at h
      exact BitVec.eq_of_getLsbD_eq h

theorem bytesBits_injective (o : BitOrder) : Function.Injective o.bytesBits := by
  intro as
  induction as with
  | nil =>
      intro bs h
      have hlen := congrArg List.length h
      rw [length_bytesBits, length_bytesBits, List.length_nil] at hlen
      exact (List.length_eq_zero_iff.mp (by omega)).symm
  | cons a as ih =>
      intro bs h
      cases bs with
      | nil =>
          have hlen := congrArg List.length h
          rw [length_bytesBits, length_bytesBits, List.length_nil, List.length_cons] at hlen
          omega
      | cons b bs =>
          obtain ⟨hb, hbs⟩ := List.append_inj h (by rw [length_byteBits, length_byteBits])
          rw [o.byteBits_injective hb, ih hbs]

/-- At full width a value is its coefficients. -/
theorem eq_of_coeff (o : BitOrder) {v w : T.Val}
    (h : ∀ k < T.bits, o.coeff T.bits v k = o.coeff T.bits w k) : v = w := by
  refine BitVec.eq_of_getLsbD_eq fun i hi => ?_
  cases o with
  | native => exact h i hi
  | network =>
      have := h (T.bits - 1 - i) (by omega)
      simpa only [coeff, show T.bits - 1 - (T.bits - 1 - i) = i by omega] using this

theorem polyBits_injective (o : BitOrder) (T : DataType) :
    Function.Injective (o.polyBits T.bits (T := T)) := by
  intro v w h
  simp only [polyBits, List.map_inj_left, List.mem_range] at h
  refine o.eq_of_coeff fun k hk => ?_
  have := h (T.bits - 1 - k) (by omega)
  rwa [show T.bits - 1 - (T.bits - 1 - k) = k by omega] at this

/-- Every list of `n` bits is what some polynomial feeds. -/
theorem exists_polyBits_eq (o : BitOrder) {n : Nat} (hn : n ≤ T.bits) (bits : List Bool)
    (h : bits.length = n) : ∃ p : T.Val, o.polyBits n p = bits := by
  subst h
  cases o with
  | native =>
      refine ⟨(BitVec.ofBoolListLE bits.reverse).setWidth T.bits, ?_⟩
      refine List.ext_getElem (length_polyBits _ _ _) fun i hi hi' => ?_
      simp only [polyBits, coeff, List.getElem_map, List.getElem_range, BitVec.getLsbD_setWidth,
        BitVec.getLsbD_ofBoolListLE]
      rw [decide_eq_true (by omega), Bool.true_and, List.getD_eq_getElem?_getD,
        List.getElem?_reverse (by omega), List.getElem?_eq_getElem (by omega), Option.getD_some]
      congr 1
      omega
  | network =>
      refine ⟨(BitVec.ofBoolListLE bits).setWidth T.bits, ?_⟩
      refine List.ext_getElem (length_polyBits _ _ _) fun i hi hi' => ?_
      simp only [polyBits, coeff, List.getElem_map, List.getElem_range, BitVec.getLsbD_setWidth,
        BitVec.getLsbD_ofBoolListLE]
      rw [decide_eq_true (by omega), Bool.true_and, List.getD_eq_getElem?_getD,
        show bits.length - 1 - (bits.length - 1 - i) = i by omega,
        List.getElem?_eq_getElem hi', Option.getD_some]

end BitOrder

/-- The bits a call feeds. -/
def Feed.bits (o : BitOrder) (n : Nat) : Feed T → List Bool
  | insert i => o.bytesBits i.data
  | poly p => o.polyBits n p
  | bit b => [b]

/-- One call's effect on the bits fed since the register was last preset. -/
def StreamOp.pendingStep (o : BitOrder) (n : Nat) (fed : List Bool) : StreamOp T → List Bool
  | feed f => fed ++ f.bits o n
  | reset => []

/-- The bits a sequence of calls has fed since the register was last preset. -/
def StreamOp.pending (o : BitOrder) (n : Nat) (ops : List (StreamOp T)) : List Bool :=
  ops.foldl (pendingStep o n) []

theorem StreamOp.pending_concat (o : BitOrder) (n : Nat) (ops : List (StreamOp T))
    (op : StreamOp T) : pending o n (ops ++ [op]) = pendingStep o n (pending o n ops) op := by
  simp [pending]

/-! ### Agreement on the low bits -/

/-- The values agree on their low `n` bits. -/
def LowAgree (n : Nat) (v w : T.Val) : Prop := v.setWidth n = w.setWidth n

instance (n : Nat) (v w : T.Val) : Decidable (LowAgree n v w) :=
  inferInstanceAs (Decidable (v.setWidth n = w.setWidth n))

variable {n : Nat}

theorem lowAgree_iff {v w : T.Val} :
    LowAgree n v w ↔ ∀ i < n, v.getLsbD i = w.getLsbD i := by
  constructor
  · intro h i hi
    have hbit := congrArg (·.getLsbD i) h
    simpa only [BitVec.getLsbD_setWidth, hi, decide_true, Bool.true_and] using hbit
  · intro h
    refine BitVec.eq_of_getLsbD_eq fun i hi => ?_
    rw [BitVec.getLsbD_setWidth, BitVec.getLsbD_setWidth, h i hi]

theorem LowAgree.xor {v w v' w' : T.Val} (h : LowAgree n v w) (h' : LowAgree n v' w') :
    LowAgree n (v ^^^ v') (w ^^^ w') := by
  rw [lowAgree_iff] at *
  intro i hi
  rw [BitVec.getLsbD_xor, BitVec.getLsbD_xor, h i hi, h' i hi]

/-- Bit `i` of the `n`-bit all-ones value. -/
theorem getLsbD_ones (n : Nat) {i : Nat} (hi : i < T.bits) :
    (BitVec.ofNat T.bits (2 ^ n - 1)).getLsbD i = decide (i < n) := by
  rw [BitVec.getLsbD_ofNat, Nat.testBit_two_pow_sub_one, decide_eq_true hi, Bool.true_and]

theorem getLsbD_not_zero {i : Nat} (hi : i < T.bits) : (~~~(0 : T.Val)).getLsbD i = true := by
  rw [BitVec.getLsbD_not, getLsbD_zero_val, decide_eq_true hi]
  rfl

/-- `~0` and the `n`-bit all-ones value. -/
theorem lowAgree_ones (hn : n ≤ T.bits) :
    LowAgree n (~~~(0 : T.Val)) (BitVec.ofNat T.bits (2 ^ n - 1)) := by
  rw [lowAgree_iff]
  intro i hi
  rw [getLsbD_not_zero (by omega), getLsbD_ones n (by omega), decide_eq_true hi]

/-! ### The members read these coefficients -/

/-- The bits that leave a value at the top while it is shifted `k` times. -/
def outBits (P : PolyType T) : Nat → T.Val → List Bool
  | 0, _ => []
  | k + 1, v => (P.hibit v != 0) :: outBits P k (P.shift v 1)

theorem outBits_add {P : PolyType T} (hP : P.Lawful) (j k : Nat) (v : T.Val) :
    outBits P (j + k) v = outBits P j v ++ outBits P k (P.shift v j) := by
  induction j generalizing v with
  | zero => rw [Nat.zero_add, hP.shift_zero]; rfl
  | succ j ih =>
      rw [Nat.succ_add, outBits, outBits, ih, hP.shift_shift, Nat.add_comm 1 j]
      rfl

theorem outBits_eq_map {P : PolyType T} (hP : P.Lawful) (k : Nat) (v : T.Val) :
    outBits P k v = (List.range k).map fun j => P.hibit (P.shift v j) != 0 := by
  induction k with
  | zero => rfl
  | succ k ih =>
      rw [outBits_add hP, ih, List.range_succ, List.map_append]
      rfl

/-- The bit that leaves after `k` shifts is the coefficient of `X^(n-1-k)`. -/
theorem hibit_shift_eq {o : BitOrder} {n : Nat} (hn : o.Admits T n) (v : T.Val) {k : Nat}
    (hk : k < n) :
    (o.polyType T n).hibit ((o.polyType T n).shift v k) =
      uint8OfBool (o.coeff n v (n - 1 - k)) := by
  cases o with
  | native =>
      have := hn.2
      simp only [BitOrder.polyType, BitOrder.coeff]
      rw [Poly_hibit hn, show n - 1 = k + (n - 1 - k) by omega,
        getLsbD_Poly_shift_add n v (by omega), Nat.add_sub_cancel_left]
  | network =>
      simp only [BitOrder.polyType, BitOrder.coeff, PolyN_hibit, getLsbD_PolyN_shift]
      rw [Nat.add_zero, Nat.sub_sub_self (by omega)]

/-- The constructor's test reads the coefficient of `X^0`. -/
theorem lobit_eq {o : BitOrder} {n : Nat} (hn : o.Admits T n) (v : T.Val) :
    (o.polyType T n).lobit v = uint8OfBool (o.coeff n v 0) := by
  cases o with
  | native => exact Poly_lobit n v
  | network => exact PolyN_lobit hn v

/-- A word leaves as its coefficients from the highest down. -/
theorem outBits_numbits {o : BitOrder} {n : Nat} (hn : o.Admits T n) (v : T.Val) :
    outBits (o.polyType T n) n v = o.polyBits n v := by
  rw [outBits_eq_map (polyType_lawful hn), BitOrder.polyBits]
  refine List.map_congr_left fun k hk => ?_
  rw [hibit_shift_eq hn v (List.mem_range.mp hk)]
  cases o.coeff n v (n - 1 - k) <;> rfl

/-- The bits of `hibyte` are the next eight to leave. -/
theorem outBits_hibyte {o : BitOrder} {n : Nat} (hn : o.Admits T n) (v : T.Val) :
    outBits (o.polyType T n) 8 v = o.byteBits ((o.polyType T n).hibyte v) := by
  rw [outBits_eq_map (polyType_lawful hn)]
  cases o with
  | native =>
      simp only [BitOrder.byteBits]
      refine List.map_congr_left fun k hk => ?_
      have hk8 : k < 8 := List.mem_range.mp hk
      have := hn.1
      have := hn.2
      have hbyte : ((BitOrder.native.polyType T n).hibyte v).getLsbD (7 - k) =
          v.getLsbD (n - 8 + (7 - k)) := getLsbD_Poly_hibyte_of_lt n v (by omega)
      rw [hibit_shift_eq hn v (by omega), hbyte, show n - 8 + (7 - k) = n - 1 - k by omega,
        BitOrder.coeff]
      cases v.getLsbD (n - 1 - k) <;> rfl
  | network =>
      simp only [BitOrder.byteBits]
      refine List.map_congr_left fun k hk => ?_
      simp only [BitOrder.polyType, PolyN_hibit, getLsbD_PolyN_shift]
      rw [getLsbD_PolyN_hibyte_of_lt n v (List.mem_range.mp hk), Nat.add_zero]
      cases v.getLsbD k <;> rfl

/-- The bytes of a `CRCResult`, sent one after the other, are the bits that
leave the CRC at the top. -/
theorem bytesBits_resultBytes {o : BitOrder} {n : Nat} (hn : o.Admits T n) (k : Nat)
    (v : T.Val) :
    o.bytesBits (resultBytes (o.polyType T n) k v) = outBits (o.polyType T n) (8 * k) v := by
  induction k generalizing v with
  | zero => rfl
  | succ k ih =>
      rw [resultBytes, BitOrder.bytesBits_cons, ih, Nat.mul_succ, Nat.add_comm,
        outBits_add (polyType_lawful hn), outBits_hibyte hn]

/-- At full width the bytes of a `CRCResult` are exactly its CRC's coefficients. -/
theorem bytesBits_c_str (o : BitOrder) (v : T.Val) :
    o.bytesBits (CRCResult.new (o.polyType T T.bits) v).c_str = o.polyBits T.bits v := by
  have hn := o.admits_bits T
  rw [CRCResult.c_str, CRCResult.new, bytesBits_resultBytes hn, ← T.bits_eq, outBits_numbits hn]

end CrcPP
