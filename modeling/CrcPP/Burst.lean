import CrcPP.Remainder

/-!
# CrcPP.Burst

**Burst errors are caught.** The sequences that `check` accepts leave one register, so
an error in one of them is missed when it is, as a message, a multiple of
`X^n + generator`, and only then (`check_xor_iff_dvd`). A burst is the product of a power
of `X` and a nonzero polynomial of degree below `n`, and the generator's `X^0` term makes
`X` invertible modulo it: it is no multiple (`SerialDivision.not_dvd_of_burst`).

The window of a burst is taken over the bits in transmission order
(`BitOrder.bytesBits`), so it may start inside a byte and cross byte boundaries.
-/

namespace CrcPP

open Polynomial BitPoly BitOrder

variable {T : DataType}

namespace BitOrder

theorem byteBits_xor (o : BitOrder) (a b : Byte) :
    o.byteBits (a ^^^ b) = (o.byteBits a).zipWith (· ^^ ·) (o.byteBits b) := by
  cases o <;> simp only [byteBits, List.zipWith_map, List.zipWith_self, BitVec.getLsbD_xor]

theorem bytesBits_xor (o : BitOrder) (as bs : List Byte) (h : as.length = bs.length) :
    o.bytesBits (as.zipWith (· ^^^ ·) bs) =
      (o.bytesBits as).zipWith (· ^^ ·) (o.bytesBits bs) := by
  induction as generalizing bs with
  | nil =>
      obtain rfl : bs = [] := List.length_eq_zero_iff.mp h.symm
      rfl
  | cons a as ih =>
      cases bs with
      | nil => simp at h
      | cons b bs =>
          rw [List.zipWith_cons_cons, bytesBits_cons, bytesBits_cons, bytesBits_cons, byteBits_xor,
            ih bs (by simpa using h),
            List.zipWith_append (by rw [length_byteBits, length_byteBits])]

/-- Adding sequences bit by bit adds their polynomials. -/
theorem bitsPoly_xor (as bs : List Bool) (h : as.length = bs.length) :
    bitsPoly (as.zipWith (· ^^ ·) bs) = bitsPoly as + bitsPoly bs := by
  rw [bitsPoly, bitsPoly, bitsPoly, ← SerialDivision.message_zipWith_add _ _ (by simpa using h),
    List.map_zipWith, List.zipWith_map]
  congr 2
  funext a b
  exact bit_xor a b

/-- A sequence with a set bit has a nonzero polynomial. -/
theorem bitsPoly_ne_zero {bits : List Bool} (h : true ∈ bits) : bitsPoly bits ≠ 0 := by
  intro hz
  obtain ⟨i, hi, hbit⟩ := List.mem_iff_getElem.mp (List.mem_reverse.mpr h)
  have hc := congrArg (fun p => p.coeff i) hz
  simp only [coeff_bitsPoly, coeff_zero, bit_eq_zero] at hc
  rw [List.getD_eq_getElem?_getD, List.getElem?_eq_getElem hi, hbit] at hc
  exact Bool.noConfusion hc

/-- A nonzero coefficient is a set bit, counted from the end. -/
theorem getElem?_of_coeff_bitsPoly {bits : List Bool} {i : Nat}
    (h : (bitsPoly bits).coeff i ≠ 0) :
    i < bits.length ∧ bits[bits.length - 1 - i]? = some true := by
  rw [coeff_bitsPoly, Ne, bit_eq_zero, Bool.not_eq_false, List.getD_eq_getElem?_getD] at h
  have hlt : i < bits.length := by
    by_contra hge
    rw [List.getElem?_eq_none (by rw [List.length_reverse]; omega)] at h
    exact Bool.noConfusion h
  refine ⟨hlt, ?_⟩
  rw [List.getElem?_reverse hlt, List.getElem?_eq_getElem (by omega), Option.getD_some] at h
  rw [List.getElem?_eq_getElem (by omega), h]

/-- A byte sequence that is not all zero has a set bit. -/
theorem true_mem_bytesBits (o : BitOrder) {bs : List Byte} (h : ∃ b ∈ bs, b ≠ 0) :
    true ∈ o.bytesBits bs := by
  obtain ⟨b, hb, hne⟩ := h
  refine List.mem_flatMap.mpr ⟨b, hb, ?_⟩
  by_contra hfalse
  refine hne (o.byteBits_injective ?_)
  rw [byteBits_zero, List.eq_replicate_iff]
  refine ⟨length_byteBits o b, ?_⟩
  intro x hx
  cases x with
  | false => rfl
  | true => exact absurd hx hfalse

end BitOrder

/-- The modulus of a full-width class has its `X^0` term. -/
theorem isUnit_coeff_zero_modulus (o : BitOrder) (c : CRC (o.polyType T T.bits)) :
    IsUnit (c.modulus.coeff 0) := by
  rw [CRC.modulus_eq, regBits_bits]
  exact CRC.isUnit_coeff_zero (o.admits_bits T) c

namespace CRCStream

variable {o : BitOrder}

/-- An error leaves the register when the modulus divides it. -/
theorem process_xor_crc_iff (stream : CRCStream (o.polyType T T.bits)) {c e : List Byte}
    (hlen : e.length = c.length) :
    (stream.process (c.zipWith (· ^^^ ·) e))._crc = (stream.process c)._crc ↔
      stream._algorithm.modulus ∣ bitsPoly (o.bytesBits e) := by
  have hmodulus : X ^ T.bits + o.toPoly T.bits stream._algorithm._generator =
      stream._algorithm.modulus := by
    rw [CRC.modulus_eq, regBits_bits]
  rw [← (toPoly_injective o T).eq_iff, toPoly_process_crc, toPoly_process_crc,
    List.length_zipWith, hlen, Nat.min_self, o.bytesBits_xor c e hlen.symm,
    bitsPoly_xor _ _ (by rw [length_bytesBits, length_bytesBits, hlen]), hmodulus, add_mul,
    ← add_assoc, add_modByMonic, add_eq_left,
    modByMonic_eq_zero_iff_dvd stream._algorithm.monic_modulus,
    SerialDivision.dvd_mul_X_pow_iff (isUnit_coeff_zero_modulus o stream._algorithm)]

/-- An error in an accepted sequence is missed when the modulus divides it. -/
theorem check_xor_iff_dvd (stream : CRCStream (o.polyType T T.bits)) {c e : List Byte}
    (hlen : e.length = c.length) (hc : (stream.check c).1 = true) :
    (stream.check (c.zipWith (· ^^^ ·) e)).1 = true ↔
      stream._algorithm.modulus ∣ bitsPoly (o.bytesBits e) := by
  -- `good` compares both registers with one value that depends on the setup only
  have hgood : ∀ s : List Byte, (stream.check s).1 = true ↔
      (stream.process s)._crc = stream._algorithm.addPoly stream._invert 0 := by
    intro s
    rw [check, good, beq_iff_eq, process_eq]
  rw [hgood, ← (hgood c).mp hc, process_xor_crc_iff stream hlen]

/-- **Burst errors are always caught.** In a full-width class, changing an accepted
sequence by a nonzero error whose set bits lie within `n` consecutive positions
of the transmitted bits makes `check` fail. -/
theorem check_burst (o : BitOrder) (T : DataType) (stream : CRCStream (o.polyType T T.bits))
    (c e : List Byte) (hlen : e.length = c.length) (hc : (stream.check c).1 = true)
    (hne : ∃ b ∈ e, b ≠ 0) (start : Nat)
    (hwindow : ∀ i, (o.bytesBits e)[i]? = some true → start ≤ i ∧ i < start + T.bits) :
    (stream.check (c.zipWith (· ^^^ ·) e)).1 = false := by
  rw [← Bool.not_eq_true]
  intro hce
  have hdvd := (check_xor_iff_dvd stream hlen hc).mp hce
  -- position `i` of the transmission is the coefficient of `X^(L-1-i)`
  have hcoeff : ∀ i, (bitsPoly (o.bytesBits e)).coeff i ≠ 0 →
      i < (o.bytesBits e).length ∧ start ≤ (o.bytesBits e).length - 1 - i ∧
        (o.bytesBits e).length - 1 - i < start + T.bits := by
    intro i hi
    obtain ⟨hlt, hset⟩ := getElem?_of_coeff_bitsPoly hi
    exact ⟨hlt, hwindow _ hset⟩
  refine SerialDivision.not_dvd_of_burst (k := (o.bytesBits e).length - (start + T.bits))
    stream._algorithm.monic_modulus (isUnit_coeff_zero_modulus o stream._algorithm)
    (bitsPoly_ne_zero (o.true_mem_bytesBits hne)) ?_ ?_ hdvd
  · intro i hi
    by_contra h
    obtain ⟨hlt, -, hhigh⟩ := hcoeff i h
    omega
  · intro i hi
    by_contra h
    obtain ⟨hlt, hlow, -⟩ := hcoeff i h
    rw [stream._algorithm.natDegree_modulus, regBits_bits] at hi
    omega

/-- A burst of two bits across a byte boundary. -/
theorem check_burst_ccitt :
    ((newDefault ccitt).check
      (([0x31, 0x38, 0x7D] : List Byte).zipWith (· ^^^ ·) [0x01, 0x80, 0x00])).1 = false := by
  have hcheck : ((newDefault ccitt).check [0x31, 0x38, 0x7D]).1 = true :=
    (check_eq_addBits .native (newDefault ccitt) _).trans (by decide +kernel)
  refine check_burst .native .uint16_t (newDefault ccitt) [0x31, 0x38, 0x7D] [0x01, 0x80, 0x00]
    rfl hcheck ⟨0x01, by decide, by decide⟩ 7 ?_
  intro i hi
  obtain ⟨hlt, -⟩ := List.getElem?_eq_some_iff.mp hi
  rw [length_bytesBits] at hlt
  have hset : ∀ i < 24, (native.bytesBits [0x01, 0x80, 0x00])[i]? = some true →
      7 ≤ i ∧ i < 23 := by decide
  exact hset i hlt hi

end CRCStream

end CrcPP
