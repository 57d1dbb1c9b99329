import CrcPP.AnyWidth
import CrcPP.Burst
import CrcPP.Superposition
import Mathlib.Data.Set.Card
import Mathlib.Data.Fintype.BigOperators

/-!
# CrcPP.Detection

**Which errors are missed.** Whether `check` accepts a corrupted sequence depends on the
error alone: it does when `X^n + generator` divides the error, which is when a stream with
preset and inversion 0 accepts it (`check_xor_iff`). Neither the message nor the preset nor
the inversion makes a CRC better or worse.

From there single kinds of errors are questions about the generator. Of the errors within
`n + 1` positions only the generator itself is missed (`check_window_iff`), and two wrong
bits are missed when their distance takes the register 1 back to itself
(`check_two_bits_iff`).
-/

namespace CrcPP

open Polynomial BitPoly BitOrder

variable {T : DataType}

namespace BitOrder

theorem bitsPoly_append (xs ys : List Bool) :
    bitsPoly (xs ++ ys) = bitsPoly xs * X ^ ys.length + bitsPoly ys := by
  induction ys using List.reverseRecOn with
  | nil => rw [List.append_nil, List.length_nil, pow_zero, mul_one]; exact (add_zero _).symm
  | append_singleton ys y ih =>
      rw [← List.append_assoc, bitsPoly_concat, bitsPoly_concat, ih, List.length_append,
        List.length_singleton, pow_succ]
      ring

theorem bitsPoly_cons (b : Bool) (bs : List Bool) :
    bitsPoly (b :: bs) = C (bit b) * X ^ bs.length + bitsPoly bs := by
  have hsingle : bitsPoly [b] = C (bit b) := by
    have h := bitsPoly_concat [] b
    rwa [show bitsPoly [] = 0 from rfl, mul_zero, zero_add] at h
  rw [← List.singleton_append, bitsPoly_append, hsingle]

/-- Bit sequences of one length are told apart by their polynomials. -/
theorem bitsPoly_inj {xs ys : List Bool} (hlen : xs.length = ys.length) :
    bitsPoly xs = bitsPoly ys ↔ xs = ys := by
  constructor
  · intro h
    refine List.reverse_injective (List.ext_getElem (by simpa using hlen) fun i hi hi' => ?_)
    have hcoeff := congrArg (fun p => p.coeff i) h
    simp only [coeff_bitsPoly, List.getD_eq_getElem?_getD, List.getElem?_eq_getElem hi,
      List.getElem?_eq_getElem hi', Option.getD_some] at hcoeff
    exact bit_injective hcoeff
  · rintro rfl
    rfl

/-- Zeros behind bits move their polynomial up; those in front do nothing. -/
theorem bitsPoly_between (before after : Nat) (bits : List Bool) :
    bitsPoly (List.replicate before false ++ bits ++ List.replicate after false) =
      bitsPoly bits * X ^ after := by
  rw [bitsPoly_append, bitsPoly_append, bitsPoly_replicate_false, bitsPoly_replicate_false,
    zero_mul, zero_add, add_zero, List.length_replicate]

/-- The bits of `X^n + generator`. -/
def divisorBits (o : BitOrder) (T : DataType) (generator : T.Val) : List Bool :=
  true :: o.polyBits T.bits generator

theorem bitsPoly_divisorBits (o : BitOrder) (c : CRC (o.polyType T T.bits)) :
    bitsPoly (o.divisorBits T c._generator) = c.modulus := by
  rw [divisorBits, bitsPoly_cons, length_polyBits, bitsPoly_polyBits, bit_true, C_1, one_mul,
    CRC.modulus_eq, regBits_bits]

/-- The bits that are those of the modulus between zeros. -/
theorem bitsPoly_eq_modulus_mul_iff (o : BitOrder) (c : CRC (o.polyType T T.bits))
    (bits : List Bool) :
    (∃ k, bitsPoly bits = c.modulus * X ^ k) ↔
      ∃ before after, bits = List.replicate before false ++ o.divisorBits T c._generator ++
        List.replicate after false := by
  constructor
  · rintro ⟨k, hk⟩
    -- the highest coefficient is one of the bits
    have htop : k + T.bits < bits.length := by
      have hmonic := c.monic_modulus.coeff_natDegree
      rw [c.natDegree_modulus, regBits_bits] at hmonic
      refine (getElem?_of_coeff_bitsPoly (i := k + T.bits) ?_).1
      rw [hk, Nat.add_comm, coeff_mul_X_pow, hmonic]
      exact one_ne_zero
    refine ⟨bits.length - (T.bits + 1) - k, k, (bitsPoly_inj ?_).mp ?_⟩
    · rw [List.length_append, List.length_append, List.length_replicate, List.length_replicate,
        divisorBits, List.length_cons, length_polyBits]
      omega
    · rw [bitsPoly_between, bitsPoly_divisorBits, hk]
  · rintro ⟨before, after, rfl⟩
    exact ⟨after, by rw [bitsPoly_between, bitsPoly_divisorBits]⟩

/-- The polynomial of two bits. -/
theorem bitsPoly_of_pair {bits : List Bool} {i j : Nat} (hij : i < j) (hj : j < bits.length)
    (h : ∀ k, bits[k]? = some true ↔ k = i ∨ k = j) :
    bitsPoly bits = (X ^ (j - i) + 1) * X ^ (bits.length - 1 - j) := by
  ext k
  rw [coeff_bitsPoly, List.getD_eq_getElem?_getD, add_mul, one_mul, ← pow_add, coeff_add,
    coeff_X_pow, coeff_X_pow]
  rcases Nat.lt_or_ge k bits.length with hk | hk
  · rw [List.getElem?_reverse hk]
    have hset := h (bits.length - 1 - k)
    cases hbit : bits[bits.length - 1 - k]? with
    | none => exact absurd (List.getElem?_eq_none_iff.mp hbit) (by omega)
    | some b =>
        rw [hbit, Option.some_inj] at hset
        rw [Option.getD_some]
        cases b with
        | true =>
            obtain hk' | hk' := hset.mp rfl
            · rw [if_pos (by omega), if_neg (by omega), add_zero, bit_true]
            · rw [if_neg (by omega), if_pos (by omega), zero_add, bit_true]
        | false =>
            have hno : ¬ (bits.length - 1 - k = i ∨ bits.length - 1 - k = j) :=
              fun hk' => Bool.false_ne_true (hset.mpr hk')
            rw [if_neg (by omega), if_neg (by omega), add_zero, bit_false]
  · rw [List.getElem?_eq_none (by simpa using hk), if_neg (by omega), if_neg (by omega), add_zero]
    rfl

end BitOrder

namespace CRCStream

variable {o : BitOrder}

/-- A stream with preset and inversion 0 accepts the multiples of the modulus. -/
theorem check_zero_iff_dvd (c : CRC (o.polyType T T.bits)) (e : List Byte) :
    ((new c 0 0).check e).1 = true ↔ c.modulus ∣ bitsPoly (o.bytesBits e) := by
  -- zeros are accepted
  have hregister : ((new c 0 0).process (List.replicate e.length 0))._crc =
      (new c 0 0)._algorithm.addPoly (new c 0 0)._invert 0 := by
    have hword := CRC.toPoly_addPoly_eq (o.admits_bits T) (fits_bits o c._generator) 0
      (fits_bits o 0)
    rw [toPoly_zero, add_zero, zero_mul, zero_modByMonic] at hword
    refine toPoly_injective o T ?_
    rw [toPoly_process_crc, bytesBits_replicate_zero, bitsPoly_replicate_false, zero_mul, add_zero,
      show (new c 0 0)._preset = 0 from rfl, toPoly_zero, zero_mul, zero_modByMonic]
    exact hword.symm
  have h := check_xor_iff_dvd (new c 0 0) (List.length_replicate (a := (0 : Byte))).symm
    (beq_iff_eq.mpr hregister)
  rwa [zipWith_zeros] at h

/-- **Which errors are missed.** Whether an error in an accepted sequence is missed depends
on the error and the generator only: it is when the stream with preset and inversion 0
accepts the error itself. -/
theorem check_xor_iff (stream : CRCStream (o.polyType T T.bits)) (c e : List Byte)
    (hlen : e.length = c.length) (hc : (stream.check c).1 = true) :
    (stream.check (c.zipWith (· ^^^ ·) e)).1 = true ↔
      ((new stream._algorithm 0 0).check e).1 = true := by
  rw [check_xor_iff_dvd stream hlen hc, check_zero_iff_dvd]

/-- CCITT-16 with its default preset misses an error if it does without preset and
inversion. -/
theorem check_xor_iff_ccitt :
    ((newDefault ccitt).check
        (([0x31, 0x38, 0x7D] : List Byte).zipWith (· ^^^ ·) [0x11, 0x02, 0x10])).1 = true ↔
      ((new ccitt 0 0).check [0x11, 0x02, 0x10]).1 = true :=
  check_xor_iff (o := native) (newDefault ccitt) [0x31, 0x38, 0x7D] [0x11, 0x02, 0x10] rfl
    ((check_eq_addBits .native (newDefault ccitt) _).trans (by decide +kernel))

/-! ### Errors within `n + 1` positions -/

/-- **Bursts of one position more.** Of the errors within `n + 1` consecutive positions only
one is missed, whatever the message, the preset and the inversion: the one whose bits are
those of `X^n + generator`. -/
theorem check_window_iff (stream : CRCStream (o.polyType T T.bits)) (c e : List Byte)
    (hlen : e.length = c.length) (hc : (stream.check c).1 = true) (hne : ∃ b ∈ e, b ≠ 0)
    (start : Nat)
    (hwindow : ∀ i, (o.bytesBits e)[i]? = some true → start ≤ i ∧ i ≤ start + T.bits) :
    (stream.check (c.zipWith (· ^^^ ·) e)).1 = true ↔
      ∃ before after, o.bytesBits e = List.replicate before false ++
        o.divisorBits T stream._algorithm._generator ++ List.replicate after false := by
  have hcoeff : ∀ i, (bitsPoly (o.bytesBits e)).coeff i ≠ 0 →
      i < (o.bytesBits e).length ∧ start ≤ (o.bytesBits e).length - 1 - i ∧
        (o.bytesBits e).length - 1 - i ≤ start + T.bits := by
    intro i hi
    obtain ⟨hlt, hset⟩ := getElem?_of_coeff_bitsPoly hi
    exact ⟨hlt, hwindow _ hset⟩
  have hiff := SerialDivision.dvd_iff_of_window
    (k := (o.bytesBits e).length - (start + T.bits + 1)) (p := bitsPoly (o.bytesBits e))
    stream._algorithm.monic_modulus (isUnit_coeff_zero_modulus o stream._algorithm)
    (fun i hi => by
      by_contra h
      obtain ⟨hlt, -, hhigh⟩ := hcoeff i h
      omega)
    (fun i hi => by
      by_contra h
      obtain ⟨hlt, hlow, -⟩ := hcoeff i h
      rw [stream._algorithm.natDegree_modulus, regBits_bits] at hi
      omega)
  rw [check_xor_iff_dvd stream hlen hc, ← bitsPoly_eq_modulus_mul_iff]
  constructor
  · intro hdvd
    obtain ⟨a, ha⟩ := hiff.mp hdvd
    -- the error is not zero, so the quotient is 1
    have hcases : ∀ a : ZMod 2, a ≠ 0 → a = 1 := by decide
    have ha1 : a = 1 := by
      refine hcases a ?_
      rintro rfl
      rw [C_0, zero_mul, zero_mul] at ha
      exact bitsPoly_ne_zero (o.true_mem_bytesBits hne) ha
    rw [ha1, C_1, one_mul] at ha
    exact ⟨_, ha⟩
  · rintro ⟨k, hk⟩
    rw [hk]
    exact dvd_mul_right _ _

/-- CCITT-16 misses its own generator, from the first bit on. -/
theorem check_window_ccitt :
    ((newDefault ccitt).check
      (([0x31, 0x38, 0x7D] : List Byte).zipWith (· ^^^ ·) [0x88, 0x10, 0x80])).1 = true := by
  have hcheck : ((newDefault ccitt).check [0x31, 0x38, 0x7D]).1 = true :=
    (check_eq_addBits .native (newDefault ccitt) _).trans (by decide +kernel)
  refine (check_window_iff (o := native) (newDefault ccitt) [0x31, 0x38, 0x7D] [0x88, 0x10, 0x80]
    rfl hcheck ⟨0x88, by decide, by decide⟩ 0 ?_).mpr ⟨0, 7, by decide⟩
  intro i hi
  obtain ⟨hlt, -⟩ := List.getElem?_eq_some_iff.mp hi
  rw [length_bytesBits] at hlt
  have hset : ∀ i < 24, (native.bytesBits [0x88, 0x10, 0x80])[i]? = some true →
      0 ≤ i ∧ i ≤ 0 + 16 := by decide
  exact hset i hlt hi

/-! ### Two wrong bits -/

end CRCStream

/-- The register that represents the polynomial 1. -/
def BitOrder.unit (o : BitOrder) (T : DataType) : T.Val :=
  match o with
  | native => 1
  | network => 1 <<< (T.bits - 1)

theorem toPoly_unit (o : BitOrder) (T : DataType) : o.toPoly T.bits (o.unit T) = 1 := by
  have hpos : 0 < T.bits := Nat.lt_of_lt_of_le (by decide) T.eight_le_bits
  have hbit : ∀ k < T.bits, o.coeff T.bits (o.unit T) k = decide (k = 0) := by
    cases T <;> cases o <;> decide
  ext k
  rw [toPoly, coeff_ofBits, coeff_one]
  by_cases hk : k < T.bits
  · rw [if_pos hk, hbit k hk]
    by_cases h0 : k = 0
    · simp [h0]
    · simp [h0]
  · rw [if_neg hk, if_neg (by omega)]

namespace CRCStream

variable {o : BitOrder}

/-- **Two wrong bits** in an accepted sequence are missed exactly when as many zero bits as
lie between their positions take the register 1 back to itself. So it is their distance
that counts, not where they are. -/
theorem check_two_bits_iff (stream : CRCStream (o.polyType T T.bits)) (c e : List Byte)
    (hlen : e.length = c.length) (hc : (stream.check c).1 = true) {i j : Nat} (hij : i < j)
    (hj : j < 8 * e.length) (he : ∀ k, (o.bytesBits e)[k]? = some true ↔ k = i ∨ k = j) :
    (stream.check (c.zipWith (· ^^^ ·) e)).1 = true ↔
      (stream._algorithm.addbit 0)^[j - i] (o.unit T) = o.unit T := by
  let M := stream._algorithm.divisor
  have hM : M.Monic := stream._algorithm.monic_divisor
  have hmodulus : stream._algorithm.modulus = M := by
    rw [CRC.modulus_eq, regBits_bits]
    rfl
  have hone : (1 : (ZMod 2)[X]).degree < M.degree := by
    rw [← toPoly_unit o T]
    exact stream._algorithm.degree_toPoly_lt_divisor _
  -- the register 1, moved up by the distance
  have hiterate := CRC.toPoly_iterate_addbit_zero (o.admits_bits T)
    (fits_bits o stream._algorithm._generator) (j - i) (fits_bits o (o.unit T))
  rw [toPoly_unit, one_mul] at hiterate
  rw [check_xor_iff_dvd stream hlen hc, hmodulus,
    bitsPoly_of_pair hij (by rwa [length_bytesBits]) he,
    SerialDivision.dvd_mul_X_pow_iff (CRC.isUnit_coeff_zero_divisor (o.admits_bits T) _),
    ← (toPoly_injective o T).eq_iff, toPoly_unit, hiterate, ← modByMonic_eq_zero_iff_dvd hM,
    add_modByMonic, (modByMonic_eq_self_iff hM).mpr hone]
  constructor
  · intro h
    linear_combination h - BitPoly.add_self 1
  · intro h
    rw [h]
    exact BitPoly.add_self 1

/-- `X^8 + X^2 + X + 1` misses two wrong bits at distance 127, the first and the last of
16 bytes. -/
theorem check_two_bits_crc8 :
    ((new (CRC.ofGenerator (Poly .uint8_t 8) 0x07 (by decide)) 0 0).check
      ((List.replicate 16 (0 : Byte)).zipWith (· ^^^ ·)
        (0x80 :: (List.replicate 14 (0 : Byte) ++ [0x01])))).1 = true := by
  let stream := new (CRC.ofGenerator (Poly .uint8_t 8) 0x07 (by decide)) 0 0
  have hcheck : (stream.check (List.replicate 16 0)).1 = true :=
    (check_eq_addBits .native stream _).trans (by decide +kernel)
  refine (check_two_bits_iff (o := native) stream (List.replicate 16 0)
    (0x80 :: (List.replicate 14 (0 : Byte) ++ [0x01])) rfl hcheck (i := 0) (j := 127)
    (by decide) (by decide) ?_).mpr (by decide +kernel)
  have hset : ∀ k < 128, (native.bytesBits (0x80 :: (List.replicate 14 (0 : Byte) ++ [0x01])))[k]? =
      some true ↔ k = 0 ∨ k = 127 := by decide +kernel
  intro k
  rcases Nat.lt_or_ge k 128 with hk | hk
  · exact hset k hk
  · rw [List.getElem?_eq_none hk]
    simp
    omega

/-! ### How many errors are missed -/

theorem ncard_length_eq (k : Nat) : {bs : List Byte | bs.length = k}.ncard = 256 ^ k := by
  have : Fintype Byte := Fintype.ofEquiv _ (BitVec.equivFin (m := 8)).symm.toEquiv
  have hbytes : Fintype.card Byte = 256 :=
    (Fintype.card_congr (BitVec.equivFin (m := 8)).toEquiv).trans (Fintype.card_fin _)
  rw [← hbytes, ← card_vector, ← Nat.card_eq_fintype_card]
  rfl

/-- A message and one filling of the bytes behind it. -/
theorem ncard_check (stream : CRCStream (o.polyType T T.bits)) {k : Nat} (hk : T.sizeof ≤ k) :
    {s : List Byte | s.length = k ∧ (stream.check s).1 = true}.ncard = 256 ^ (k - T.sizeof) := by
  have hpatch : ∀ m : List Byte, ∃! p : List Byte,
      p.length = T.sizeof ∧ (stream.check (m ++ p)).1 = true := by
    intro m
    have h := existsUnique_check o T stream m []
    simpa only [List.append_nil] using h
  choose patch hpatch hunique using hpatch
  rw [← ncard_length_eq]
  symm
  refine Set.ncard_congr (fun m _ => m ++ patch m) ?_ ?_ ?_
  · intro m hm
    refine ⟨?_, (hpatch m).2⟩
    rw [List.length_append, (hpatch m).1, show m.length = k - T.sizeof from hm]
    omega
  · intro m m' hm hm' h
    exact (List.append_inj h (Eq.trans hm (Eq.symm hm'))).1
  · rintro s ⟨hlen, hs⟩
    have hsplit := List.take_append_drop (k - T.sizeof) s
    refine ⟨s.take (k - T.sizeof), ?_, ?_⟩
    · change (s.take (k - T.sizeof)).length = k - T.sizeof
      rw [List.length_take]
      omega
    · rw [← hunique (s.take (k - T.sizeof)) (s.drop (k - T.sizeof)) ⟨?_, ?_⟩, hsplit]
      · rw [List.length_drop]
        omega
      · rwa [hsplit]

/-- A sequence that is shorter than the CRC is no multiple of the modulus. -/
theorem dvd_bytesBits_iff_of_lt (c : CRC (o.polyType T T.bits)) {e : List Byte}
    (hlt : e.length < T.sizeof) :
    c.modulus ∣ bitsPoly (o.bytesBits e) ↔ e = List.replicate e.length 0 := by
  constructor
  · intro hdvd
    refine List.eq_replicate_iff.mpr ⟨rfl, ?_⟩
    by_contra! hne
    refine SerialDivision.not_dvd_of_burst (k := 0) c.monic_modulus (isUnit_coeff_zero_modulus o c)
      (bitsPoly_ne_zero (o.true_mem_bytesBits hne)) (by simp) ?_ hdvd
    intro i hi
    by_contra hcoeff
    obtain ⟨hbound, -⟩ := getElem?_of_coeff_bitsPoly hcoeff
    rw [length_bytesBits] at hbound
    rw [c.natDegree_modulus, regBits_bits, T.bits_eq] at hi
    omega
  · intro he
    rw [he, bytesBits_replicate_zero, bitsPoly_replicate_false]
    exact dvd_zero _

/-- **One in `2^n` errors is missed.** Of the errors in an accepted sequence that is at least
as long as the CRC, `2^n` times fewer are missed than there are, and no error is missed in a
shorter one. The one that changes nothing is among them. -/
theorem ncard_missed (stream : CRCStream (o.polyType T T.bits)) (c : List Byte)
    (hc : (stream.check c).1 = true) :
    {e : List Byte | e.length = c.length ∧
      (stream.check (c.zipWith (· ^^^ ·) e)).1 = true}.ncard = 256 ^ (c.length - T.sizeof) := by
  have hmissed : {e : List Byte | e.length = c.length ∧
      (stream.check (c.zipWith (· ^^^ ·) e)).1 = true} = {e : List Byte | e.length = c.length ∧
        ((new stream._algorithm 0 0).check e).1 = true} := by
    ext e
    refine and_congr_right fun hlen => ?_
    rw [check_xor_iff_dvd stream hlen hc, check_zero_iff_dvd]
  rw [hmissed]
  rcases Nat.lt_or_ge c.length T.sizeof with hlt | hge
  · have hzeros : {e : List Byte | e.length = c.length ∧
        ((new stream._algorithm 0 0).check e).1 = true} = {List.replicate c.length 0} := by
      ext e
      rw [Set.mem_ofPred_eq, Set.mem_singleton_iff, check_zero_iff_dvd]
      constructor
      · rintro ⟨hlen, hdvd⟩
        rw [← hlen]
        exact (dvd_bytesBits_iff_of_lt _ (hlen.trans_lt hlt)).mp hdvd
      · rintro rfl
        have hlen : (List.replicate c.length (0 : Byte)).length = c.length := List.length_replicate
        refine ⟨hlen, (dvd_bytesBits_iff_of_lt _ (hlen.trans_lt hlt)).mpr ?_⟩
        rw [hlen]
    rw [hzeros, Set.ncard_singleton, Nat.sub_eq_zero_of_le hlt.le, pow_zero]
  · exact ncard_check _ hge

/-- Of the errors in three bytes that CCITT-16 protects, 256 are missed. -/
theorem ncard_missed_ccitt :
    {e : List Byte | e.length = 3 ∧ ((newDefault ccitt).check
      (([0x31, 0x38, 0x7D] : List Byte).zipWith (· ^^^ ·) e)).1 = true}.ncard = 256 ^ (3 - 2) :=
  ncard_missed (o := native) (newDefault ccitt) [0x31, 0x38, 0x7D]
    ((check_eq_addBits .native (newDefault ccitt) _).trans (by decide +kernel))

end CRCStream

end CrcPP
