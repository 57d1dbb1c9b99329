import CrcPP.Bits

/-!
# CrcPP.AddBit

**Which bits of its argument `addBit` uses.** The argument is documented as "Only
the lowest bit is used", but the feedback decision tests the whole byte
`bit ^ hibit()`, so an argument with one of its upper bits set always adds the
generator.

A run of `addBit` calls is determined by the branches it takes: the register
afterwards is the initial one shifted up, plus the generator shifted up once for
every call after each branch that added it (`addbits_eq`). Two runs end in the
same register exactly when every call that took different branches in them has
been shifted out since (`spread_eq_zero_iff`): of the generators that are still
there, the one added last has the lowest term, and nothing cancels it.
-/

namespace CrcPP

variable {T : DataType}

/-! ### Terms of a value -/

namespace BitOrder

/-- The value has a term below `X^r`. -/
def Below (o : BitOrder) (r : Nat) (v : T.Val) : Prop :=
  ∃ k < r, k < T.bits ∧ o.coeff T.bits v k = true

variable {o : BitOrder} {n r : Nat} {v w : T.Val}

theorem coeff_shift (o : BitOrder) (n : Nat) (v : T.Val) (m : Nat) {k : Nat}
    (hk : k < T.bits) :
    o.coeff T.bits ((o.polyType T n).shift v m) k =
      (decide (m ≤ k) && o.coeff T.bits v (k - m)) := by
  cases o with
  | native =>
      simp only [polyType, coeff, getLsbD_Poly_shift, decide_eq_true hk, Bool.true_and]
      by_cases hm : m ≤ k
      · rw [decide_eq_true hm, decide_eq_false (Nat.not_lt.mpr hm), Bool.not_false]
      · rw [decide_eq_false hm, decide_eq_true (Nat.not_le.mp hm), Bool.not_true]
  | network =>
      simp only [polyType, coeff, getLsbD_PolyN_shift]
      by_cases hm : m ≤ k
      · rw [decide_eq_true hm, Bool.true_and, show m + (T.bits - 1 - k) = T.bits - 1 - (k - m) by
          omega]
      · rw [decide_eq_false hm, Bool.false_and]
        exact BitVec.getLsbD_of_ge v _ (by omega)

theorem exists_coeff_of_ne_zero (o : BitOrder) (h : v ≠ 0) :
    ∃ k < T.bits, o.coeff T.bits v k = true := by
  by_contra hnone
  refine h (o.eq_of_coeff fun k hk => ?_)
  have hzero : o.coeff T.bits (0 : T.Val) k = false := by
    cases o <;> exact getLsbD_zero_val _
  rw [hzero]
  exact Bool.eq_false_iff.mpr fun hc => hnone ⟨k, hk, hc⟩

theorem Below.mono {r' : Nat} (h : o.Below r v) (hr : r ≤ r') : o.Below r' v := by
  obtain ⟨k, hk, hkT, hc⟩ := h
  exact ⟨k, Nat.lt_of_lt_of_le hk hr, hkT, hc⟩

theorem Below.xor (h : o.Below r v) (h' : ¬ o.Below r w) : o.Below r (w ^^^ v) := by
  obtain ⟨k, hk, hkT, hc⟩ := h
  have hw : o.coeff T.bits w k = false :=
    Bool.eq_false_iff.mpr fun hcw => h' ⟨k, hk, hkT, hcw⟩
  refine ⟨k, hk, hkT, ?_⟩
  rw [coeff_xor, hc, hw]
  rfl

/-- Shifting up moves the lowest term up. -/
theorem not_below_shift (h : ¬ o.Below r v) (m : Nat) :
    ¬ o.Below (r + m) ((o.polyType T n).shift v m) := by
  rintro ⟨k, hk, hkT, hc⟩
  rw [coeff_shift o n v m hkT, Bool.and_eq_true, decide_eq_true_eq] at hc
  exact h ⟨k - m, by omega, by omega, hc.2⟩

/-- The lowest term of what is not shifted out yet. -/
theorem below_shift (hc : o.coeff T.bits v r = true) (hlow : ¬ o.Below r v)
    {m : Nat} (h : (o.polyType T n).shift v m ≠ 0) :
    o.Below (r + m + 1) ((o.polyType T n).shift v m) := by
  obtain ⟨k, hkT, hk⟩ := exists_coeff_of_ne_zero o h
  have hkr : r + m ≤ k := by
    by_contra hlt
    exact not_below_shift hlow m ⟨k, by omega, hkT, hk⟩
  refine ⟨r + m, by omega, by omega, ?_⟩
  rw [coeff_shift o n v m (by omega), decide_eq_true (by omega), Nat.add_sub_cancel, hc]
  rfl

/-- A nonzero value has a lowest term. -/
theorem exists_lowest (o : BitOrder) (h : v ≠ 0) :
    ∃ r, o.coeff T.bits v r = true ∧ ¬ o.Below r v := by
  obtain ⟨k, hkT, hk⟩ := exists_coeff_of_ne_zero o h
  have hex : ∃ k, k < T.bits ∧ o.coeff T.bits v k = true := ⟨k, hkT, hk⟩
  refine ⟨Nat.find hex, (Nat.find_spec hex).2, ?_⟩
  rintro ⟨j, hj, hjT, hc⟩
  exact Nat.find_min hex hj ⟨hjT, hc⟩

end BitOrder

/-! ### Runs of `addbit` -/

namespace CRC

variable {P : PolyType T}

/-- The test of `addbit`: whether it adds the generator. -/
def feedback (P : PolyType T) (bit : Byte) (reg : T.Val) : Bool := bit ^^^ P.hibit reg != 0

/-- One call after the other. -/
def addbits (c : CRC P) : List Byte → T.Val → T.Val
  | [], reg => reg
  | bit :: rest, reg => c.addbits rest (c.addbit bit reg)

/-- The branches these calls take. -/
def branches (c : CRC P) : List Byte → T.Val → List Bool
  | [], _ => []
  | bit :: rest, reg => feedback P bit reg :: c.branches rest (c.addbit bit reg)

/-- What the generators added at the marked calls leave in the register. -/
def spread (P : PolyType T) (generator : T.Val) : List Bool → T.Val
  | [] => 0
  | added :: rest =>
    (if added then P.shift generator rest.length else 0) ^^^ spread P generator rest

@[simp] theorem length_branches (c : CRC P) (bs : List Byte) (reg : T.Val) :
    (c.branches bs reg).length = bs.length := by
  induction bs generalizing reg with
  | nil => rfl
  | cons b bs ih => rw [branches, List.length_cons, ih, List.length_cons]

theorem addbit_eq (c : CRC P) (bit : Byte) (reg : T.Val) :
    c.addbit bit reg =
      P.shift reg 1 ^^^ (if feedback P bit reg then c._generator else 0) := by
  rw [addbit, feedback]
  by_cases h : bit ^^^ P.hibit reg = 0
  · rw [if_neg (not_not_intro h), h]
    exact BitVec.xor_zero.symm
  · rw [if_pos h, if_pos (bne_iff_ne.mpr h)]

/-- An accepted generator is not zero. -/
theorem generator_ne_zero {o : BitOrder} {n : Nat} (hn : o.Admits T n)
    (c : CRC (o.polyType T n)) : c._generator ≠ 0 := by
  intro h
  apply c.lobit_generator
  rw [lobit_eq hn, h, uint8OfBool_eq_zero]
  cases o <;> exact getLsbD_zero_val _

/-- The register after a run, from the branches it takes. -/
theorem addbits_eq (hP : P.Lawful) (c : CRC P) (bs : List Byte) (reg : T.Val) :
    c.addbits bs reg =
      P.shift reg bs.length ^^^ spread P c._generator (c.branches bs reg) := by
  induction bs generalizing reg with
  | nil =>
      rw [addbits, branches, spread, List.length_nil, hP.shift_zero]
      exact BitVec.xor_zero.symm
  | cons b bs ih =>
      rw [addbits, ih, branches, spread, length_branches, c.addbit_eq, hP.shift_xor,
        hP.shift_shift, List.length_cons, Nat.add_comm bs.length 1, ← BitVec.xor_assoc]
      congr 2
      cases feedback P b reg
      · exact hP.shift_zero_val bs.length
      · rfl

theorem spread_zipWith_xor (generator : T.Val) (xs ys : List Bool)
    (h : xs.length = ys.length) :
    spread P generator (xs.zipWith (· ^^ ·) ys) =
      spread P generator xs ^^^ spread P generator ys := by
  induction xs generalizing ys with
  | nil =>
      obtain rfl : ys = [] := List.length_eq_zero_iff.mp h.symm
      exact BitVec.xor_self.symm
  | cons x xs ih =>
      cases ys with
      | nil => simp at h
      | cons y ys =>
          have hlen : xs.length = ys.length := by simpa using h
          rw [List.zipWith_cons_cons, spread, spread, spread, ih ys hlen, List.length_zipWith, hlen,
            Nat.min_self]
          have hhead : (if (x ^^ y) = true then P.shift generator ys.length else 0) =
              (if x = true then P.shift generator ys.length else 0) ^^^
                (if y = true then P.shift generator ys.length else 0) := by
            cases x <;> cases y <;> simp
          rw [hhead]
          ac_rfl

variable {o : BitOrder} {n : Nat}

/-- Of the generators that are still there, the one added last has the lowest
term. -/
theorem below_spread {generator : T.Val} {r : Nat} (hc : o.coeff T.bits generator r = true)
    (hlow : ¬ o.Below r generator) (fs : List Bool)
    (h : spread (o.polyType T n) generator fs ≠ 0) :
    o.Below (r + fs.length) (spread (o.polyType T n) generator fs) := by
  induction fs with
  | nil => exact absurd rfl h
  | cons f fs ih =>
      rw [spread] at h ⊢
      rw [List.length_cons]
      cases f with
      | false =>
          have hrest : (if false = true then (o.polyType T n).shift generator fs.length else 0) ^^^
              spread (o.polyType T n) generator fs = spread (o.polyType T n) generator fs :=
            BitVec.zero_xor
          rw [hrest] at h ⊢
          exact (ih h).mono (by omega)
      | true =>
          rw [if_pos rfl] at h ⊢
          by_cases hrest : spread (o.polyType T n) generator fs = 0
          · have hhead : (o.polyType T n).shift generator fs.length ^^^
                spread (o.polyType T n) generator fs =
                  (o.polyType T n).shift generator fs.length := by
              rw [hrest]
              exact BitVec.xor_zero
            rw [hhead] at h ⊢
            exact BitOrder.below_shift hc hlow h
          · exact ((ih hrest).xor (BitOrder.not_below_shift hlow fs.length)).mono (by omega)

/-- Nothing is left exactly when every generator added is shifted out. -/
theorem spread_eq_zero_iff {generator : T.Val} (hg : generator ≠ 0) (fs : List Bool) :
    spread (o.polyType T n) generator fs = 0 ↔
      ∀ j, fs[j]? = some true →
        (o.polyType T n).shift generator (fs.length - 1 - j) = 0 := by
  obtain ⟨r, hc, hlow⟩ := BitOrder.exists_lowest o hg
  induction fs with
  | nil => simp [spread]
  | cons f fs ih =>
      have hsplit : spread (o.polyType T n) generator (f :: fs) = 0 ↔
          (f = true → (o.polyType T n).shift generator fs.length = 0) ∧
            spread (o.polyType T n) generator fs = 0 := by
        rw [spread, xor_eq_zero_iff]
        cases f with
        | false =>
            rw [if_neg Bool.false_ne_true]
            exact ⟨fun h => ⟨fun hf => absurd hf Bool.false_ne_true, h.symm⟩, fun h => h.2.symm⟩
        | true =>
            rw [if_pos rfl]
            constructor
            · intro h
              by_cases hrest : spread (o.polyType T n) generator fs = 0
              · exact ⟨fun _ => h.trans hrest, hrest⟩
              · have hbelow := below_spread hc hlow fs hrest
                rw [← h] at hbelow
                exact absurd hbelow (BitOrder.not_below_shift hlow fs.length)
            · rintro ⟨h, hrest⟩
              rw [h rfl, hrest]
      rw [hsplit, ih]
      constructor
      · rintro ⟨hhead, htail⟩ j hj
        cases j with
        | zero =>
            rw [List.getElem?_cons_zero] at hj
            exact hhead (Option.some.inj hj)
        | succ j =>
            have := htail j hj
            rwa [List.length_cons, show fs.length + 1 - 1 - (j + 1) = fs.length - 1 - j by omega]
      · intro h
        refine ⟨fun hf => h 0 (by rw [List.getElem?_cons_zero, hf]), fun j hj => ?_⟩
        have := h (j + 1) hj
        rwa [List.length_cons, show fs.length + 1 - 1 - (j + 1) = fs.length - 1 - j by omega]
          at this

theorem getElem?_branches (c : CRC P) (bs : List Byte) (reg : T.Val) (j : Nat) :
    (c.branches bs reg)[j]? =
      bs[j]?.map fun b => feedback P b (c.addbits (bs.take j) reg) := by
  induction bs generalizing reg j with
  | nil => rfl
  | cons b bs ih =>
      cases j with
      | zero => rfl
      | succ j => exact ih (c.addbit b reg) j

/-- Two runs of one length end in the same register exactly when every call that
took different branches in them is shifted out. -/
theorem addbits_eq_addbits_iff (hn : o.Admits T n) (c : CRC (o.polyType T n))
    {as bs : List Byte} (hlen : as.length = bs.length) (reg : T.Val) :
    c.addbits as reg = c.addbits bs reg ↔
      ∀ j, (o.polyType T n).shift c._generator (bs.length - 1 - j) = 0 ∨
        (c.branches as reg)[j]? = (c.branches bs reg)[j]? := by
  have hP := polyType_lawful hn
  have hbranches : (c.branches as reg).length = (c.branches bs reg).length := by
    rw [length_branches, length_branches, hlen]
  have hsum : c.addbits as reg ^^^ c.addbits bs reg =
      spread (o.polyType T n) c._generator
        ((c.branches as reg).zipWith (· ^^ ·) (c.branches bs reg)) := by
    rw [c.addbits_eq hP, c.addbits_eq hP, hlen, spread_zipWith_xor _ _ _ hbranches]
    calc _ = (o.polyType T n).shift reg bs.length ^^^ (o.polyType T n).shift reg bs.length ^^^
          (spread (o.polyType T n) c._generator (c.branches as reg) ^^^
            spread (o.polyType T n) c._generator (c.branches bs reg)) := by ac_rfl
      _ = _ := by rw [BitVec.xor_self, BitVec.zero_xor]
  rw [← xor_eq_zero_iff, hsum, spread_eq_zero_iff (c.generator_ne_zero hn), List.length_zipWith,
    hbranches, Nat.min_self, length_branches]
  refine forall_congr' fun j => ?_
  rw [List.getElem?_zipWith]
  rcases Nat.lt_or_ge j bs.length with hj | hj
  · obtain ⟨x, hx⟩ : ∃ x, (c.branches as reg)[j]? = some x :=
      ⟨_, List.getElem?_eq_getElem (by rwa [length_branches, hlen])⟩
    obtain ⟨y, hy⟩ : ∃ y, (c.branches bs reg)[j]? = some y :=
      ⟨_, List.getElem?_eq_getElem (by rwa [length_branches])⟩
    rw [hx, hy]
    cases x <;> cases y <;> simp
  · rw [List.getElem?_eq_none (by rwa [length_branches, hlen]),
      List.getElem?_eq_none (by rwa [length_branches])]
    simp

end CRC

/-! ### Runs of `addBit` -/

/-- Masking the argument changes the branch exactly when an upper bit is set and
the lowest bit is the one that leaves the register at the top. -/
theorem masked_feedback_iff {h : Byte} (hh : h = 0 ∨ h = 1) (b : Byte) :
    (b ^^^ h != 0) = ((b &&& 1) ^^^ h != 0) ↔ b ≤ 1 ∨ b &&& 1 ≠ h := by
  rcases hh with rfl | rfl
  · revert b
    decide +kernel
  · revert b
    decide +kernel

namespace CRCStream

variable {o : BitOrder} {n : Nat}

/-- Call `addBit` for one argument after the other. -/
def addBitRun {P : PolyType T} (s : CRCStream P) (bs : List Byte) : CRCStream P :=
  bs.foldl addBit s

theorem addBitRun_crc {P : PolyType T} (s : CRCStream P) (bs : List Byte) :
    (s.addBitRun bs)._crc = s._algorithm.addbits bs s._crc := by
  induction bs generalizing s with
  | nil => rfl
  | cons b bs ih => exact ih (s.addBit b)

/-- One call leaves the same register exactly when it takes the same branch. -/
theorem addBit_crc_eq_iff (hn : o.Admits T n) (s : CRCStream (o.polyType T n)) (b : Byte) :
    (s.addBit b)._crc = (s.addBit (b &&& 1))._crc ↔
      b ≤ 1 ∨ b &&& 1 ≠ (o.polyType T n).hibit s._crc := by
  have hP := polyType_lawful hn
  rw [← masked_feedback_iff (hP.hibit_cases s._crc) b]
  have h := s._algorithm.addbits_eq_addbits_iff hn
    (show [b].length = [b &&& 1].length from rfl) s._crc
  refine Iff.trans h ⟨fun hall => ?_, fun heq j => ?_⟩
  · rcases hall 0 with hzero | hbranch
    · rw [List.length_singleton, Nat.sub_zero, Nat.sub_self, hP.shift_zero] at hzero
      exact absurd hzero (s._algorithm.generator_ne_zero hn)
    · exact Option.some.inj hbranch
  · right
    cases j with
    | zero => exact congrArg some heq
    | succ j => rfl

/-- **The lowest bit of `addBit`'s argument.** A sequence of calls leaves the
register that the calls with the masked arguments leave exactly when every call
that takes another branch in the two runs is shifted out at the end. The
registers agree after each call exactly when every argument is 0 or 1, or has a
lowest bit that differs from the highest coefficient of the register before. -/
theorem addBitRun_masked_iff (hn : o.Admits T n) (s : CRCStream (o.polyType T n))
    (bs : List Byte) :
    ((s.addBitRun bs)._crc = (s.addBitRun (bs.map (· &&& 1)))._crc ↔
      ∀ j b, bs[j]? = some b →
        (o.polyType T n).shift s._algorithm._generator (bs.length - 1 - j) = 0 ∨
          (b ^^^ (o.polyType T n).hibit (s.addBitRun (bs.take j))._crc != 0) =
            ((b &&& 1) ^^^ (o.polyType T n).hibit
              (s.addBitRun ((bs.take j).map (· &&& 1)))._crc != 0)) ∧
    ((∀ j, (s.addBitRun (bs.take j))._crc =
        (s.addBitRun ((bs.take j).map (· &&& 1)))._crc) ↔
      ∀ j b, bs[j]? = some b → b ≤ 1 ∨
        b &&& 1 ≠ (o.polyType T n).hibit
          (s.addBitRun ((bs.take j).map (· &&& 1)))._crc) := by
  constructor
  · simp only [addBitRun_crc]
    rw [s._algorithm.addbits_eq_addbits_iff hn (List.length_map _).symm, List.length_map]
    refine forall_congr' fun j => ?_
    rw [CRC.getElem?_branches, CRC.getElem?_branches, List.getElem?_map]
    cases hj : bs[j]? with
    | none => simp
    | some b =>
        simp only [Option.map_some, Option.some.injEq, forall_eq', ← List.map_take, CRC.feedback]
  · induction bs generalizing s with
    | nil => simp
    | cons b bs ih =>
        constructor
        · intro hall
          have hfirst : (s.addBit b)._crc = (s.addBit (b &&& 1))._crc := hall 1
          have hstream : s.addBit b = s.addBit (b &&& 1) := by
            simpa only [addBit, CRCStream.mk.injEq, true_and, and_true] using hfirst
          have hrest := (ih (s.addBit (b &&& 1))).mp fun j => by
            have := hall (j + 1)
            rwa [List.take_succ_cons, List.map_cons, addBitRun, addBitRun, List.foldl_cons,
              List.foldl_cons, hstream] at this
          intro j a hj
          cases j with
          | zero =>
              rw [List.getElem?_cons_zero] at hj
              obtain rfl := Option.some.inj hj
              exact (addBit_crc_eq_iff hn s b).mp hfirst
          | succ j => exact hrest j a hj
        · intro hall
          have hfirst := (addBit_crc_eq_iff hn s b).mpr (hall 0 b rfl)
          have hstream : s.addBit b = s.addBit (b &&& 1) := by
            simpa only [addBit, CRCStream.mk.injEq, true_and, and_true] using hfirst
          have hrest := (ih (s.addBit (b &&& 1))).mpr fun j a hj => hall (j + 1) a hj
          intro j
          cases j with
          | zero => rfl
          | succ j =>
              have := hrest j
              rwa [List.take_succ_cons, List.map_cons, addBitRun, addBitRun, List.foldl_cons,
                List.foldl_cons, hstream]

/-- The argument 3 meets a register with nothing on top, and after three more calls the
argument 2 meets one whose highest coefficient is set. -/
theorem addBitRun_saved_ccitt :
    ((Poly .uint16_t 16).hibit ((new ccitt 0 0).addBitRun [3, 0, 0, 0])._crc = 1 ∧
      ((new ccitt 0 0).addBitRun [3, 0, 0, 0])._crc =
        ((new ccitt 0 0).addBitRun ([3, 0, 0, 0].map (· &&& 1)))._crc) ∧
    ((new ccitt 0 0).addBitRun [3, 0, 0, 0, 2])._crc =
      ((new ccitt 0 0).addBitRun ([3, 0, 0, 0, 2].map (· &&& 1)))._crc := by
  have hcond : ∀ j b, [(3 : Byte), 0, 0, 0, 2][j]? = some b → b ≤ 1 ∨
      b &&& 1 ≠ (Poly .uint16_t 16).hibit
        ((new ccitt 0 0).addBitRun (([3, 0, 0, 0, 2].take j).map (· &&& 1)))._crc := by
    intro j b hj
    have hlt : j < 5 := (List.getElem?_eq_some_iff.mp hj).1
    interval_cases j <;> obtain rfl := Option.some.inj hj <;> decide +kernel
  have hruns := (addBitRun_masked_iff (o := .native) (n := 16) (by decide) (new ccitt 0 0)
    [3, 0, 0, 0, 2]).2.mpr hcond
  exact ⟨⟨by decide +kernel, hruns 4⟩, hruns 5⟩

/-- The argument 2 feeds a set bit, though its lowest bit is clear. -/
theorem addBitRun_two_ccitt :
    ((new ccitt 0 0).addBitRun [2])._crc ≠
      ((new ccitt 0 0).addBitRun ([2].map (· &&& 1)))._crc := by
  decide +kernel

end CRCStream

end CrcPP
