import CrcPP.Convergence
import Mathlib.Data.BitVec
import Mathlib.Data.Fintype.EquivFin

/-!
# CrcPP.Superposition

**A stream is linear.** Run two streams of one algorithm through calls of the same form, and
a third one through calls that feed the sums of their data: the third register is the sum of
the first two, when its preset is (`run_sum`). Inversions add up in the same way, so this
goes for `crc()` too. Nothing is asked of the class but that its width is admitted: also the
bits that narrow native classes drag along are superposed.

Two consequences are about messages in pieces. The CRC of a concatenation is computed from
the CRCs of the two messages and the length of the second (`crc_process_append`). And in a
full-width class `sizeof(T)` bytes at any place of a message can be chosen, in one way only,
such that it gets the CRC that is wanted (`exists_unique_patch`).
-/

namespace CrcPP

open BitOrder

variable {T : DataType} {o : BitOrder} {n : Nat}

/-! ### Calls that feed a sum -/

/-- The third call feeds the sum of what the first two feed. Byte insertions may be made by
different operators as long as they feed as many bytes. -/
inductive Feed.Sum : Feed T → Feed T → Feed T → Prop
  | insert (i j k : ByteInsertion) (hlen : i.data.length = j.data.length)
      (hdata : k.data = i.data.zipWith (· ^^^ ·) j.data) :
      Sum (.insert i) (.insert j) (.insert k)
  | poly (p q : T.Val) : Sum (.poly p) (.poly q) (.poly (p ^^^ q))
  | bit (a b : Bool) : Sum (.bit a) (.bit b) (.bit (a ^^ b))

inductive StreamOp.Sum : StreamOp T → StreamOp T → StreamOp T → Prop
  | feed {f g h : Feed T} (hsum : Feed.Sum f g h) : Sum (.feed f) (.feed g) (.feed h)
  | reset : Sum .reset .reset .reset

/-- Sequences of calls, call by call. -/
inductive StreamOp.Sums : List (StreamOp T) → List (StreamOp T) → List (StreamOp T) → Prop
  | nil : Sums [] [] []
  | cons {op op' sum : StreamOp T} {ops ops' sums : List (StreamOp T)}
      (h : StreamOp.Sum op op' sum) (hs : Sums ops ops' sums) :
      Sums (op :: ops) (op' :: ops') (sum :: sums)

/-! ### Updates are linear -/

theorem polyType_sethibyte_xor (o : BitOrder) (n : Nat) (a b : Byte) :
    (o.polyType T n).sethibyte (a ^^^ b) =
      (o.polyType T n).sethibyte a ^^^ (o.polyType T n).sethibyte b := by
  cases o with
  | native =>
      change (a ^^^ b).setWidth T.bits <<< (n - 8) =
        a.setWidth T.bits <<< (n - 8) ^^^ b.setWidth T.bits <<< (n - 8)
      rw [BitVec.setWidth_xor, BitVec.shiftLeft_xor_distrib]
  | network => exact BitVec.setWidth_xor

theorem zipWith_zeros (bs : List Byte) :
    (List.replicate bs.length (0 : Byte)).zipWith (· ^^^ ·) bs = bs := by
  induction bs with
  | nil => rfl
  | cons b bs ih =>
      rw [List.length_cons, List.replicate_succ, List.zipWith_cons_cons, ih,
        show (0 : Byte) ^^^ b = b from BitVec.zero_xor]

namespace CRC

variable (c : CRC (o.polyType T n))

theorem addbit_sum (hn : o.Admits T n) (a b : Bool) (v w : T.Val) :
    c.addbit (uint8OfBool (a ^^ b)) (v ^^^ w) =
      c.addbit (uint8OfBool a) v ^^^ c.addbit (uint8OfBool b) w := by
  have hP := polyType_lawful hn
  -- a set data bit adds the generator, twice when it is set on both sides
  cases a <;> cases b
  · simpa using c.addbit_zero_xor hP v w
  · simp only [Bool.false_xor, uint8OfBool_false, uint8OfBool_true, c.addbit_one hP,
      c.addbit_zero_xor hP]
    ac_rfl
  · simp only [Bool.xor_false, uint8OfBool_false, uint8OfBool_true, c.addbit_one hP,
      c.addbit_zero_xor hP]
    ac_rfl
  · simp only [Bool.xor_self, uint8OfBool_false, uint8OfBool_true, c.addbit_one hP,
      c.addbit_zero_xor hP]
    rw [show ∀ x y g : T.Val, x ^^^ g ^^^ (y ^^^ g) = x ^^^ y ^^^ g ^^^ g by intros; ac_rfl,
      xor_xor_cancel]

theorem tableEntry_xor (hn : o.Admits T n) (a b : Byte) :
    tableEntry (o.polyType T n) c._generator (a ^^^ b) =
      tableEntry (o.polyType T n) c._generator a ^^^
        tableEntry (o.polyType T n) c._generator b := by
  rw [tableEntry, tableEntry, tableEntry, tableStep_eq_addbit, polyType_sethibyte_xor,
    c.iterate_addbit_zero_xor (polyType_lawful hn)]

theorem add_sum (hn : o.Admits T n) (a b : Byte) (v w : T.Val) :
    c.add (a ^^^ b) (v ^^^ w) = c.add a v ^^^ c.add b w := by
  have hP := polyType_lawful hn
  have hindex : (o.polyType T n).hibyte v ^^^ (o.polyType T n).hibyte w ^^^ (a ^^^ b) =
      (o.polyType T n).hibyte v ^^^ a ^^^ ((o.polyType T n).hibyte w ^^^ b) := by
    ac_rfl
  rw [add_eq, add_eq, add_eq, hP.shift_xor, hP.hibyte_xor, hindex, c.tableEntry_xor hn]
  ac_rfl

theorem addBytes_sum (hn : o.Admits T n) {as bs : List Byte} (hlen : as.length = bs.length)
    (v w : T.Val) :
    c.addBytes (as.zipWith (· ^^^ ·) bs) (v ^^^ w) = c.addBytes as v ^^^ c.addBytes bs w := by
  induction as generalizing bs v w with
  | nil =>
      obtain rfl := List.length_eq_zero_iff.mp hlen.symm
      rfl
  | cons a as ih =>
      cases bs with
      | nil => simp at hlen
      | cons b bs =>
          rw [List.zipWith_cons_cons, addBytes_cons, addBytes_cons, addBytes_cons, c.add_sum hn,
            ih (by simpa using hlen)]

theorem iterate_add_zero_xor (hn : o.Admits T n) (k : Nat) (v w : T.Val) :
    (c.add 0)^[k] (v ^^^ w) = (c.add 0)^[k] v ^^^ (c.add 0)^[k] w := by
  induction k generalizing v w with
  | zero => rfl
  | succ k ih =>
      have h := c.add_sum hn 0 0 v w
      rw [show (0 : Byte) ^^^ 0 = 0 from BitVec.xor_self] at h
      rw [Function.iterate_succ_apply, h, ih]
      rfl

theorem advance_xor (hn : o.Admits T n) (v w : T.Val) :
    c.advance (v ^^^ w) = c.advance v ^^^ c.advance w := by
  rw [advance, c.iterate_add_zero_xor hn, c.iterate_addbit_zero_xor (polyType_lawful hn)]
  rfl

theorem addPoly_sum (hn : o.Admits T n) (p q v w : T.Val) :
    c.addPoly (p ^^^ q) (v ^^^ w) = c.addPoly p v ^^^ c.addPoly q w := by
  have hP := polyType_lawful hn
  rw [eq_xor_of_xor_eq (c.addPoly_xor hP (p ^^^ q) (v ^^^ w)),
    eq_xor_of_xor_eq (c.addPoly_xor hP p v), eq_xor_of_xor_eq (c.addPoly_xor hP q w),
    hP.shift_xor, show v ^^^ w ^^^ (p ^^^ q) = v ^^^ p ^^^ (w ^^^ q) by ac_rfl, c.advance_xor hn]
  ac_rfl

end CRC

/-! ### Runs are linear -/

namespace CRCStream

theorem feed_sum (hn : o.Admits T n) (c : CRC (o.polyType T n)) {f g h : Feed T}
    (hsum : Feed.Sum f g h) {s t u : CRCStream (o.polyType T n)} (hs : s._algorithm = c)
    (ht : t._algorithm = c) (hu : u._algorithm = c) (hcrc : u._crc = s._crc ^^^ t._crc) :
    (u.feed h)._crc = (s.feed f)._crc ^^^ (t.feed g)._crc := by
  cases hsum with
  | insert i j k hlen hdata =>
      simp only [feed, insert_eq, hs, ht, hu, hcrc, hdata]
      exact c.addBytes_sum hn hlen _ _
  | poly p q =>
      simp only [feed, insertPoly, hs, ht, hu, hcrc]
      exact c.addPoly_sum hn p q _ _
  | bit a b =>
      simp only [feed, addBit, hs, ht, hu, hcrc]
      exact c.addbit_sum hn a b _ _

/-- Three streams of one algorithm, of which the last is the sum of the others. -/
structure Superposed (s t u : CRCStream (o.polyType T n)) : Prop where
  algorithm_left : s._algorithm = u._algorithm
  algorithm_right : t._algorithm = u._algorithm
  crc : u._crc = s._crc ^^^ t._crc
  preset : u._preset = s._preset ^^^ t._preset
  invert : u._invert = s._invert ^^^ t._invert

theorem Superposed.exec (hn : o.Admits T n) {s t u : CRCStream (o.polyType T n)}
    (h : Superposed s t u) {op op' sum : StreamOp T} (hsum : StreamOp.Sum op op' sum) :
    Superposed (s.exec op) (t.exec op') (u.exec sum) := by
  have hs := sameSetup_exec s op
  have ht := sameSetup_exec t op'
  have hu := sameSetup_exec u sum
  refine ⟨?_, ?_, ?_, ?_, ?_⟩
  · rw [hs.algorithm, hu.algorithm, h.algorithm_left]
  · rw [ht.algorithm, hu.algorithm, h.algorithm_right]
  · cases hsum with
    | feed hfeed =>
        exact feed_sum hn u._algorithm hfeed h.algorithm_left h.algorithm_right rfl h.crc
    | reset => exact h.preset
  · rw [hs.preset, ht.preset, hu.preset, h.preset]
  · rw [hs.invert, ht.invert, hu.invert, h.invert]

theorem Superposed.run (hn : o.Admits T n) {s t u : CRCStream (o.polyType T n)}
    (h : Superposed s t u) {ops ops' sums : List (StreamOp T)}
    (hsums : StreamOp.Sums ops ops' sums) :
    Superposed (s.run ops) (t.run ops') (u.run sums) := by
  induction hsums generalizing s t u with
  | nil => exact h
  | cons hsum _ ih => exact ih (h.exec hn hsum)

/-- Another start value shows as what zero bytes make of the difference. -/
theorem addBytes_eq_xor (hn : o.Admits T n) (c : CRC (o.polyType T n)) (bs : List Byte)
    (v w : T.Val) : c.addBytes bs v = c.addBytes bs w ^^^ (c.add 0)^[bs.length] (v ^^^ w) := by
  have h := c.addBytes_sum hn (List.length_replicate (a := (0 : Byte)) (n := bs.length)) (v ^^^ w) w
  rw [zipWith_zeros, CRC.addBytes_replicate_zero, xor_xor_cancel] at h
  rw [h, BitVec.xor_comm]

/-- **The CRC of a concatenation**, from the CRCs of the two messages: the first one is moved
up by as many zero bytes as the second message has bytes. -/
theorem crc_process_append (hn : o.Admits T n) (s : CRCStream (o.polyType T n))
    (a b : List Byte) :
    (s.process (a ++ b)).crc =
      (s.process b).crc ^^^
        (s._algorithm.add 0)^[b.length] ((s.process a).crc ^^^ (s._preset ^^^ s._invert)) := by
  have hdiff : s._algorithm.addBytes a s._preset ^^^ s._invert ^^^ (s._preset ^^^ s._invert) =
      s._algorithm.addBytes a s._preset ^^^ s._preset := by
    rw [show ∀ x y z : T.Val, x ^^^ y ^^^ (z ^^^ y) = x ^^^ z ^^^ y ^^^ y by intros; ac_rfl,
      xor_xor_cancel]
  simp only [crc, process_eq]
  rw [hdiff, CRC.addBytes_append, addBytes_eq_xor hn s._algorithm b _ s._preset]
  ac_rfl

/-- Two CAN messages. -/
theorem crc_process_append_can :
    ((new canCrc 0x7FFF 0).process [0x31, 0x32, 0x33]).crc =
      ((new canCrc 0x7FFF 0).process [0x32, 0x33]).crc ^^^
        (canCrc.add 0)^[2] (((new canCrc 0x7FFF 0).process [0x31]).crc ^^^ (0x7FFF ^^^ 0)) :=
  crc_process_append (o := native) (by decide) (new canCrc 0x7FFF 0) [0x31] [0x32, 0x33]

/-! ### Patches -/

/-- Every register is reached from any other by the word that fits. -/
theorem addPoly_bijective (c : CRC (o.polyType T T.bits)) (reg : T.Val) :
    Function.Bijective fun w => c.addPoly w reg := by
  have hP := polyType_lossless o T
  have : Finite T.Val := Finite.of_equiv _ (BitVec.equivFin (m := T.bits)).symm.toEquiv
  rw [← Finite.injective_iff_bijective]
  intro v w (h : c.addPoly v reg = c.addPoly w reg)
  have hmoved : ∀ w, c.addPoly w reg = c.advance (reg ^^^ w) := by
    intro w
    have h := c.addPoly_xor hP.toLawful w reg
    rw [hP.shift_numbits] at h
    exact BitVec.xor_zero.symm.trans h
  have hsum : reg ^^^ v = reg ^^^ w := c.advance_injective hP (by rw [← hmoved, ← hmoved, h])
  rw [BitVec.xor_comm reg, BitVec.xor_comm reg] at hsum
  rw [eq_xor_of_xor_eq hsum, xor_xor_cancel]

theorem addBytes_bijective (c : CRC (o.polyType T T.bits)) (bs : List Byte) :
    Function.Bijective (c.addBytes bs) := by
  have : Finite T.Val := Finite.of_equiv _ (BitVec.equivFin (m := T.bits)).symm.toEquiv
  exact Finite.injective_iff_bijective.mp (c.addBytes_injective (polyType_lossless o T) bs)

/-- A gap of `sizeof(T)` bytes is filled in one way to give the message a certain CRC. -/
theorem existsUnique_crc_eq (o : BitOrder) (T : DataType) (s : CRCStream (o.polyType T T.bits))
    (a b : List Byte) (w : T.Val) :
    ∃! p : List Byte, p.length = T.sizeof ∧ (s.process (a ++ p ++ b)).crc = w := by
  have hprocess : ∀ v : T.Val,
      (s.process (a ++ (CRCResult.new (o.polyType T T.bits) v).c_str ++ b)).crc =
        s._algorithm.addBytes b (s._algorithm.addPoly v (s.process a)._crc) ^^^ s._invert := by
    intro v
    have happend := congrArg (·._crc) (process_append o s a v)
    simp only [process_eq, insertPoly] at happend
    simp only [crc, process_eq, CRC.addBytes_append _ (a ++ _) b]
    rw [happend]
  obtain ⟨v, hv, hunique⟩ := ((addBytes_bijective s._algorithm b).comp
    (addPoly_bijective s._algorithm (s.process a)._crc)).existsUnique (w ^^^ s._invert)
  have hiff : ∀ u : T.Val,
      (s.process (a ++ (CRCResult.new (o.polyType T T.bits) u).c_str ++ b)).crc = w ↔ u = v := by
    intro u
    rw [hprocess]
    constructor
    · exact fun h => hunique u (eq_xor_of_xor_eq h)
    · rintro rfl
      exact (congrArg (· ^^^ s._invert) hv).trans (xor_xor_cancel _ _)
  refine ⟨(CRCResult.new (o.polyType T T.bits) v).c_str, ⟨?_, (hiff v).mpr rfl⟩, ?_⟩
  · exact CRCResult.length_c_str _
  · rintro p ⟨hlen, hp⟩
    obtain ⟨u, rfl⟩ := exists_c_str_eq o p hlen
    rw [(hiff u).mp hp]

/-- And in one way to make it a message that `check` accepts. -/
theorem existsUnique_check (o : BitOrder) (T : DataType) (s : CRCStream (o.polyType T T.bits))
    (a b : List Byte) :
    ∃! p : List Byte, p.length = T.sizeof ∧ (s.check (a ++ p ++ b)).1 = true := by
  -- `good` asks for one register, so for one CRC
  have hcheck : ∀ m : List Byte, (s.check m).1 = true ↔
      (s.process m).crc = s._algorithm.addPoly s._invert 0 ^^^ s._invert := by
    intro m
    rw [check, good, beq_iff_eq, crc, process_eq]
    constructor
    · intro h
      rw [h]
    · intro h
      rw [eq_xor_of_xor_eq h, xor_xor_cancel]
  simp only [hcheck]
  exact existsUnique_crc_eq o T s a b _

/-- **Patches.** In a full-width class, whatever stands before and behind a gap of `sizeof(T)`
bytes, exactly one filling gives the message the CRC that is wanted. So bytes that are lost
there are found again: one filling only is accepted by `check`. -/
theorem exists_unique_patch (o : BitOrder) (T : DataType) (s : CRCStream (o.polyType T T.bits))
    (a b : List Byte) :
    (∀ w : T.Val, ∃! p : List Byte, p.length = T.sizeof ∧ (s.process (a ++ p ++ b)).crc = w) ∧
      ∃! p : List Byte, p.length = T.sizeof ∧ (s.check (a ++ p ++ b)).1 = true :=
  ⟨existsUnique_crc_eq o T s a b, existsUnique_check o T s a b⟩

end CRCStream

end CrcPP
