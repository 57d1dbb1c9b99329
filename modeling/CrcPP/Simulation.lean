import CrcPP.Stream
import Mathlib.Data.List.Forall2

/-!
# CrcPP.Simulation

**Two polynomial classes in step.** The templates `CRC<P>` and `CRCStream<P>`
reach a polynomial only through the members of `P`. So whatever relation the
members of two classes preserve, all of the templates preserve too: it is enough
to check the members once (`PolyType.Simulates`), and a run of one stream is
followed by the run of the other (`run_simulates`).

A simulation relates values by `R` and translates bytes by `β`. The two
instances are the mirror image of the bit orders (`CrcPP.Mirror`, where `R` is
bit reversal) and the independence of the unused high bits (`CrcPP.Narrow`, where
`R` is agreement on the low bits and `β` changes nothing).
-/

namespace CrcPP

variable {T : DataType}

/-- The members of `P` and `Q` take related values to related values. -/
structure PolyType.Simulates (P Q : PolyType T) (R : T.Val → T.Val → Prop)
    (β : Byte → Byte) : Prop where
  numbits : P.numbits = Q.numbits
  zero : R 0 0
  xor : ∀ {v w v' w'}, R v w → R v' w' → R (v ^^^ v') (w ^^^ w')
  hibit : ∀ {v w}, R v w → P.hibit v = Q.hibit w
  hibyte : ∀ {v w}, R v w → β (P.hibyte v) = Q.hibyte w
  sethibyte : ∀ d, R (P.sethibyte d) (Q.sethibyte (β d))
  shift : ∀ {v w} k, R v w → R (P.shift v k) (Q.shift w k)
  byte_xor : ∀ a b, β (a ^^^ b) = β a ^^^ β b
  byte_eq_zero : ∀ {a}, β a = 0 ↔ a = 0

/-- The same insertion with every byte translated. -/
def ByteInsertion.map (β : Byte → Byte) : ByteInsertion → ByteInsertion
  | char c => char (β c)
  | byte b => byte (β b)
  | cstr s => cstr (s.map β)
  | bytes bs => bytes (bs.map β)

/-- Calls that feed related data. -/
inductive Feed.Rel (R : T.Val → T.Val → Prop) (β : Byte → Byte) : Feed T → Feed T → Prop
  | insert (i : ByteInsertion) : Rel R β (.insert i) (.insert (i.map β))
  | poly {p q : T.Val} : R p q → Rel R β (.poly p) (.poly q)
  | bit (b : Bool) : Rel R β (.bit b) (.bit b)

/-- Related calls. -/
inductive StreamOp.Rel (R : T.Val → T.Val → Prop) (β : Byte → Byte) :
    StreamOp T → StreamOp T → Prop
  | feed {f g : Feed T} : Feed.Rel R β f g → Rel R β (.feed f) (.feed g)
  | reset : Rel R β .reset .reset

/-- Streams whose generators, registers, presets and inversions are related. -/
structure CRCStream.Rel {P Q : PolyType T} (R : T.Val → T.Val → Prop) (s : CRCStream P)
    (t : CRCStream Q) : Prop where
  generator : R s._algorithm._generator t._algorithm._generator
  crc : R s._crc t._crc
  preset : R s._preset t._preset
  invert : R s._invert t._invert

section

variable {P Q : PolyType T} {R : T.Val → T.Val → Prop} {β : Byte → Byte}

/-! ### The algorithm -/

theorem tableEntry_simulates (h : P.Simulates Q R β) {g g' : T.Val} (hg : R g g') (d : Byte) :
    R (tableEntry P g d) (tableEntry Q g' (β d)) := by
  have step : ∀ {v w}, R v w → R (tableStep P g v) (tableStep Q g' w) := by
    intro v w hv
    rw [tableStep, tableStep, h.hibit hv]
    split
    · exact h.xor (h.shift 1 hv) hg
    · exact h.shift 1 hv
  have iterate : ∀ k {v w}, R v w → R ((tableStep P g)^[k] v) ((tableStep Q g')^[k] w) := by
    intro k
    induction k with
    | zero => intro v w hv; exact hv
    | succ k ih => intro v w hv; exact ih (step hv)
  exact iterate 8 (h.sethibyte d)

namespace CRC

variable {c : CRC P} {d : CRC Q}

theorem add_simulates (h : P.Simulates Q R β) (hg : R c._generator d._generator) {v w : T.Val}
    (hv : R v w) (b : Byte) : R (c.add b v) (d.add (β b) w) := by
  rw [add_eq, add_eq, ← h.hibyte hv, ← h.byte_xor]
  exact h.xor (h.shift 8 hv) (tableEntry_simulates h hg _)

theorem addbit_simulates (h : P.Simulates Q R β) (hg : R c._generator d._generator)
    {v w : T.Val} (hv : R v w) (b : Byte) : R (c.addbit b v) (d.addbit b w) := by
  rw [addbit, addbit, h.hibit hv]
  split
  · exact h.xor (h.shift 1 hv) hg
  · exact h.shift 1 hv

theorem addBytes_simulates (h : P.Simulates Q R β) (hg : R c._generator d._generator)
    (bs : List Byte) {v w : T.Val} (hv : R v w) :
    R (c.addBytes bs v) (d.addBytes (bs.map β) w) := by
  induction bs generalizing v w with
  | nil => exact hv
  | cons b bs ih => exact ih (add_simulates h hg hv b)

theorem addPolyBits_simulates (h : P.Simulates Q R β) (hg : R c._generator d._generator)
    (i : Nat) {p q v w : T.Val} (hp : R p q) (hv : R v w) :
    R (c.addPolyBits i p v) (d.addPolyBits i q w) := by
  induction i generalizing p q v w with
  | zero => exact hv
  | succ i ih =>
      rw [addPolyBits, addPolyBits, h.hibit hp]
      exact ih (h.shift 1 hp) (addbit_simulates h hg hv _)

theorem addPoly_simulates (h : P.Simulates Q R β) (hg : R c._generator d._generator)
    {p q v w : T.Val} (hp : R p q) (hv : R v w) : R (c.addPoly p v) (d.addPoly q w) := by
  have loop : ∀ i {p q v w : T.Val}, R p q → R v w →
      R (c.addPolyBytes i p v) (d.addPolyBytes i q w) := by
    intro i
    induction i using Nat.strong_induction_on with
    | _ i ih =>
        intro p q v w hp hv
        rcases Nat.lt_or_ge i 8 with h8 | h8
        · rw [c.addPolyBytes_of_lt h8, d.addPolyBytes_of_lt h8]
          exact addPolyBits_simulates h hg i hp hv
        · obtain ⟨i, rfl⟩ := Nat.exists_eq_add_of_le' h8
          rw [addPolyBytes_add_eight, addPolyBytes_add_eight, ← h.hibyte hp]
          exact ih i (by omega) (h.shift 8 hp) (add_simulates h hg hv _)
  rw [addPoly, addPoly, ← h.numbits]
  exact loop P.numbits hp hv

end CRC

theorem resultBytes_simulates (h : P.Simulates Q R β) (k : Nat) {v w : T.Val} (hv : R v w) :
    (resultBytes P k v).map β = resultBytes Q k w := by
  induction k generalizing v w with
  | zero => rfl
  | succ k ih => rw [resultBytes, resultBytes, List.map_cons, h.hibyte hv, ih (h.shift 8 hv)]

/-! ### Streams -/

/-- Translating an insertion translates the bytes it feeds. -/
theorem ByteInsertion.data_map (h : P.Simulates Q R β) (i : ByteInsertion) :
    (i.map β).data = i.data.map β := by
  cases i with
  | char c => rfl
  | byte b => rfl
  | bytes bs => rfl
  | cstr s =>
      -- the null character stays what it is, so both strings end at the same place
      simp only [map, data, List.takeWhile_map]
      congr 2
      funext a
      simp only [Function.comp_apply, ne_eq, h.byte_eq_zero]

namespace CRCStream

variable {s : CRCStream P} {t : CRCStream Q}

theorem feed_simulates (h : P.Simulates Q R β) (hs : Rel R s t) {f g : Feed T}
    (hf : Feed.Rel R β f g) : Rel R (s.feed f) (t.feed g) := by
  cases hf with
  | insert i =>
      rw [feed, feed, insert_eq, insert_eq, ByteInsertion.data_map h]
      exact ⟨hs.generator, CRC.addBytes_simulates h hs.generator i.data hs.crc, hs.preset,
        hs.invert⟩
  | poly hp =>
      exact ⟨hs.generator, CRC.addPoly_simulates h hs.generator hp hs.crc, hs.preset, hs.invert⟩
  | bit b =>
      exact ⟨hs.generator, CRC.addbit_simulates h hs.generator hs.crc _, hs.preset, hs.invert⟩

theorem exec_simulates (h : P.Simulates Q R β) (hs : Rel R s t) {op op' : StreamOp T}
    (hop : StreamOp.Rel R β op op') : Rel R (s.exec op) (t.exec op') := by
  cases hop with
  | feed hf => exact feed_simulates h hs hf
  | reset => exact ⟨hs.generator, hs.preset, hs.preset, hs.invert⟩

/-- **Related runs.** Related calls keep related streams related. -/
theorem run_simulates (h : P.Simulates Q R β) {ops ops' : List (StreamOp T)}
    (hops : List.Forall₂ (StreamOp.Rel R β) ops ops') {s : CRCStream P} {t : CRCStream Q}
    (hs : Rel R s t) : Rel R (s.run ops) (t.run ops') := by
  induction hops generalizing s t with
  | nil => exact hs
  | cons hop _ ih => exact ih (exec_simulates h hs hop)

theorem crc_simulates (h : P.Simulates Q R β) (hs : Rel R s t) : R s.crc t.crc :=
  h.xor hs.crc hs.invert

theorem result_simulates (h : P.Simulates Q R β) (hs : Rel R s t) :
    s.result.c_str.map β = t.result.c_str :=
  resultBytes_simulates h T.sizeof (crc_simulates h hs)

/-- `good` compares registers, so it needs a relation that tells values apart. -/
theorem good_simulates (h : P.Simulates Q R β) (hs : Rel R s t)
    (hR : ∀ {v w v' w'}, R v w → R v' w' → (v = v' ↔ w = w')) : s.good = t.good := by
  have hgood := CRC.addPoly_simulates h hs.generator hs.invert h.zero
  rw [Bool.eq_iff_iff, good, good, beq_iff_eq, beq_iff_eq]
  exact hR hs.crc hgood

/-- Streams built from related arguments are related. -/
theorem new_simulates {c : CRC P} {d : CRC Q} (hg : R c._generator d._generator)
    {p q v w : T.Val} (hp : R p q) (hv : R v w) : Rel R (new c p v) (new d q w) :=
  ⟨hg, hp, hp, hv⟩

end CRCStream

end

end CrcPP
