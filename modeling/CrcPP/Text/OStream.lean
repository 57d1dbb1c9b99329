import Mathlib.Tactic.Common

/-!
# CrcPP.Text.OStream

A **formatted output stream** in the manner of `std::ostream`: the characters
written so far, and the format state that the manipulators leave behind. The
base and the fill character stay until they are changed; the width holds for the
next formatted item only.

The lemmas evaluate an operation on a stream given by its four components. Almost
everything is written with no width pending, so `put` and its relatives are
stated for width 0; `num_setw` is the padded case. Behind them, `prepend` puts a text in
front of a stream, and commutes with every operation.
-/

/-- The bases of integer output. -/
inductive OStream.Base
  | dec
  | hex
  deriving Repr, DecidableEq

/-- The number a base stands for. -/
def OStream.Base.radix : OStream.Base → Nat
  | dec => 10
  | hex => 16

/-- An output stream. -/
@[ext] structure OStream where
  /-- What has been written. -/
  text : List Char
  base : OStream.Base
  fill : Char
  /-- The minimal width of the next formatted item. -/
  width : Nat
  deriving Repr, DecidableEq

namespace OStream

/-- A stream as it is constructed. -/
def new : OStream := ⟨[], .dec, ' ', 0⟩

/-- Formatted output of an item: it is padded on the left, and uses up the width. -/
def put (s : OStream) (item : List Char) : OStream :=
  { s with text := s.text ++ item.leftpad s.width s.fill, width := 0 }

/-- `<<` on a string. -/
def str (s : OStream) (item : String) : OStream := s.put item.toList

/-- `<<` on an unsigned integer. -/
def num (s : OStream) (item : Nat) : OStream := s.put (Nat.toDigits s.base.radix item)

/-- Unformatted output: `write`. -/
def write (s : OStream) (chars : List Char) : OStream := { s with text := s.text ++ chars }

/-- `<< std::endl`. -/
def endl (s : OStream) : OStream := s.write ['\n']

/-- `<< std::dec`. -/
def dec (s : OStream) : OStream := { s with base := .dec }

/-- `<< std::hex`. -/
def hex (s : OStream) : OStream := { s with base := .hex }

/-- `<< std::setfill(c)`. -/
def setfill (s : OStream) (c : Char) : OStream := { s with fill := c }

/-- `<< std::setw(n)`. -/
def setw (s : OStream) (n : Nat) : OStream := { s with width := n }

@[simp] theorem write_nil (s : OStream) : s.write [] = s := by
  rw [write, List.append_nil]

section Eval

variable (t : List Char) (b : Base) (f : Char) (w : Nat)

@[simp] theorem put_mk (item : List Char) :
    (⟨t, b, f, 0⟩ : OStream).put item = ⟨t ++ item, b, f, 0⟩ := by
  simp [put, List.leftpad]

@[simp] theorem str_mk (item : String) :
    (⟨t, b, f, 0⟩ : OStream).str item = ⟨t ++ item.toList, b, f, 0⟩ := put_mk t b f item.toList

@[simp] theorem num_mk (item : Nat) :
    (⟨t, b, f, 0⟩ : OStream).num item = ⟨t ++ Nat.toDigits b.radix item, b, f, 0⟩ :=
  put_mk t b f _

/-- A number behind `setw`: padded, and the width is used up. -/
@[simp] theorem num_setw (item : Nat) :
    ((⟨t, b, f, 0⟩ : OStream).setw w).num item =
      ⟨t ++ (Nat.toDigits b.radix item).leftpad w f, b, f, 0⟩ := rfl

@[simp] theorem write_mk (chars : List Char) :
    (⟨t, b, f, w⟩ : OStream).write chars = ⟨t ++ chars, b, f, w⟩ := rfl

@[simp] theorem endl_mk : (⟨t, b, f, w⟩ : OStream).endl = ⟨t ++ ['\n'], b, f, w⟩ := rfl

@[simp] theorem dec_mk : (⟨t, b, f, w⟩ : OStream).dec = ⟨t, .dec, f, w⟩ := rfl

@[simp] theorem hex_mk : (⟨t, b, f, w⟩ : OStream).hex = ⟨t, .hex, f, w⟩ := rfl

@[simp] theorem setfill_mk (c : Char) : (⟨t, b, f, w⟩ : OStream).setfill c = ⟨t, b, c, w⟩ := rfl

/-! Output that depends on a condition. -/

theorem ite_str_mk (p : Prop) [Decidable p] (item : String) :
    (if p then (⟨t, b, f, 0⟩ : OStream).str item else ⟨t, b, f, 0⟩) =
      ⟨t ++ if p then item.toList else [], b, f, 0⟩ := by
  split
  · exact str_mk t b f item
  · rw [List.append_nil]

theorem ite_endl_mk (p : Prop) [Decidable p] :
    (if p then (⟨t, b, f, w⟩ : OStream).endl else ⟨t, b, f, w⟩) =
      ⟨t ++ if p then ['\n'] else [], b, f, w⟩ := by
  split
  · rfl
  · rw [List.append_nil]

end Eval

/-! ### A text in front

No operation looks at what has been written, so a text in front of it stays there. -/

/-- The stream with a text in front of what has been written. -/
def prepend (t : List Char) (s : OStream) : OStream := { s with text := t ++ s.text }

section Prepend

variable (t : List Char) (s : OStream)

@[simp] theorem put_prepend (item : List Char) :
    (s.prepend t).put item = (s.put item).prepend t := by
  simp [put, prepend]

@[simp] theorem str_prepend (item : String) : (s.prepend t).str item = (s.str item).prepend t :=
  put_prepend t s item.toList

@[simp] theorem num_prepend (item : Nat) : (s.prepend t).num item = (s.num item).prepend t :=
  put_prepend t s _

@[simp] theorem write_prepend (chars : List Char) :
    (s.prepend t).write chars = (s.write chars).prepend t := by
  simp [write, prepend]

@[simp] theorem endl_prepend : (s.prepend t).endl = s.endl.prepend t := write_prepend t s _

@[simp] theorem dec_prepend : (s.prepend t).dec = s.dec.prepend t := rfl

@[simp] theorem hex_prepend : (s.prepend t).hex = s.hex.prepend t := rfl

@[simp] theorem setfill_prepend (c : Char) :
    (s.prepend t).setfill c = (s.setfill c).prepend t := rfl

@[simp] theorem setw_prepend (n : Nat) : (s.prepend t).setw n = (s.setw n).prepend t := rfl

end Prepend

end OStream
