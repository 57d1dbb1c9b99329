import CrcPP.Text.Numeral
import CrcPP.Text.Words

/-!
# CrcPP.Text.PowerSum

**Sums of powers as text.** A sum such as `X^16 + X^12 + X^5 + 1` is written term
by term: `X^k` for a power, `X` for the first one and `1` for the zeroth. `parse`
reads the exponents back, in the order in which they stand.
-/

namespace PowerSum

open Words

/-- The power `X^e` as a term. -/
def term : Nat → List Char
  | 0 => ['1']
  | 1 => ['X']
  | e + 2 => 'X' :: '^' :: Nat.toDigits 10 (e + 2)

/-- The terms behind the first one. -/
def renderTail (es : List Nat) : List Char := es.flatMap fun e => [' ', '+', ' '] ++ term e

/-- The sum of the powers with the given exponents. -/
def render : List Nat → List Char
  | [] => []
  | e :: es => term e ++ renderTail es

/-- Read a term. -/
def parseTerm : List Char → Option Nat
  | ['1'] => some 0
  | ['X'] => some 1
  | 'X' :: '^' :: digits => Numeral.read 10 digits
  | _ => none

/-- Read terms with a plus between any two of them. -/
def parseTerms : List (List Char) → Option (List Nat)
  | [] => none
  | [t] => (parseTerm t).map fun e => [e]
  | t :: plus :: rest =>
    if plus = ['+'] then
      (parseTerm t).bind fun e => (parseTerms rest).map fun es => e :: es
    else none

/-- Read a sum of powers. -/
def parse (text : List Char) : Option (List Nat) := parseTerms (words text)

theorem renderTail_cons (e : Nat) (es : List Nat) :
    renderTail (e :: es) = [' ', '+', ' '] ++ term e ++ renderTail es := rfl

theorem renderTail_append (es fs : List Nat) :
    renderTail (es ++ fs) = renderTail es ++ renderTail fs := List.flatMap_append

theorem parseTerm_term (e : Nat) : parseTerm (term e) = some e := by
  match e with
  | 0 => rfl
  | 1 => rfl
  | e + 2 => exact Numeral.read_toDigits (by decide) (by decide) (e + 2)

theorem term_ne_nil (e : Nat) : term e ≠ [] := by
  match e with
  | 0 => exact List.cons_ne_nil _ _
  | 1 => exact List.cons_ne_nil _ _
  | e + 2 => exact List.cons_ne_nil _ _

theorem forall_mem_term (e : Nat) {p : Char → Prop} (hX : p 'X') (hpow : p '^')
    (hd : ∀ d < 16, p d.digitChar) : ∀ c ∈ term e, p c := by
  match e with
  | 0 =>
      intro c hc
      rw [List.mem_singleton.mp hc]
      exact hd 1 (by decide)
  | 1 =>
      intro c hc
      rw [List.mem_singleton.mp hc]
      exact hX
  | e + 2 =>
      intro c hc
      rw [term, List.mem_cons, List.mem_cons] at hc
      rcases hc with rfl | rfl | hc
      · exact hX
      · exact hpow
      · exact Numeral.forall_mem_toDigits (by decide) (by decide) hd c hc

/-- What holds of all characters in use holds of every character of a sum. -/
theorem forall_mem_render (es : List Nat) {p : Char → Prop} (hX : p 'X') (hpow : p '^')
    (hd : ∀ d < 16, p d.digitChar) (hspace : p ' ') (hplus : p '+') :
    ∀ c ∈ render es, p c := by
  cases es with
  | nil => simp [render]
  | cons e es =>
      intro c hc
      rw [render, renderTail, List.mem_append, List.mem_flatMap] at hc
      rcases hc with hc | ⟨f, -, hc⟩
      · exact forall_mem_term e hX hpow hd c hc
      · rcases List.mem_append.mp hc with hc | hc
        · rw [List.mem_cons, List.mem_cons, List.mem_singleton] at hc
          rcases hc with rfl | rfl | rfl
          · exact hspace
          · exact hplus
          · exact hspace
        · exact forall_mem_term f hX hpow hd c hc

theorem term_plain (e : Nat) : ∀ c ∈ term e, c.isWhitespace = false :=
  forall_mem_term e (p := fun c => c.isWhitespace = false) rfl rfl (by decide)

/-- The words of a sum are its terms and the pluses between them. -/
theorem words_render (e : Nat) (es : List Nat) :
    words (render (e :: es)) = term e :: es.flatMap fun e => [['+'], term e] := by
  induction es generalizing e with
  | nil =>
      rw [render, renderTail, List.flatMap_nil, List.append_nil,
        words_of_plain (term_ne_nil e) (term_plain e), List.flatMap_nil]
  | cons f es ih =>
      have hspace : (' ').isWhitespace = true := rfl
      have hplus : words ('+' :: ' ' :: render (f :: es)) = ['+'] :: words (render (f :: es)) :=
        words_plain_append (List.cons_ne_nil '+' []) (List.forall_mem_singleton.mpr rfl) hspace _
      rw [render, renderTail_cons]
      rw [show term e ++ ([' ', '+', ' '] ++ term f ++ renderTail es) =
        term e ++ ' ' :: '+' :: ' ' :: render (f :: es) by simp [render]]
      rw [words_plain_append (term_ne_nil e) (term_plain e) hspace, hplus, ih f]
      rfl

/-- **Reading back**: a sum has the exponents it was written for. -/
theorem parse_render (e : Nat) (es : List Nat) : parse (render (e :: es)) = some (e :: es) := by
  rw [parse, words_render]
  induction es generalizing e with
  | nil => rw [List.flatMap_nil, parseTerms, parseTerm_term, Option.map_some]
  | cons f es ih =>
      rw [List.flatMap_cons, List.cons_append, List.cons_append, List.nil_append, parseTerms,
        if_pos rfl, parseTerm_term, Option.bind_some, ih f, Option.map_some]

/-- The text of a sum tells its exponents. -/
theorem render_injective {e e' : Nat} {es es' : List Nat}
    (h : render (e :: es) = render (e' :: es')) : e :: es = e' :: es' := by
  have hparse := congrArg parse h
  rw [parse_render, parse_render] at hparse
  exact Option.some.inj hparse

end PowerSum
