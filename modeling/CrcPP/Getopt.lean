import CrcPP.Text.CommandLine
import Mathlib.Logic.Function.Basic

/-!
# CrcPP.Getopt

The `getopt_long` that the repository brings for Windows, `src/win/getopt_long.c`.

It hands out one option at each call. Between the calls it keeps its place in
variables: `optind` is the index of the next word of `nargv`, and `place` points into
the word whose letters are being read, or to an empty string. A pointer into a string is
modelled by the characters from there on, without the terminating null character.

A step the language leaves undefined has no result: reading `nargv` beyond its
terminating null pointer, or moving a pointer beyond the end of its string.
-/

namespace CrcPP

open CommandLine (Word)

/-- `no_argument`, `required_argument` and `optional_argument`. -/
inductive HasArg
  | no_argument
  | required_argument
  | optional_argument
  deriving Repr, DecidableEq

/-- `struct option`. -/
structure LongOption where
  name : Word
  has_arg : HasArg
  /-- The variable to store `val` in, unless the pointer is null. -/
  flag : Option Nat
  val : Char
  deriving Repr, DecidableEq

/-- What the functions return: `-1`, `-2` or a character. -/
inductive Retval
  | minusOne
  | minusTwo
  | char (c : Char)
  deriving Repr, DecidableEq

/-- The variables of the module, the variables that `struct option` and the argument
`index` point to, and what has been written to `stderr`. -/
structure Getopt where
  opterr : Bool
  optind : Nat
  optopt : Char
  optreset : Bool
  optarg : Option Word
  place : List Char
  flags : Nat → Char
  index : Nat
  stderr : List Char

/-- The variables when the program starts. -/
def Getopt.init : Getopt where
  opterr := false
  optind := 1
  optopt := Char.ofNat 0
  optreset := false
  optarg := none
  place := []
  flags _ := Char.ofNat 0
  index := 0
  stderr := []

/-- `BADCH`. -/
def BADCH : Retval := .char '?'

/-- `BADARG`. -/
def BADARG : Retval := .char ':'

/-- `__progname(nargv0)`: what stands behind the last slash. -/
def progname (nargv0 : Word) : Word := (nargv0.reverse.takeWhile (· ≠ '/')).reverse

/-- `if (opterr && *ostr != ':') fprintf(stderr, "%s: <message> -- %s\n", ...)`. -/
def Getopt.complain (g : Getopt) (nargv : List Word) (ostr : List Char) (message : String)
    (what : Word) : Getopt :=
  if g.opterr ∧ ostr.head? ≠ some ':' then
    { g with stderr := g.stderr ++ progname (nargv.headD []) ++ ": ".toList ++ message.toList ++
        " -- ".toList ++ what ++ ['\n'] }
  else g

/-- `nargv[i]`; the element behind the last word is a null pointer. -/
def argument (nargv : List Word) (i : Nat) : Option (Option Word) :=
  if i ≤ nargv.length then some nargv[i]? else none

/-- `strchr(ostr, c)`: what follows the first `c` in `ostr`, if there is one. -/
def strchr (ostr : List Char) (c : Char) : Option (List Char) :=
  match ostr.dropWhile (· ≠ c) with
  | [] => none
  | _ :: rest => some rest

/-- `getopt_internal` behind its first block: read the letter at `place`. -/
def getoptLetter (nargv : List Word) (ostr : List Char) (g : Getopt) :
    Option (Retval × Getopt) :=
  match g.place with
  | [] => none
  | c :: place =>
    let g := { g with optopt := c, place := place }
    match if c = ':' then none else strchr ostr c with
    | none =>
      if c = '-' then some (.minusOne, g)
      else
        let g := if place = [] then { g with optind := g.optind + 1 } else g
        some (BADCH, g.complain nargv ostr "illegal option" [c])
    | some oli =>
      if oli.head? ≠ some ':' then
        let g := { g with optarg := none }
        some (.char c, if place = [] then { g with optind := g.optind + 1 } else g)
      else if place ≠ [] then
        some (.char c, { g with optarg := some place, place := [], optind := g.optind + 1 })
      else
        let g := { g with optind := g.optind + 1 }
        if nargv.length ≤ g.optind then
          some (BADARG, { g with place := [] }.complain nargv ostr
            "option requires an argument" [c])
        else do
          let optarg ← argument nargv g.optind
          return (.char c, { g with optarg := optarg, place := [], optind := g.optind + 1 })

/-- `getopt_internal(nargc, nargv, ostr)`. -/
def getoptInternal (nargv : List Word) (ostr : List Char) (g : Getopt) :
    Option (Retval × Getopt) :=
  if g.optreset ∨ g.place = [] then
    let g := { g with optreset := false }
    if nargv.length ≤ g.optind then some (.minusOne, { g with place := [] })
    else do
      -- the element is a word, since the index is in range
      let some word ← argument nargv g.optind | none
      match word with
      | '-' :: '-' :: _ => some (.minusTwo, { g with place := [] })
      | ['-'] => getoptLetter nargv ostr { g with place := ['-'] }
      | '-' :: place => getoptLetter nargv ostr { g with place := place }
      | _ => some (.minusOne, { g with place := [] })
  else getoptLetter nargv ostr g

/-- `strncmp(s, t, n) == 0`. -/
def strncmpEq (s t : Word) (n : Nat) : Bool := s.take n = t.take n

/-- The loop that looks for a name: an exact match ends it, and the first name that
begins with the text is kept. `found` is `match` so far. -/
def matchLoop (current_argv : Word) (current_argv_len : Nat) :
    Nat → List LongOption → Option Nat → Option Nat
  | _, [], found => found
  | i, o :: rest, found =>
    if ¬ strncmpEq current_argv o.name current_argv_len then
      matchLoop current_argv current_argv_len (i + 1) rest found
    else if o.name.length = current_argv_len then some i
    else matchLoop current_argv current_argv_len (i + 1) rest (found.or (some i))

/-- The argument of a long option: what stands behind the `=`, or the next word. -/
def longArgument (nargv : List Word) (o : LongOption) (has_equal : Option Word) (g : Getopt) :
    Option Getopt :=
  if o.has_arg = .required_argument ∨ o.has_arg = .optional_argument then
    match has_equal with
    | some value => some { g with optarg := some value }
    | none => do
      let optarg ← argument nargv g.optind
      return { g with optarg := optarg, optind := g.optind + 1 }
  else some g

/-- `getopt_long` behind its loop, when the option `o` with index `i` matches. -/
def getoptMatch (nargv : List Word) (options : List Char) (current_argv : Word) (o : LongOption)
    (i : Nat) (g : Getopt) : Option (Retval × Getopt) := do
  let g ← longArgument nargv o (strchr current_argv '=') g
  if o.has_arg = .required_argument ∧ g.optarg = none then
    return (BADARG, g.complain nargv options "option requires an argument" current_argv)
  else
    match o.flag with
    | some p =>
      return (.char (Char.ofNat 0), { g with flags := Function.update g.flags p o.val, index := i })
    | none => return (.char o.val, { g with index := i })

/-- `getopt_long` when `getopt_internal` has found the `--` in front of a name. -/
def getoptName (nargv : List Word) (options : List Char) (long_options : List LongOption)
    (g : Getopt) : Option (Retval × Getopt) := do
  -- `nargv[optind++] + 2` moves two characters into the word
  let some ('-' :: '-' :: current_argv) ← argument nargv g.optind | none
  let g := { g with optind := g.optind + 1 }
  if current_argv = [] then return (.minusOne, g)
  else
    -- up to the first `=`, or all of it
    let current_argv_len := (current_argv.takeWhile (· ≠ '=')).length
    match matchLoop current_argv current_argv_len 0 long_options none with
    | none => return (BADCH, g.complain nargv options "illegal option" current_argv)
    | some i => do
      let o ← long_options[i]?
      getoptMatch nargv options current_argv o i g

/-- `getopt_long(nargc, nargv, options, long_options, index)`. -/
def getoptLong (nargv : List Word) (options : List Char) (long_options : List LongOption)
    (g : Getopt) : Option (Retval × Getopt) := do
  let (retval, g) ← getoptInternal nargv options g
  if retval = .minusTwo then getoptName nargv options long_options g
  else some (retval, g)

end CrcPP
