import CrcPP.Getopt

/-!
# CrcPP.GetoptParse

**`getopt_long` reads the grammar of a command line.** Its calls keep their place in
variables, between words and between the letters of a word. `Reads` says what the calls
from a state on hand out, up to the one that returns -1, and which operands are left
then. From a state between two words that is what `CommandLine.parse` makes of the words
ahead (`reads_parse`): for any command line, table of letters and table of long names. In
particular the calls come to an end, and no call moves a pointer beyond its string or
reads `nargv` beyond its terminating null pointer.
-/

namespace CrcPP

open CommandLine

variable {nargv : List Word} {ostr : List Char} {long_options : List LongOption}

/-! ### The grammar -/

/-- The option of a letter: a colon behind it in `ostr` says that it takes an argument. -/
def shortOption (ostr : List Char) (c : Char) : Option (Char × Bool) :=
  (if c = ':' then none else strchr ostr c).map fun oli => (c, oli.head? = some ':')

/-- Whether an option takes an argument. -/
def HasArg.arity : HasArg → Arity
  | no_argument => .none
  | required_argument => .required
  | optional_argument => .optional

/-- The option that a text names: the one with that name, or else the first one whose
name begins with the text. -/
def findLong (long_options : List LongOption) (name : Word) : Option LongOption :=
  (long_options.find? (·.name = name)).or (long_options.find? (name <+: ·.name))

/-- What is returned for a long option: a null character when `val` has been stored. -/
def LongOption.returned (o : LongOption) : Char :=
  match o.flag with
  | some _ => Char.ofNat 0
  | none => o.val

/-- The grammar of the tables that `getopt_long` is given. -/
def getoptGrammar (ostr : List Char) (long_options : List LongOption) : Grammar Char where
  short := shortOption ostr
  long name := (findLong long_options name).map fun o => (o.returned, o.has_arg.arity)

/-- What a call hands out for an item. Where an option takes no argument, nothing is said
about `optarg`. -/
inductive HandedOut : Item Char → Char → Option Word → Prop
  | flag (c : Char) (optarg : Option Word) : HandedOut (.opt c none) c optarg
  | value (c : Char) (arg : Word) : HandedOut (.opt c (some arg)) c (some arg)
  | unknown (optarg : Option Word) : HandedOut .unknown '?' optarg
  | missing (optarg : Option Word) : HandedOut .missing ':' optarg

/-- Nothing has been written, and nothing will be. -/
structure Getopt.Quiet (g : Getopt) : Prop where
  opterr : g.opterr = false
  stderr : g.stderr = []

/-- **What the calls from a state on hand out**, up to the one that returns -1, and the
operands that are left then. -/
inductive Reads (nargv : List Word) (ostr : List Char) (long_options : List LongOption) :
    Getopt → List (Item Char) → List Word → Prop
  | done {g g' : Getopt} {ops : List Word} :
      getoptLong nargv ostr long_options g = some (.minusOne, g') → g'.Quiet →
      nargv.drop g'.optind = ops → Reads nargv ostr long_options g [] ops
  | call {g g' : Getopt} {i : Item Char} {c : Char} {is : List (Item Char)} {ops : List Word} :
      getoptLong nargv ostr long_options g = some (.char c, g') → g'.Quiet →
      HandedOut i c g'.optarg → Reads nargv ostr long_options g' is ops →
      Reads nargv ostr long_options g (i :: is) ops

/-- Only the next call matters. -/
theorem Reads.congr {g h : Getopt} {is : List (Item Char)} {ops : List Word}
    (heq : getoptLong nargv ostr long_options g = getoptLong nargv ostr long_options h)
    (hr : Reads nargv ostr long_options h is ops) : Reads nargv ostr long_options g is ops := by
  cases hr with
  | done hcall hq hops => exact .done (heq.trans hcall) hq hops
  | call hcall hq hout hrest => exact .call (heq.trans hcall) hq hout hrest

theorem Getopt.complain_of_quiet {g : Getopt} (h : g.opterr = false) (message : String)
    (what : Word) : g.complain nargv ostr message what = g := by
  rw [Getopt.complain, h]
  exact if_neg fun hc => Bool.false_ne_true hc.1

theorem argument_of_lt {i : Nat} (h : i < nargv.length) :
    argument nargv i = some (some nargv[i]) := by
  rw [argument, if_pos (Nat.le_of_lt h), List.getElem?_eq_getElem h]

theorem argument_length : argument nargv nargv.length = some none := by
  rw [argument, if_pos (Nat.le_refl _), List.getElem?_eq_none (Nat.le_refl _)]

/-- The next word. -/
theorem argument_of_drop {i : Nat} {w : Word} {ws : List Word} (h : nargv.drop i = w :: ws) :
    argument nargv i = some (some w) ∧ nargv.drop (i + 1) = ws ∧ i < nargv.length := by
  have hlt : i < nargv.length := by
    by_contra hge
    rw [List.drop_eq_nil_of_le (Nat.not_lt.mp hge)] at h
    cases h
  rw [List.drop_eq_getElem_cons hlt] at h
  obtain ⟨hw, hws⟩ := List.cons.inj h
  exact ⟨by rw [argument_of_lt hlt, hw], hws, hlt⟩

/-! ### Looking up a long name -/

/-- A name begins with the compared part of a text. -/
theorem strncmpEq_eq {text name : Word} (o : Word) (h : name <+: text) :
    strncmpEq text o name.length = decide (name <+: o) := by
  rw [strncmpEq, ← List.prefix_iff_eq_take.mp h, Bool.eq_iff_iff, decide_eq_true_iff,
    decide_eq_true_iff, List.prefix_iff_eq_take]

/-- The loop ends with the index of the option that the text names. -/
theorem matchLoop_eq {text name : Word} (h : name <+: text) (longs : List LongOption) (i : Nat)
    (found : Option Nat) :
    matchLoop text name.length i longs found =
      (((longs.zipIdx i).find? fun p => decide (p.1.name = name)).map (·.2)).or
        (found.or (((longs.zipIdx i).find? fun p => decide (name <+: p.1.name)).map (·.2))) := by
  induction longs generalizing i found with
  | nil => cases found <;> rfl
  | cons o longs ih =>
      rw [matchLoop, strncmpEq_eq o.name h, List.zipIdx_cons]
      by_cases hbegins : name <+: o.name
      · rw [if_neg (by simpa using hbegins)]
        by_cases hname : o.name = name
        · rw [if_pos (congrArg List.length hname), List.find?_cons_of_pos (by simpa using hname)]
          rfl
        · have hlen : o.name.length ≠ name.length := fun hl =>
            hname (hbegins.eq_of_length hl.symm).symm
          rw [if_neg hlen, ih, List.find?_cons_of_neg (by simpa using hname),
            List.find?_cons_of_pos (l := longs.zipIdx (i + 1)) (by simpa using hbegins),
            Option.or_assoc]
          rfl
      · have hname : o.name ≠ name := fun hn => hbegins (hn ▸ List.prefix_refl _)
        rw [if_pos (by simpa using hbegins), ih, List.find?_cons_of_neg (by simpa using hname),
          List.find?_cons_of_neg (l := longs.zipIdx (i + 1)) (by simpa using hbegins)]

/-- The loop finds the option that the text names. -/
theorem exists_matchLoop {text name : Word} (h : name <+: text) (longs : List LongOption) :
    ∃ found : Option (LongOption × Nat),
      matchLoop text name.length 0 longs none = found.map (·.2) ∧
      findLong longs name = found.map (·.1) ∧ ∀ p ∈ found, longs[p.2]? = some p.1 := by
  have hfst : ∀ p : LongOption → Bool,
      longs.find? p = (longs.zipIdx.find? fun q => p q.1).map (·.1) := by
    intro p
    conv => lhs; rw [← List.zipIdx_map_fst 0 longs, List.find?_map]
    rfl
  refine ⟨(longs.zipIdx.find? fun p => decide (p.1.name = name)).or
    (longs.zipIdx.find? fun p => decide (name <+: p.1.name)), ?_, ?_, ?_⟩
  · rw [matchLoop_eq h, Option.none_or, Option.map_or]
  · rw [findLong, hfst, hfst, Option.map_or]
  · intro p hp
    obtain hp | ⟨-, hp⟩ := Option.or_eq_some_iff.mp hp
    · exact List.mem_zipIdx_iff_getElem?.mp (List.mem_of_find?_eq_some hp)
    · exact List.mem_zipIdx_iff_getElem?.mp (List.mem_of_find?_eq_some hp)

theorem mem_of_findLong {name : Word} {o : LongOption} (h : findLong long_options name = some o) :
    o ∈ long_options := by
  obtain h | ⟨-, h⟩ := Option.or_eq_some_iff.mp h
  · exact List.mem_of_find?_eq_some h
  · exact List.mem_of_find?_eq_some h

/-! ### The letters of a word -/

/-- The place is between two words, in front of `ws`. -/
structure Between (nargv : List Word) (g : Getopt) (ws : List Word) : Prop where
  quiet : g.Quiet
  optreset : g.optreset = false
  place : g.place = []
  drop : nargv.drop g.optind = ws

/-- The place is in front of the letters `cs` of the word `w`. -/
structure Within (nargv : List Word) (g : Getopt) (cs : List Char) (w : Word)
    (ws : List Word) : Prop where
  quiet : g.Quiet
  optreset : g.optreset = false
  place : g.place = cs
  drop : nargv.drop g.optind = w :: ws

theorem getoptLong_of_letter {g g' : Getopt} {r : Retval} (hreset : g.optreset = false)
    (hplace : g.place ≠ []) (h : getoptLetter nargv ostr g = some (r, g')) (hr : r ≠ .minusTwo) :
    getoptLong nargv ostr long_options g = some (r, g') := by
  have hinternal : getoptInternal nargv ostr g = some (r, g') := by
    rw [getoptInternal, if_neg (by simp [hreset, hplace]), h]
  rw [getoptLong, hinternal]
  exact if_neg hr

theorem shortOption_eq_none {c : Char} :
    shortOption ostr c = none ↔ (if c = ':' then none else strchr ostr c) = none :=
  Option.map_eq_none_iff

theorem shortOption_eq_some {c d : Char} {b : Bool} :
    shortOption ostr c = some (d, b) ↔
      ∃ oli, (if c = ':' then none else strchr ostr c) = some oli ∧ c = d ∧
        decide (oli.head? = some ':') = b := by
  rw [shortOption, Option.map_eq_some_iff]
  simp

section Letter

variable {g : Getopt} {c : Char} {cs : List Char}

theorem getoptLetter_dash (hplace : g.place = '-' :: cs) (h : shortOption ostr '-' = none) :
    getoptLetter nargv ostr g = some (.minusOne, { g with optopt := '-', place := cs }) := by
  rw [getoptLetter, hplace]
  dsimp only
  rw [shortOption_eq_none.mp h]
  exact if_pos rfl

/-- A letter that takes no argument is passed by, and the word with it when it was its last. -/
def Getopt.passLetter (g : Getopt) (c : Char) (cs : List Char) : Getopt :=
  { g with optopt := c, place := cs, optind := if cs = [] then g.optind + 1 else g.optind }

theorem getoptLetter_unknown (hq : g.Quiet) (hplace : g.place = c :: cs)
    (h : shortOption ostr c = none) (hc : c ≠ '-') :
    getoptLetter nargv ostr g = some (BADCH, g.passLetter c cs) := by
  rw [getoptLetter, hplace]
  dsimp only
  rw [shortOption_eq_none.mp h]
  dsimp only
  rw [if_neg hc, Getopt.passLetter]
  split
  · rw [Getopt.complain_of_quiet (by exact hq.opterr)]
  · rw [Getopt.complain_of_quiet (by exact hq.opterr)]

theorem getoptLetter_flag (hplace : g.place = c :: cs) (h : shortOption ostr c = some (c, false)) :
    getoptLetter nargv ostr g =
      some (.char c, { g.passLetter c cs with optarg := none }) := by
  obtain ⟨oli, hmatch, -, hb⟩ := shortOption_eq_some.mp h
  rw [getoptLetter, hplace]
  dsimp only
  rw [hmatch]
  dsimp only
  rw [if_pos (of_decide_eq_false hb), Getopt.passLetter]
  split <;> rfl

theorem getoptLetter_attached (hplace : g.place = c :: cs)
    (h : shortOption ostr c = some (c, true)) (hne : cs ≠ []) :
    getoptLetter nargv ostr g = some (.char c,
      { g with optopt := c, optarg := some cs, place := [], optind := g.optind + 1 }) := by
  obtain ⟨oli, hmatch, -, hb⟩ := shortOption_eq_some.mp h
  rw [getoptLetter, hplace]
  dsimp only
  rw [hmatch]
  dsimp only
  rw [if_neg (not_not_intro (of_decide_eq_true hb)), if_pos hne]

theorem getoptLetter_separate {v : Word} {ws : List Word} (hplace : g.place = [c])
    (h : shortOption ostr c = some (c, true)) (hdrop : nargv.drop (g.optind + 1) = v :: ws) :
    getoptLetter nargv ostr g = some (.char c,
      { g with optopt := c, optarg := some v, place := [], optind := g.optind + 1 + 1 }) := by
  obtain ⟨oli, hmatch, -, hb⟩ := shortOption_eq_some.mp h
  obtain ⟨harg, -, hlt⟩ := argument_of_drop hdrop
  rw [getoptLetter, hplace]
  dsimp only
  rw [hmatch]
  dsimp only
  rw [if_neg (not_not_intro (of_decide_eq_true hb)), if_neg (by simp),
    if_neg (Nat.not_le.mpr hlt), harg]
  rfl

theorem getoptLetter_missing (hq : g.Quiet) (hplace : g.place = [c])
    (h : shortOption ostr c = some (c, true)) (hdrop : nargv.drop (g.optind + 1) = []) :
    getoptLetter nargv ostr g = some (BADARG,
      { g with optopt := c, place := [], optind := g.optind + 1 }) := by
  obtain ⟨oli, hmatch, -, hb⟩ := shortOption_eq_some.mp h
  rw [getoptLetter, hplace]
  dsimp only
  rw [hmatch]
  dsimp only
  rw [if_neg (not_not_intro (of_decide_eq_true hb)), if_neg (by simp),
    if_pos (List.drop_eq_nil_iff.mp hdrop), Getopt.complain_of_quiet (by exact hq.opterr)]

end Letter

/-- Reading on from a state, as the grammar says. -/
def ReadsOn (nargv : List Word) (ostr : List Char) (long_options : List LongOption) (g : Getopt)
    (read : List (Item Char) × List Word) : Prop :=
  Reads nargv ostr long_options g read.1 read.2

/-- A letter that takes an argument ends its word, whether the argument is attached, in the
next word or missing. -/
theorem reads_argument {w : Word} {ws : List Word} {c : Char} {cs : List Char} {g : Getopt}
    (hshort : shortOption ostr c = some (c, true)) (hg : Within nargv g (c :: cs) w ws)
    (hrest : ∀ ws', (letters (getoptGrammar ostr long_options) w (c :: cs) ws).2 = .more ws' →
      ∀ g', Between nargv g' ws' →
        ReadsOn nargv ostr long_options g' (parse (getoptGrammar ostr long_options) ws')) :
    ReadsOn nargv ostr long_options g
      (resume (getoptGrammar ostr long_options)
        (letters (getoptGrammar ostr long_options) w (c :: cs) ws)) := by
  obtain ⟨hquiet, hreset, hplace, hdrop⟩ := hg
  have hplace' : g.place ≠ [] := hplace ▸ List.cons_ne_nil c cs
  have hdrop' := (argument_of_drop hdrop).2.1
  by_cases hcs : cs = []
  · subst hcs
    cases ws with
    | nil =>
        have hl := letters_missing (G := getoptGrammar ostr long_options) w hshort
        have hon := hrest [] (congrArg Prod.snd hl)
          { g with optopt := c, place := [], optind := g.optind + 1 }
          ⟨⟨hquiet.1, hquiet.2⟩, hreset, rfl, hdrop'⟩
        rw [hl, resume_more]
        exact .call (getoptLong_of_letter hreset hplace'
          (getoptLetter_missing hquiet hplace hshort hdrop') (by decide))
          ⟨hquiet.1, hquiet.2⟩ (.missing _) hon
    | cons v ws =>
        have hl := letters_separate (G := getoptGrammar ostr long_options) w ws hshort v
        have hon := hrest ws (congrArg Prod.snd hl) { g with
            optopt := c, optarg := some v, place := [], optind := g.optind + 1 + 1 }
          ⟨⟨hquiet.1, hquiet.2⟩, hreset, rfl, (argument_of_drop hdrop').2.1⟩
        rw [hl, resume_more]
        exact .call (getoptLong_of_letter hreset hplace'
          (getoptLetter_separate hplace hshort hdrop') (by simp))
          ⟨hquiet.1, hquiet.2⟩ (.value _ _) hon
  · have hl := letters_attached (G := getoptGrammar ostr long_options) w cs ws hshort hcs
    have hon := hrest ws (congrArg Prod.snd hl)
      { g with optopt := c, optarg := some cs, place := [], optind := g.optind + 1 }
      ⟨⟨hquiet.1, hquiet.2⟩, hreset, rfl, hdrop'⟩
    rw [hl, resume_more]
    exact .call (getoptLong_of_letter hreset hplace'
      (getoptLetter_attached hplace hshort hcs) (by simp))
      ⟨hquiet.1, hquiet.2⟩ (.value _ _) hon

/-- **From in front of letters on**, when it is clear what follows behind them. -/
theorem reads_letters {w : Word} {ws : List Word} {cs : List Char} (hne : cs ≠ []) {g : Getopt}
    (hg : Within nargv g cs w ws)
    (hrest : ∀ ws', (letters (getoptGrammar ostr long_options) w cs ws).2 = .more ws' →
      ∀ g', Between nargv g' ws' →
        ReadsOn nargv ostr long_options g' (parse (getoptGrammar ostr long_options) ws')) :
    ReadsOn nargv ostr long_options g
      (resume (getoptGrammar ostr long_options)
        (letters (getoptGrammar ostr long_options) w cs ws)) := by
  induction cs generalizing g with
  | nil => exact absurd rfl hne
  | cons c cs ih =>
      obtain ⟨hquiet, hreset, hplace, hdrop⟩ := hg
      have hplace' : g.place ≠ [] := hplace ▸ List.cons_ne_nil c cs
      have hdrop' := (argument_of_drop hdrop).2.1
      -- behind a letter that takes no argument there are further letters, or the next word
      have hnext : (letters (getoptGrammar ostr long_options) w (c :: cs) ws).2 =
            (letters (getoptGrammar ostr long_options) w cs ws).2 →
          ∀ optarg, ReadsOn nargv ostr long_options { g.passLetter c cs with optarg := optarg }
            (resume (getoptGrammar ostr long_options)
              (letters (getoptGrammar ostr long_options) w cs ws)) := by
        intro hmore optarg
        by_cases hcs : cs = []
        · subst hcs
          exact hrest ws hmore _ ⟨⟨hquiet.1, hquiet.2⟩, hreset, rfl, hdrop'⟩
        · refine ih hcs ⟨⟨hquiet.1, hquiet.2⟩, hreset, rfl, ?_⟩
            fun ws' h => hrest ws' (hmore.trans h)
          rw [Getopt.passLetter, if_neg hcs]
          exact hdrop
      cases hshort : shortOption ostr c with
      | none =>
          by_cases hdash : c = '-'
          · subst hdash
            rw [letters_dash (G := getoptGrammar ostr long_options) _ _ _ hshort]
            exact .done (getoptLong_of_letter hreset hplace' (getoptLetter_dash hplace hshort)
              (by simp)) ⟨hquiet.1, hquiet.2⟩ hdrop
          · have hl := letters_unknown (G := getoptGrammar ostr long_options) w cs ws hshort hdash
            rw [hl, ← List.singleton_append, resume_append]
            exact .call (getoptLong_of_letter hreset hplace'
              (getoptLetter_unknown hquiet hplace hshort hdash) (by decide))
              ⟨hquiet.1, hquiet.2⟩ (.unknown _) (hnext (by rw [hl]) _)
      | some p =>
          obtain ⟨d, b⟩ := p
          obtain rfl : c = d := (shortOption_eq_some.mp hshort).choose_spec.2.1
          cases b with
          | false =>
              have hl := letters_flag (G := getoptGrammar ostr long_options) w cs ws hshort
              rw [hl, ← List.singleton_append, resume_append]
              exact .call (getoptLong_of_letter hreset hplace' (getoptLetter_flag hplace hshort)
                (by simp)) ⟨hquiet.1, hquiet.2⟩ (.flag _ _) (hnext (by rw [hl]) _)
          | true => exact reads_argument hshort ⟨hquiet, hreset, hplace, hdrop⟩ hrest

/-! ### Whole words -/

section Words

variable {g : Getopt} {w : Word} {ws : List Word}

/-- `getopt_internal` between two words, by what the next word is. -/
theorem getoptInternal_word (ostr : List Char) (hg : Between nargv g (w :: ws)) :
    getoptInternal nargv ostr g =
      match kind w with
      | .operand => some (.minusOne, g)
      | .separator | .long _ => some (.minusTwo, g)
      | .letters cs => getoptLetter nargv ostr { g with place := cs } := by
  obtain ⟨hquiet, hreset, hplace, hdrop⟩ := hg
  obtain ⟨harg, -, hlt⟩ := argument_of_drop hdrop
  have hself : { g with optreset := false, place := [] } = g := by rw [← hreset, ← hplace]
  have hletters : ∀ cs, { g with optreset := false, place := cs } = { g with place := cs } := by
    intro cs
    rw [← hreset]
  rw [getoptInternal, if_pos (Or.inr hplace)]
  dsimp only
  rw [if_neg (Nat.not_le.mpr hlt), harg]
  cases w with
  | nil => exact congrArg (fun g => some (Retval.minusOne, g)) hself
  | cons c cs =>
      by_cases hc : c = '-'
      · subst hc
        cases cs with
        | nil => exact congrArg (getoptLetter nargv ostr) (hletters ['-'])
        | cons d cs =>
            by_cases hd : d = '-'
            · subst hd
              refine (congrArg (fun g => some (Retval.minusTwo, g)) hself).trans ?_
              cases cs <;> rfl
            · simp [kind, hd, hletters]
      · simp [kind, hc, hself]

theorem getoptLong_of_internal {r : Retval} {g' : Getopt}
    (h : getoptInternal nargv ostr g = some (r, g')) (hr : r ≠ .minusTwo) :
    getoptLong nargv ostr long_options g = some (r, g') := by
  rw [getoptLong, h]
  exact if_neg hr

theorem getoptLong_of_minusTwo (h : getoptInternal nargv ostr g = some (.minusTwo, g)) :
    getoptLong nargv ostr long_options g = getoptName nargv ostr long_options g := by
  rw [getoptLong, h]
  rfl

/-- At the end of the command line. -/
theorem getoptLong_end (hg : Between nargv g []) :
    getoptLong nargv ostr long_options g = some (.minusOne, g) := by
  obtain ⟨hquiet, hreset, hplace, hdrop⟩ := hg
  have hself : { g with optreset := false, place := [] } = g := by rw [← hreset, ← hplace]
  have hinternal : getoptInternal nargv ostr g = some (.minusOne, g) := by
    rw [getoptInternal, if_pos (Or.inr hplace)]
    dsimp only
    rw [if_pos (List.drop_eq_nil_iff.mp hdrop)]
    exact congrArg (fun g => some (Retval.minusOne, g)) hself
  exact getoptLong_of_internal hinternal (by decide)

/-- What stands behind the first `=`, if there is one. -/
theorem strchr_eq (text : Word) (c : Char) :
    strchr text c = (text.dropWhile (· ≠ c)).tail? := by
  rw [strchr]
  cases text.dropWhile (· ≠ c) <;> rfl

theorem HasArg.arity_eq_none {a : HasArg} : a.arity = .none ↔ a = .no_argument := by
  cases a <;> decide

theorem HasArg.arity_eq_required {a : HasArg} : a.arity = .required ↔ a = .required_argument := by
  cases a <;> decide

/-- Behind an option's argument there is nothing but storing the value. -/
theorem getoptMatch_of_argument (ostr : List Char) {text : Word} {o : LongOption} (i : Nat)
    {has_equal : Option Word} (hstr : strchr text '=' = has_equal) {g₁ : Getopt}
    (harg : longArgument nargv o has_equal g = some g₁)
    (h : ¬ (o.has_arg = .required_argument ∧ g₁.optarg = none)) :
    ∃ flags, getoptMatch nargv ostr text o i g =
      some (.char o.returned, { g₁ with flags := flags, index := i }) := by
  rw [getoptMatch, hstr, harg]
  dsimp only [bind, Option.bind]
  rw [if_neg h, LongOption.returned]
  cases o.flag with
  | none => exact ⟨g₁.flags, rfl⟩
  | some p => exact ⟨Function.update g₁.flags p o.val, rfl⟩

section Argument

variable {o : LongOption} (h : o.has_arg ≠ .no_argument)

include h

theorem longArgument_value (g : Getopt) (value : Word) :
    longArgument nargv o (some value) g = some { g with optarg := some value } := by
  unfold longArgument
  cases ho : o.has_arg with
  | no_argument => exact absurd ho h
  | required_argument => rfl
  | optional_argument => rfl

theorem longArgument_next {g : Getopt} {optarg : Option Word}
    (hnext : argument nargv g.optind = some optarg) :
    longArgument nargv o none g = some { g with optarg := optarg, optind := g.optind + 1 } := by
  unfold longArgument
  rw [hnext]
  cases ho : o.has_arg with
  | no_argument => exact absurd ho h
  | required_argument => rfl
  | optional_argument => rfl

end Argument

/-- A required argument that is not there. -/
theorem getoptMatch_missing (ostr : List Char) {text : Word} {o : LongOption} (i : Nat)
    {has_equal : Option Word} (hstr : strchr text '=' = has_equal) {g₁ : Getopt}
    (harg : longArgument nargv o has_equal g = some g₁)
    (hreq : o.has_arg = .required_argument) (hnone : g₁.optarg = none) (hq : g₁.opterr = false) :
    getoptMatch nargv ostr text o i g = some (BADARG, g₁) := by
  rw [getoptMatch, hstr, harg]
  dsimp only [bind, Option.bind]
  rw [if_pos ⟨hreq, hnone⟩, Getopt.complain_of_quiet hq]
  rfl

/-- A matching option, in front of the words `ws`. -/
theorem exists_getoptMatch (hg : Between nargv g ws) (hle : g.optind ≤ nargv.length) {text : Word}
    {o : LongOption} (i : Nat)
    (ho : findLong long_options (text.takeWhile (· ≠ '=')) = some o) :
    ∃ c g', getoptMatch nargv ostr text o i g = some (.char c, g') ∧
      HandedOut (longOption (getoptGrammar ostr long_options) text ws).1 c g'.optarg ∧
      Between nargv g' (longOption (getoptGrammar ostr long_options) text ws).2 := by
  obtain ⟨hq, hreset, hplace, hdrop⟩ := hg
  have hlong : (getoptGrammar ostr long_options).long (text.takeWhile (· ≠ '=')) =
      some (o.returned, o.has_arg.arity) := congrArg (Option.map _) ho
  by_cases harity : o.has_arg = .no_argument
  · have harg : longArgument nargv o (strchr text '=') g = some g := by
      unfold longArgument
      rw [harity]
      rfl
    obtain ⟨flags, hmatch⟩ := getoptMatch_of_argument ostr i rfl harg (by simp [harity])
    rw [harity] at hlong
    rw [longOption_flag ws hlong]
    exact ⟨_, _, hmatch, .flag _ _, ⟨hq.1, hq.2⟩, hreset, hplace, hdrop⟩
  · have harity' : o.has_arg.arity ≠ .none := fun h => harity (HasArg.arity_eq_none.mp h)
    cases htext : text.dropWhile (· ≠ '=') with
    | cons d value =>
        have hstr : strchr text '=' = some value := by rw [strchr_eq, htext, List.tail?_cons]
        obtain ⟨flags, hmatch⟩ := getoptMatch_of_argument ostr i hstr
          (longArgument_value harity g value) (by simp)
        rw [longOption_attached ws hlong harity' htext]
        exact ⟨_, _, hmatch, .value _ _, ⟨hq.1, hq.2⟩, hreset, hplace, hdrop⟩
    | nil =>
        have hstr : strchr text '=' = none := by rw [strchr_eq, htext, List.tail?_nil]
        cases ws with
        | cons v ws =>
            obtain ⟨hv, hdrop', -⟩ := argument_of_drop hdrop
            obtain ⟨flags, hmatch⟩ := getoptMatch_of_argument ostr i hstr
              (longArgument_next harity hv) (by simp)
            rw [longOption_separate ws hlong harity' htext]
            exact ⟨_, _, hmatch, .value _ _, ⟨hq.1, hq.2⟩, hreset, hplace, hdrop'⟩
        | nil =>
            -- the index is that of the terminating null pointer
            have hend : g.optind = nargv.length :=
              Nat.le_antisymm hle (List.drop_eq_nil_iff.mp hdrop)
            have hargument : argument nargv g.optind = some none := by rw [hend, argument_length]
            have hdrop' : nargv.drop (g.optind + 1) = [] :=
              List.drop_eq_nil_of_le (hend ▸ Nat.le_succ _)
            have harg := longArgument_next harity hargument
            rw [longOption_end hlong harity' htext]
            by_cases hreq : o.has_arg = .required_argument
            · rw [if_pos (HasArg.arity_eq_required.mpr hreq)]
              exact ⟨_, _, getoptMatch_missing ostr i hstr harg hreq rfl hq.1, .missing _,
                ⟨hq.1, hq.2⟩, hreset, hplace, hdrop'⟩
            · obtain ⟨flags, hmatch⟩ := getoptMatch_of_argument ostr i hstr harg fun h => hreq h.1
              rw [if_neg fun h => hreq (HasArg.arity_eq_required.mp h)]
              exact ⟨_, _, hmatch, .flag _ _, ⟨hq.1, hq.2⟩, hreset, hplace, hdrop'⟩

/-- A long name, and what stands behind it. -/
theorem exists_getoptName (ostr : List Char) (long_options : List LongOption) {text : Word}
    (hg : Between nargv g (w :: ws)) (hw : kind w = .long text) :
    ∃ c g', getoptName nargv ostr long_options g = some (.char c, g') ∧
      HandedOut (longOption (getoptGrammar ostr long_options) text ws).1 c g'.optarg ∧
      Between nargv g' (longOption (getoptGrammar ostr long_options) text ws).2 := by
  obtain ⟨hq, hreset, hplace, hdrop⟩ := hg
  obtain ⟨rfl, hne⟩ := eq_of_kind_long hw
  obtain ⟨harg, hdrop', hlt⟩ := argument_of_drop hdrop
  obtain ⟨found, hloop, hfind, hindex⟩ :=
    exists_matchLoop (List.takeWhile_prefix (l := text) (· ≠ '=')) long_options
  cases found with
  | none =>
      have hstep : getoptName nargv ostr long_options g = some (BADCH,
          { g with optind := g.optind + 1 }.complain nargv ostr "illegal option" text) := by
        rw [getoptName, harg]
        exact (if_neg hne).trans (by rw [hloop]; rfl)
      have hlong : (getoptGrammar ostr long_options).long (text.takeWhile (· ≠ '=')) = none :=
        congrArg (Option.map _) hfind
      rw [hstep, longOption_unknown ws hlong, Getopt.complain_of_quiet (by exact hq.opterr)]
      exact ⟨_, _, rfl, .unknown _, ⟨hq.1, hq.2⟩, hreset, hplace, hdrop'⟩
  | some p =>
      have hstep : getoptName nargv ostr long_options g =
          getoptMatch nargv ostr text p.1 p.2 { g with optind := g.optind + 1 } := by
        rw [getoptName, harg]
        refine (if_neg hne).trans ?_
        rw [hloop, Option.map_some]
        dsimp only
        rw [hindex p rfl]
        rfl
      have hbetween : Between nargv { g with optind := g.optind + 1 } ws :=
        ⟨⟨hq.1, hq.2⟩, hreset, hplace, hdrop'⟩
      rw [hstep]
      exact exists_getoptMatch hbetween hlt p.2 hfind

/-- The separator is passed by. -/
theorem getoptName_separator (hg : Between nargv g (w :: ws)) (hw : kind w = .separator) :
    getoptName nargv ostr long_options g = some (.minusOne, { g with optind := g.optind + 1 }) := by
  obtain ⟨harg, -, -⟩ := argument_of_drop hg.drop
  rw [getoptName, harg, eq_of_kind_separator hw]
  rfl

end Words

/-- **The calls of `getopt_long` read what the grammar says**, from between any two words
on. -/
theorem reads_parse {g : Getopt} {ws : List Word} (hg : Between nargv g ws) :
    ReadsOn nargv ostr long_options g (parse (getoptGrammar ostr long_options) ws) := by
  refine parse_induction (getoptGrammar ostr long_options) (motive := fun ws read =>
    ∀ g, Between nargv g ws → ReadsOn nargv ostr long_options g read) ?_ ?_ ?_ ?_ ?_ ws g hg
  · intro g hg
    exact .done (getoptLong_end hg) hg.quiet hg.drop
  · intro w ws hw g hg
    have hinternal := getoptInternal_word ostr hg
    rw [hw] at hinternal
    exact .done (getoptLong_of_internal hinternal (by decide)) hg.quiet hg.drop
  · intro w ws hw g hg
    have hinternal := getoptInternal_word ostr hg
    rw [hw] at hinternal
    exact .done ((getoptLong_of_minusTwo hinternal).trans (getoptName_separator hg hw))
      ⟨hg.quiet.1, hg.quiet.2⟩ (argument_of_drop hg.drop).2.1
  · intro w text ws hw ih g hg
    have hinternal := getoptInternal_word ostr hg
    rw [hw] at hinternal
    obtain ⟨c, g', hname, hout, hafter⟩ :=
      exists_getoptName ostr long_options hg hw
    exact .call ((getoptLong_of_minusTwo hinternal).trans hname) hafter.quiet hout (ih g' hafter)
  · intro w cs ws hw ih g hg
    have hinternal := getoptInternal_word ostr hg
    rw [hw] at hinternal
    have hcs := ne_nil_of_kind_letters hw
    have hwithin : Within nargv { g with place := cs } cs w ws :=
      ⟨⟨hg.quiet.1, hg.quiet.2⟩, hg.optreset, rfl, hg.drop⟩
    -- the next call reads the first of the letters
    refine Reads.congr ?_ (reads_letters hcs hwithin fun ws' hr g' hg' => ih ws' hr g' hg')
    have hletters : getoptInternal nargv ostr { g with place := cs } =
        getoptLetter nargv ostr { g with place := cs } := by
      rw [getoptInternal, if_neg (by simp [hg.optreset, hcs])]
    rw [getoptLong, getoptLong, hletters, hinternal]

end CrcPP
