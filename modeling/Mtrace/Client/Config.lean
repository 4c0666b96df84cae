import Mathlib.Data.Int.Notation
import Mathlib.Data.List.DropRight
import Mtrace.Orbit

/-!
# The configuration file

`_parse_config`: a loop over the lines of a file, by way of scans that return how far they got.  The
file is what is mapped of it, and reading behind its end is `none`.

The manual says what a line means (`Line.entries`); `parseConfig_iff` says for which files the
parser does the same. -/

namespace Mtrace.Client

/-! ## Scans -/

/-- `'\n'` and `'\r'`. -/
def isNl (b : UInt8) : Bool := b == 10 || b == 13

/-- `' '` and `'\t'`. -/
def isBlank (b : UInt8) : Bool := b == 32 || b == 9

/-- A loop over at most so many characters from `p` on, as long as they are `go`. -/
def scan (buf : List UInt8) (go : UInt8 → Bool) : ℕ → ℕ → Option ℕ
  | _, 0 => some 0
  | p, n + 1 => do
    if go (← buf[p]?) then return (← scan buf go (p + 1) n) + 1 else return 0

/-- `skip_nl`. -/
def skipNl (buf : List UInt8) (p n : ℕ) : Option ℕ := scan buf isNl p n

/-- `get_line`. -/
def getLine (buf : List UInt8) (p n : ℕ) : Option ℕ := scan buf (fun b => !isNl b) p n

/-- `skip_space`. -/
def skipSpace (buf : List UInt8) (p n : ℕ) : Option ℕ := scan buf isBlank p n

/-- `trim_space`. -/
def trimSpace (buf : List UInt8) (p : ℕ) : ℕ → Option ℕ
  | 0 => some 0
  | c + 1 => do if isBlank (← buf[p + c]?) then trimSpace buf p c else return c + 1

/-- `cmp_n`, which stands at the `c`-th character of both strings. -/
def cmpN (buf : List UInt8) (p : ℕ) : List UInt8 → ℕ → ℕ → Option ℕ
  | _, 0, _ => some 0
  | [], _ + 1, c => do return if isBlank (← buf[p + c]?) then c else 0
  | s :: str, n + 1, c => do
    if (← buf[p + c]?) ≠ s then return 0 else cmpN buf p str n (c + 1)

/-- `strndup`: up to a NUL, and at most `n` characters. -/
def strndup (buf : List UInt8) : ℕ → ℕ → Option (List UInt8)
  | _, 0 => some []
  | p, n + 1 => do
    let b ← buf[p]?
    if b = 0 then return [] else return b :: (← strndup buf (p + 1) n)

/-- A string that a NUL ends. -/
def untilNul : List UInt8 → Option (List UInt8)
  | [] => none
  | b :: bs => do if b = 0 then return [] else return b :: (← untilNul bs)

/-- `%.*s` with the precision `(int)l`; one below 0 counts as none. -/
def printed (buf : List UInt8) (p l : ℕ) : Option (List UInt8) :=
  let prec := (BitVec.ofNat 32 l).toInt
  if prec < 0 then untilNul (buf.drop p) else strndup buf p prec.toNat

/-! ## The parser -/

/-- What the parser does for a line: `add_ignore_regex` or a message. -/
inductive Parsed where
  | ignoreRegex (regex : List UInt8)
  | invalidLine (text : List UInt8)
  deriving DecidableEq, Repr

/-- "ignore". -/
def ignoreStr : List UInt8 := [105, 103, 110, 111, 114, 101]

/-- A line that is no comment, behind its leading blanks. -/
def parseLine (buf : List UInt8) (p l : ℕ) : Option (List Parsed) := do
  let c ← cmpN buf p ignoreStr l 0
  if c ≠ 0 then
    let c := c + (← skipSpace buf (p + c) (l - c))
    if c ≠ l then
      return [.ignoreRegex (← strndup buf (p + c) (← trimSpace buf (p + c) (l - c)))]
    else return []
  else return [.invalidLine (← printed buf p l)]

/-- The local variables of `_parse_config`, and what it has done. -/
structure ParseState where
  p : ℕ
  n : ℕ
  out : List Parsed

/-- A pass of the loop, and whether it goes on. -/
def parsePass (buf : List UInt8) (x : ParseState) : Option (ParseState × Bool) := do
  let c ← skipNl buf x.p x.n
  let p := x.p + c
  let n := x.n - c
  if n = 0 then return (⟨p, n, x.out⟩, false)
  else
    let l ← getLine buf p n
    let c ← skipSpace buf p l
    let p := p + c
    let n := n - c
    let l := l - c
    if n = 0 then return (⟨p, n, x.out⟩, false)
    else
      -- `'#'`
      let out ← if (← buf[p]?) ≠ 35 then parseLine buf p l else some []
      return (⟨p + l, n - l, x.out ++ out⟩, n - l ≠ 0)

/-- `_parse_config` as a machine; it ends with what it has done, or with a read behind the end. -/
def parseStep (buf : List UInt8) (x : ParseState) : ParseState ⊕ Option (List Parsed) :=
  match parsePass buf x with
  | some (y, true) => .inl y
  | some (y, false) => .inr (some y.out)
  | none => .inr none

/-! ## The manual -/

/-- The lines of a file, each with what is behind it. -/
def lines : List UInt8 → List (List UInt8 × List UInt8)
  | [] => [([], [])]
  | b :: bs =>
    if isNl b then ([], b :: bs) :: lines bs
    else
      match lines bs with
      | (line, behind) :: more => (b :: line, behind) :: more
      | [] => []

/-- What a line stands for: a regular expression, or nothing that the language knows. -/
inductive Entry where
  | ignore (regex : List UInt8)
  | invalid
  deriving DecidableEq, Repr

/-- The text without the blanks at both ends. -/
def trim (text : List UInt8) : List UInt8 := (text.dropWhile isBlank).rdropWhile isBlank

/-- The word and what is behind it. -/
def lineEntries (line : List UInt8) : List Entry :=
  let text := line.dropWhile isBlank
  if text = [] ∨ text.head? = some 35 then []
  else if text.takeWhile (fun b => !isBlank b) = ignoreStr then
    let regex := trim (text.dropWhile fun b => !isBlank b)
    if regex = [] then [] else [.ignore regex]
  else [.invalid]

/-- The entries of a file, in their order. -/
def fileEntries (buf : List UInt8) : List Entry := (lines buf).flatMap fun x => lineEntries x.1

def Parsed.entry : Parsed → Entry
  | .ignoreRegex regex => .ignore regex
  | .invalidLine _ => .invalid

/-! ## What the scans find -/

section Scans

variable {buf s t : List UInt8} {p c : ℕ} {b : UInt8}

theorem of_prefix_cons (h : b :: s <+: buf.drop p) : buf[p]? = some b ∧ s <+: buf.drop (p + 1) := by
  obtain ⟨rest, hrest⟩ := h
  have hp : (buf.drop p)[0]? = buf[p + 0]? := List.getElem?_drop
  rw [← hrest, Nat.add_zero] at hp
  have htail := List.tail_drop (l := buf) (i := p)
  rw [← hrest] at htail
  exact ⟨hp.symm, rest, htail⟩

theorem prefix_right (h : s ++ t <+: buf.drop p) : t <+: buf.drop (p + s.length) := by
  obtain ⟨rest, hrest⟩ := h
  refine ⟨rest, ?_⟩
  rw [← List.drop_drop, ← hrest, List.append_assoc, List.drop_left]

theorem prefix_left (h : s ++ t <+: buf.drop p) : s <+: buf.drop p :=
  (List.prefix_append s t).trans h

/-- A scan is over what it goes on for. -/
theorem scan_eq (go : UInt8 → Bool) (h : s <+: buf.drop p) :
    scan buf go p s.length = some (s.takeWhile go).length := by
  induction s generalizing p with
  | nil => rfl
  | cons b s ih =>
    obtain ⟨hb, hs⟩ := of_prefix_cons h
    rw [List.length_cons, scan, hb, List.takeWhile_cons]
    cases hgo : go b with
    | true => simp [hgo, ih hs]
    | false => simp [hgo]

theorem trimSpace_eq (h : s <+: buf.drop p) :
    trimSpace buf p s.length = some (s.rdropWhile isBlank).length := by
  induction s using List.reverseRecOn with
  | nil => rfl
  | append_singleton s b ih =>
    have hb := (of_prefix_cons (prefix_right h)).1
    rw [List.length_append, List.length_singleton, trimSpace, hb, List.rdropWhile_concat]
    cases hblank : isBlank b with
    | true => simp [hblank, ih (prefix_left h)]
    | false => simp [hblank]

theorem not_isBlank_ignoreStr : ∀ b ∈ ignoreStr, isBlank b = false := by
  have hall : ignoreStr.all (fun b => !isBlank b) = true := by decide
  intro b hb
  simpa using List.all_eq_true.mp hall b hb

/-- The word is found with a blank behind it. -/
theorem cmpN_eq {str : List UInt8} (hstr : ∀ b ∈ str, isBlank b = false)
    (h : s <+: buf.drop (p + c)) : cmpN buf p str s.length c =
      some (if s.takeWhile (fun b => !isBlank b) = str ∧ s ≠ str then c + str.length else 0) := by
  induction str generalizing s c with
  | nil =>
    cases s with
    | nil => rfl
    | cons b s =>
      obtain ⟨hb, -⟩ := of_prefix_cons h
      rw [List.length_cons, cmpN, hb, List.takeWhile_cons]
      cases hblank : isBlank b with
      | true => simp [hblank]
      | false => simp [hblank]
  | cons a str ih =>
    cases s with
    | nil => rfl
    | cons b s =>
      obtain ⟨hb, hs⟩ := of_prefix_cons h
      have ha := hstr a List.mem_cons_self
      rw [List.length_cons, cmpN, hb, List.takeWhile_cons]
      by_cases heq : b = a
      · subst heq
        have hih := ih (s := s) (c := c + 1) (fun b hb => hstr b (List.mem_cons_of_mem _ hb))
          (by rw [← Nat.add_assoc]; exact hs)
        simp [ha, hih, Nat.add_assoc, Nat.add_comm 1]
      · cases isBlank b with
        | true => simp [heq]
        | false => simp [heq]

theorem strndup_eq (h : s <+: buf.drop p) :
    strndup buf p s.length = some (s.takeWhile fun b => b != 0) := by
  induction s generalizing p with
  | nil => rfl
  | cons b s ih =>
    obtain ⟨hb, hs⟩ := of_prefix_cons h
    rw [List.length_cons, strndup, hb, List.takeWhile_cons]
    by_cases hzero : b = 0
    · simp [hzero]
    · simp [hzero, ih hs]

theorem isSome_untilNul : (untilNul s).isSome = true ↔ 0 ∈ s := by
  induction s with
  | nil => simp [untilNul]
  | cons b s ih =>
    rw [untilNul]
    by_cases hzero : b = 0
    · simp [hzero]
    · cases hs : untilNul s with
      | none =>
        rw [hs] at ih
        have hnot : 0 ∉ s := fun hmem => Bool.false_ne_true (ih.mpr hmem)
        simp [hzero, Ne.symm hzero, hnot]
      | some text =>
        rw [hs] at ih
        simp [hzero, ih.mp rfl]

/-- A message reads behind the line only where its precision is none, and then up to a NUL. -/
theorem isSome_printed (h : buf.drop p = s ++ t) : (printed buf p s.length).isSome = true ↔
    0 ≤ (BitVec.ofNat 32 s.length).toInt ∨ 0 ∈ s ++ t := by
  unfold printed
  dsimp only
  split
  case isTrue hneg =>
    rw [h, isSome_untilNul]
    exact (or_iff_right (by omega)).symm
  case isFalse hpos =>
    have hle : (BitVec.ofNat 32 s.length).toInt.toNat ≤ s.length := by
      rw [BitVec.toInt_eq_toNat_bmod, BitVec.toNat_ofNat] at hpos ⊢
      have hmod := Nat.mod_le s.length (2 ^ 32)
      have hlt := Nat.mod_lt s.length (by decide : 0 < 2 ^ 32)
      rw [Int.bmod_def] at hpos ⊢
      split at hpos <;> omega
    have htake : s.take (BitVec.ofNat 32 s.length).toInt.toNat <+: buf.drop p := by
      rw [h]
      exact (List.take_prefix _ _).trans (List.prefix_append s t)
    have hread := strndup_eq htake
    rw [List.length_take, Nat.min_eq_left hle] at hread
    rw [hread]
    exact iff_of_true rfl (.inl (by omega))

end Scans

/-! ## Lines -/

/-- A line for which the parser does what the manual says: it is not blank before another one, it is
not the bare word, a regular expression has no NUL, and the text of a message has a length for `int`
or a NUL somewhere behind. -/
def Plain (x : List UInt8 × List UInt8) : Prop :=
  (x.1 ≠ [] → x.1.dropWhile isBlank = [] → x.2 = []) ∧ x.1.dropWhile isBlank ≠ ignoreStr ∧
    (∀ regex, lineEntries x.1 = [.ignore regex] → 0 ∉ regex) ∧
    (lineEntries x.1 = [.invalid] →
      0 ≤ (BitVec.ofNat 32 (x.1.dropWhile isBlank).length).toInt ∨
        0 ∈ x.1.dropWhile isBlank ++ x.2)

/-- What the parser does for a line is what the line stands for. -/
def Means (done : Option (List Parsed)) (entries : List Entry) : Prop :=
  ∃ out, done = some out ∧ out.map Parsed.entry = entries

/-- The parser does no less than the line stands for. -/
def Covers (done : Option (List Parsed)) (entries : List Entry) : Prop :=
  ∀ out, done = some out → entries.length ≤ out.length

section Line

variable {buf line behind text : List UInt8} {p : ℕ}

theorem takeWhile_eq_self_iff_mem {s : List UInt8} :
    (s.takeWhile fun b => b != 0) = s ↔ 0 ∉ s := by
  rw [List.takeWhile_eq_self_iff]
  constructor
  · exact fun h hmem => absurd (h 0 hmem) (by decide)
  · intro h b hb
    rw [bne_iff_ne]
    rintro rfl
    exact h hb

theorem trim_eq_nil_iff : trim text = [] ↔ text.dropWhile isBlank = [] := by
  unfold trim
  constructor
  · intro h
    by_contra hne
    have hblank := List.rdropWhile_eq_nil_iff.mp h _ (List.head_mem hne)
    exact Bool.false_ne_true ((List.head_dropWhile_not isBlank hne).symm.trans hblank)
  · intro h
    rw [h]
    rfl

/-- A line with the word and something behind it. -/
theorem parseLine_word {rest : List UInt8} (hrest : ∃ b r, rest = b :: r ∧ isBlank b = true)
    (h : ignoreStr ++ rest <+: buf.drop p) :
    parseLine buf p (ignoreStr ++ rest).length =
      some (if trim rest = [] then []
        else [.ignoreRegex ((trim rest).takeWhile fun b => b != 0)]) := by
  obtain ⟨b, r, rfl, hb⟩ := hrest
  have hword : (ignoreStr ++ b :: r).takeWhile (fun b => !isBlank b) = ignoreStr := by
    have hstr : ∀ b ∈ ignoreStr, (!isBlank b) = true := fun b hb => by
      rw [not_isBlank_ignoreStr b hb]
      exact rfl
    rw [List.takeWhile_append_of_pos hstr, List.takeWhile_cons_of_neg (by simp [hb]),
      List.append_nil]
  have hcmp := cmpN_eq (c := 0) not_isBlank_ignoreStr h
  rw [if_pos ⟨hword, by simp⟩] at hcmp
  have hspace := scan_eq isBlank (prefix_right h)
  have hsplit : (b :: r).takeWhile isBlank ++ (b :: r).dropWhile isBlank = b :: r :=
    List.takeWhile_append_dropWhile
  set blanks := (b :: r).takeWhile isBlank with hblanks
  set tail := (b :: r).dropWhile isBlank with htail
  have hlen : (ignoreStr ++ b :: r).length - ignoreStr.length = (b :: r).length := by simp
  have hsum : (b :: r).length = blanks.length + tail.length := by
    rw [← hsplit, List.length_append]
  have hbehind : tail <+: buf.drop (p + (ignoreStr.length + blanks.length)) := by
    have hall := prefix_right h
    rw [← hsplit] at hall
    rw [← Nat.add_assoc]
    exact prefix_right hall
  have htrim := trimSpace_eq hbehind
  have hdup : strndup buf (p + (ignoreStr.length + blanks.length)) (trim (b :: r)).length =
      some ((trim (b :: r)).takeWhile fun b => b != 0) :=
    strndup_eq ((List.rdropWhile_prefix isBlank tail).trans hbehind)
  have hends : ignoreStr.length + blanks.length ≠ (ignoreStr ++ b :: r).length ↔ tail ≠ [] := by
    rw [List.length_append, hsum, ne_eq, ne_eq, ← List.length_eq_zero_iff]
    omega
  have hrest : (ignoreStr ++ b :: r).length - (ignoreStr.length + blanks.length) = tail.length := by
    rw [List.length_append, hsum]
    omega
  have hnil : trim (b :: r) = [] ↔ tail = [] := trim_eq_nil_iff
  have hfound : ignoreStr.length ≠ 0 := by decide
  unfold parseLine skipSpace
  simp only [hcmp, Nat.zero_add, Option.bind_eq_bind, Option.bind_some, if_pos hfound, hlen, hspace]
  by_cases hempty : tail = []
  · rw [if_neg fun hne => hends.mp hne hempty, if_pos (hnil.mpr hempty)]
    rfl
  · rw [if_pos (hends.mpr hempty), if_neg fun hn => hempty (hnil.mp hn), hrest, htrim,
      Option.bind_some]
    show (strndup buf _ (trim (b :: r)).length).bind _ = _
    rw [hdup]
    rfl

/-- Any other line. -/
theorem parseLine_other (h : text <+: buf.drop p)
    (hother : ¬ (text.takeWhile (fun b => !isBlank b) = ignoreStr ∧ text ≠ ignoreStr)) :
    parseLine buf p text.length = (printed buf p text.length).map fun t => [.invalidLine t] := by
  have hcmp := cmpN_eq (c := 0) not_isBlank_ignoreStr h
  rw [if_neg hother] at hcmp
  unfold parseLine
  rw [hcmp]
  show (printed buf p text.length).bind _ = _
  cases printed buf p text.length with
  | none => rfl
  | some t => rfl

theorem means_invalid {t : Option (List UInt8)} :
    Means (t.map fun t => [.invalidLine t]) [.invalid] ↔ t.isSome = true := by
  cases t with
  | none => exact iff_of_false (fun ⟨_, h, _⟩ => by cases h) Bool.false_ne_true
  | some t => exact iff_of_true ⟨_, rfl, rfl⟩ rfl

theorem not_means_nil {t : Option (List UInt8)} :
    ¬ Means (t.map fun t => [.invalidLine t]) [] := by
  rintro ⟨out, h, hnil⟩
  rw [List.map_eq_nil_iff] at hnil
  subst hnil
  obtain ⟨_, -, heq⟩ := Option.map_eq_some_iff.mp h
  cases heq

theorem covers_nil (done : Option (List Parsed)) : Covers done [] := fun _ _ => Nat.zero_le _

theorem covers_invalid {t : Option (List UInt8)} :
    Covers (t.map fun t => [.invalidLine t]) [.invalid] := by
  intro out h
  obtain ⟨_, -, rfl⟩ := Option.map_eq_some_iff.mp h
  exact Nat.le_refl 1

/-- The word is what a line begins with, and behind it is nothing or a blank. -/
theorem split_word (hword : text.takeWhile (fun b => !isBlank b) = ignoreStr) :
    ∃ rest, text = ignoreStr ++ rest ∧ text.dropWhile (fun b => !isBlank b) = rest ∧
      (rest ≠ [] → ∃ b r, rest = b :: r ∧ isBlank b = true) := by
  refine ⟨text.dropWhile fun b => !isBlank b, ?_, rfl, fun hne => ?_⟩
  · rw [← hword, List.takeWhile_append_dropWhile]
  · refine ⟨_, _, (List.cons_head_tail hne).symm, ?_⟩
    have hstop := List.head_dropWhile_not (fun b => !isBlank b) hne
    simpa using hstop

/-- A line that stands for nothing is plain, unless it is blank before another one or the bare
word. -/
theorem plain_of_nothing (hblank : line ≠ [] → line.dropWhile isBlank = [] → behind = [])
    (hbare : line.dropWhile isBlank ≠ ignoreStr) (hentries : lineEntries line = []) :
    Plain (line, behind) := by
  refine ⟨hblank, hbare, ?_, ?_⟩
  · intro regex hregex
    cases hentries.symm.trans hregex
  · intro hinvalid
    cases hentries.symm.trans hinvalid

/-- A line with the word. -/
theorem parseLine_means_word (hline : line.dropWhile isBlank = text) (h : text <+: buf.drop p)
    (hfirst : text ≠ [] ∧ text.head? ≠ some 35)
    (hword : text.takeWhile (fun b => !isBlank b) = ignoreStr) :
    (Means (parseLine buf p text.length) (lineEntries line) ↔ Plain (line, behind)) ∧
      Covers (parseLine buf p text.length) (lineEntries line) := by
  obtain ⟨rest, hsplit, hdrop, hblank⟩ := split_word hword
  have hentries : lineEntries line = if trim rest = [] then [] else [.ignore (trim rest)] := by
    unfold lineEntries
    simp only [hline, hdrop, hword, if_true, hfirst.1, hfirst.2, or_self, if_false]
  by_cases hbare : rest = []
  · -- the bare word
    rw [hbare, List.append_nil] at hsplit
    rw [hentries, hbare, parseLine_other h fun hcond => hcond.2 hsplit]
    refine ⟨iff_of_false not_means_nil ?_, covers_nil _⟩
    rintro ⟨-, hnot, -⟩
    exact hnot (hline.trans hsplit)
  · have hnotbare : line.dropWhile isBlank ≠ ignoreStr := by
      intro hword'
      rw [hline, hsplit] at hword'
      exact hbare (List.append_right_eq_self.mp hword')
    rw [hsplit] at h
    have hdone := parseLine_word (hblank hbare) h
    rw [← hsplit] at hdone
    rw [hdone, hentries]
    by_cases hempty : trim rest = []
    · rw [if_pos hempty, if_pos hempty]
      refine ⟨iff_of_true ⟨[], rfl, rfl⟩ ?_, covers_nil _⟩
      exact plain_of_nothing (fun _ hnil => absurd (hline.symm.trans hnil) hfirst.1) hnotbare
        (hentries.trans (if_pos hempty))
    · rw [if_neg hempty, if_neg hempty]
      have hmeans : Means (some [.ignoreRegex ((trim rest).takeWhile fun b => b != 0)])
          [.ignore (trim rest)] ↔ 0 ∉ trim rest := by
        rw [← takeWhile_eq_self_iff_mem]
        constructor
        · rintro ⟨out, hout, heq⟩
          cases hout
          exact Entry.ignore.inj (List.cons.inj heq).1
        · intro heq
          exact ⟨_, rfl, by rw [heq]; rfl⟩
      refine ⟨hmeans.trans ⟨fun hno => ?_, fun hplain => ?_⟩, ?_⟩
      · refine ⟨fun _ hnil => absurd (hline.symm.trans hnil) hfirst.1, hnotbare, ?_, ?_⟩
        · intro regex hregex
          rw [hentries, if_neg hempty] at hregex
          cases hregex
          exact hno
        · intro hinvalid
          rw [hentries, if_neg hempty] at hinvalid
          cases hinvalid
      · exact hplain.2.2.1 _ (hentries.trans (if_neg hempty))
      · intro out hout
        cases hout
        exact Nat.le_refl 1

/-- A line that the language does not know. -/
theorem parseLine_means_other (hline : line.dropWhile isBlank = text)
    (h : buf.drop p = text ++ behind) (hfirst : text ≠ [] ∧ text.head? ≠ some 35)
    (hword : text.takeWhile (fun b => !isBlank b) ≠ ignoreStr) :
    (Means (parseLine buf p text.length) (lineEntries line) ↔ Plain (line, behind)) ∧
      Covers (parseLine buf p text.length) (lineEntries line) := by
  have hentries : lineEntries line = [.invalid] := by
    unfold lineEntries
    simp only [hline, hword, hfirst.1, hfirst.2, or_self, if_false]
  have hprefix : text <+: buf.drop p := by
    rw [h]
    exact List.prefix_append text behind
  rw [parseLine_other hprefix fun hcond => hword hcond.1, hentries, means_invalid, isSome_printed h]
  refine ⟨⟨fun hlen => ?_, fun hplain => ?_⟩, covers_invalid⟩
  · refine ⟨fun _ hnil => absurd (hline.symm.trans hnil) hfirst.1, ?_, ?_, ?_⟩
    · intro hbare
      rw [hline] at hbare
      rw [hbare] at hword
      exact hword (by decide)
    · intro regex hregex
      cases hentries.symm.trans hregex
    · intro _
      dsimp only
      rw [hline]
      exact hlen
  · have hlen := hplain.2.2.2 hentries
    dsimp only at hlen
    rw [hline] at hlen
    exact hlen

/-- A comment. -/
theorem means_comment (behind : List UInt8) (hline : line.dropWhile isBlank = text)
    (hfirst : text.head? = some 35) :
    Means (some []) (lineEntries line) ∧ Plain (line, behind) ∧
    Covers (some []) (lineEntries line) := by
  have hentries : lineEntries line = [] := by
    unfold lineEntries
    simp only [hline, hfirst, or_true, if_true]
  rw [hentries]
  refine ⟨⟨[], rfl, rfl⟩, plain_of_nothing ?_ ?_ hentries, covers_nil _⟩
  · intro _ hnil
    rw [← hline, hnil] at hfirst
    cases hfirst
  · intro hbare
    rw [← hline, hbare] at hfirst
    cases hfirst

/-- A blank line that another one is behind. -/
theorem parseLine_blank (buf : List UInt8) (p : ℕ) (hne : line ≠ [])
    (hline : line.dropWhile isBlank = [])
    (hbehind : behind ≠ []) :
    ¬ Means (parseLine buf p 0) (lineEntries line) ∧ ¬ Plain (line, behind) ∧
      Covers (parseLine buf p 0) (lineEntries line) := by
  have hentries : lineEntries line = [] := by
    unfold lineEntries
    simp only [hline, true_or, if_true]
  have hdone : parseLine buf p ([] : List UInt8).length =
      (printed buf p ([] : List UInt8).length).map fun t => [.invalidLine t] :=
    parseLine_other List.nil_prefix fun hcond => absurd hcond.1 (by decide)
  rw [List.length_nil] at hdone
  rw [hdone, hentries]
  refine ⟨not_means_nil, ?_, covers_nil _⟩
  rintro ⟨hblank, -⟩
  exact hbehind (hblank hne hline)

end Line

/-! ## Files -/

section File

variable {buf s line behind : List UInt8} {p : ℕ} {b : UInt8} {out : List Parsed}
  {done done' : Option (List Parsed)} {entries entries' : List Entry}

theorem lines_nl (h : isNl b = true) : lines (b :: s) = ([], b :: s) :: lines s := if_pos h

/-- What stands behind a line: nothing, or the end of the line. -/
def Ended (behind : List UInt8) : Prop := ∀ b ∈ behind.head?, isNl b = true

theorem lines_ended (h : Ended behind) : ∃ more, lines behind = ([], behind) :: more := by
  cases behind with
  | nil => exact ⟨[], rfl⟩
  | cons b bs => exact ⟨lines bs, lines_nl (h b rfl)⟩

/-- A line, and the ones behind it. -/
theorem lines_append (hline : ∀ b ∈ line, isNl b = false) (h : Ended behind) :
    lines (line ++ behind) = (line, behind) :: (lines behind).tail := by
  induction line with
  | nil =>
    obtain ⟨more, hmore⟩ := lines_ended h
    rw [List.nil_append, hmore, List.tail_cons]
  | cons b line ih =>
    have hih := ih fun b hb => hline b (List.mem_cons_of_mem _ hb)
    rw [List.cons_append, lines, hih, if_neg (by simp [hline b List.mem_cons_self])]

theorem plain_nil (behind : List UInt8) : Plain ([], behind) :=
  plain_of_nothing (fun hne => absurd rfl hne) (by decide) rfl

/-- The end of a line is nothing on its own. -/
theorem file_dropNl (s : List UInt8) : fileEntries (s.dropWhile isNl) = fileEntries s ∧
    ((∀ x ∈ lines (s.dropWhile isNl), Plain x) ↔ ∀ x ∈ lines s, Plain x) := by
  induction s with
  | nil => exact ⟨rfl, Iff.rfl⟩
  | cons b s ih =>
    rw [List.dropWhile_cons]
    split
    case isTrue hb =>
      have hentries : fileEntries (b :: s) = fileEntries s := by
        unfold fileEntries
        rw [lines_nl hb]
        rfl
      rw [hentries, lines_nl hb, List.forall_mem_cons]
      exact ⟨ih.1, ih.2.trans (and_iff_right (plain_nil _)).symm⟩
    case isFalse => exact ⟨rfl, Iff.rfl⟩

theorem file_append (hline : ∀ b ∈ line, isNl b = false) (h : Ended behind) :
    fileEntries (line ++ behind) = lineEntries line ++ fileEntries behind ∧
      ((∀ x ∈ lines (line ++ behind), Plain x) ↔
        Plain (line, behind) ∧ ∀ x ∈ lines behind, Plain x) := by
  obtain ⟨more, hmore⟩ := lines_ended h
  unfold fileEntries
  rw [lines_append hline h, hmore, List.tail_cons, List.forall_mem_cons, List.forall_mem_cons]
  exact ⟨rfl, and_congr_right fun _ => (and_iff_right (plain_nil _)).symm⟩

/-- One thing done behind the other. -/
def andThen (done done' : Option (List Parsed)) : Option (List Parsed) :=
  done.bind fun out => done'.map (out ++ ·)

theorem covers_andThen (h : Covers done entries) (h' : Covers done' entries') :
    Covers (andThen done done') (entries ++ entries') := by
  intro out hout
  obtain ⟨out1, h1, hout⟩ := Option.bind_eq_some_iff.mp hout
  obtain ⟨out2, h2, rfl⟩ := Option.map_eq_some_iff.mp hout
  have hle := h out1 h1
  have hle' := h' out2 h2
  rw [List.length_append, List.length_append]
  omega

theorem means_andThen (h : Covers done entries) (h' : Covers done' entries') :
    Means (andThen done done') (entries ++ entries') ↔ Means done entries ∧
    Means done' entries' := by
  constructor
  · rintro ⟨out, hout, heq⟩
    obtain ⟨out1, h1, hout⟩ := Option.bind_eq_some_iff.mp hout
    obtain ⟨out2, h2, rfl⟩ := Option.map_eq_some_iff.mp hout
    have hle := h out1 h1
    have hle' := h' out2 h2
    have hlen := congrArg List.length heq
    rw [List.map_append] at heq
    rw [List.length_map, List.length_append, List.length_append] at hlen
    obtain ⟨heq1, heq2⟩ := List.append_inj heq (by rw [List.length_map]; omega)
    exact ⟨⟨out1, h1, heq1⟩, out2, h2, heq2⟩
  · rintro ⟨⟨out1, rfl, rfl⟩, out2, rfl, rfl⟩
    exact ⟨out1 ++ out2, rfl, List.map_append⟩

/-- A pass over the end of the file. -/
theorem parsePass_end (out : List Parsed) (h : buf.drop p = s) (hs : s.dropWhile isNl = []) :
    ∃ q n, parsePass buf ⟨p, s.length, out⟩ = some (⟨q, n, out⟩, false) := by
  have hnl := scan_eq isNl (show s <+: buf.drop p by rw [h])
  have hall : s.takeWhile isNl = s := by
    have hsplit := List.takeWhile_append_dropWhile (p := isNl) (l := s)
    rw [hs, List.append_nil] at hsplit
    exact hsplit
  rw [hall] at hnl
  refine ⟨p + s.length, s.length - s.length, ?_⟩
  unfold parsePass skipNl
  simp only [hnl, Option.bind_eq_bind, Option.bind_some, Nat.sub_self, if_true]
  rfl

/-- What a pass scans of a line, and where it goes on. -/
structure Scans (buf : List UInt8) (p : ℕ) (s line behind : List UInt8) : Prop where
  skipNl : skipNl buf p s.length = some (s.takeWhile isNl).length
  getLine : getLine buf (p + (s.takeWhile isNl).length) (line ++ behind).length = some line.length
  skipSpace : skipSpace buf (p + (s.takeWhile isNl).length) line.length =
    some (line.takeWhile isBlank).length
  text : buf.drop (p + (s.takeWhile isNl).length + (line.takeWhile isBlank).length) =
    line.dropWhile isBlank ++ behind
  behind : buf.drop (p + (s.takeWhile isNl).length + (line.takeWhile isBlank).length +
    (line.dropWhile isBlank).length) = behind

theorem scans_line (h : buf.drop p = s) (hs : s.dropWhile isNl = line ++ behind)
    (hline : ∀ b ∈ line, isNl b = false) (hended : Ended behind) : Scans buf p s line behind := by
  have hs' : s.takeWhile isNl ++ (line ++ behind) = s := by
    rw [← hs]
    exact List.takeWhile_append_dropWhile
  have hline' : line.takeWhile isBlank ++ line.dropWhile isBlank = line :=
    List.takeWhile_append_dropWhile
  have hdrop : buf.drop (p + (s.takeWhile isNl).length) = line ++ behind := by
    rw [← List.drop_drop, h]
    nth_rewrite 2 [← hs']
    exact List.drop_left
  have htext : buf.drop (p + (s.takeWhile isNl).length + (line.takeWhile isBlank).length) =
      line.dropWhile isBlank ++ behind := by
    rw [← List.drop_drop, hdrop]
    nth_rewrite 2 [← hline']
    rw [List.append_assoc, List.drop_left]
  refine ⟨scan_eq isNl (show s <+: buf.drop p by rw [h]), ?_, ?_, htext, ?_⟩
  · have hstop : (line ++ behind).takeWhile (fun b => !isNl b) = line := by
      rw [List.takeWhile_append_of_pos fun b hb => by simp [hline b hb]]
      cases behind with
      | nil => rw [List.takeWhile_nil, List.append_nil]
      | cons b bs => rw [List.takeWhile_cons_of_neg (by simp [hended b rfl]), List.append_nil]
    have hscan := scan_eq (fun b => !isNl b)
      (show line ++ behind <+: buf.drop (p + (s.takeWhile isNl).length) by rw [hdrop])
    rw [hstop] at hscan
    exact hscan
  · apply scan_eq isBlank
    rw [hdrop]
    exact List.prefix_append line behind
  · rw [← List.drop_drop, htext, List.drop_left]

/-- What `parse_line` does for a line that is no comment. -/
theorem parseLine_covers (hne : line ≠ []) (hended : Ended behind) {q : ℕ} {c : UInt8}
    {rest : List UInt8} (hdrop : buf.drop q = line.dropWhile isBlank ++ behind)
    (hc : line.dropWhile isBlank ++ behind = c :: rest) {done : Option (List Parsed)}
    (hdone : (if c ≠ 35 then parseLine buf q (line.dropWhile isBlank).length else some []) = done) :
    (Means done (lineEntries line) ↔ Plain (line, behind)) ∧ Covers done (lineEntries line) := by
  subst hdone
  by_cases hcomment : c = 35
  · rw [if_neg (not_not.mpr hcomment)]
    have hhead : (line.dropWhile isBlank).head? = some 35 := by
      cases htext : line.dropWhile isBlank with
      | nil =>
        -- the end of the line is no `'#'`
        rw [htext, List.nil_append] at hc
        have hnl := hended c (by rw [hc]; rfl)
        rw [hcomment] at hnl
        cases hnl
      | cons b bs =>
        rw [htext] at hc
        rw [(List.cons.inj hc).1, hcomment]
        rfl
    obtain ⟨hmeans, hplain, hcovers⟩ := means_comment behind rfl hhead
    exact ⟨iff_of_true hmeans hplain, hcovers⟩
  rw [if_pos hcomment]
  by_cases htext : line.dropWhile isBlank = []
  · have hbehind : behind ≠ [] := by
      rintro rfl
      rw [htext] at hc
      cases hc
    obtain ⟨hnot, hplain, hcovers⟩ := parseLine_blank buf q hne htext hbehind
    rw [htext]
    exact ⟨iff_of_false hnot hplain, hcovers⟩
  · have hhead : (line.dropWhile isBlank).head? ≠ some 35 := by
      obtain ⟨b, bs, hb⟩ := List.exists_cons_of_ne_nil htext
      rw [hb] at hc ⊢
      intro h35
      exact hcomment ((List.cons.inj hc).1.symm.trans (Option.some.inj h35))
    have hprefix : line.dropWhile isBlank <+: buf.drop q := by
      rw [hdrop]
      exact List.prefix_append _ behind
    by_cases hword : (line.dropWhile isBlank).takeWhile (fun b => !isBlank b) = ignoreStr
    · exact parseLine_means_word rfl hprefix ⟨htext, hhead⟩ hword
    · exact parseLine_means_other rfl hdrop ⟨htext, hhead⟩ hword

/-- A pass over a line. -/
theorem parsePass_line (out : List Parsed) (h : buf.drop p = s)
    (hs : s.dropWhile isNl = line ++ behind)
    (hne : line ≠ []) (hline : ∀ b ∈ line, isNl b = false) (hended : Ended behind) :
    ∃ done q, buf.drop q = behind ∧
      (parsePass buf ⟨p, s.length, out⟩ =
        done.map fun ms => (⟨q, behind.length, out ++ ms⟩, decide (behind ≠ []))) ∧
      (Means done (lineEntries line) ↔ Plain (line, behind)) ∧ Covers done (lineEntries line) := by
  obtain ⟨hskip, hget, hspace, hdrop, hbehind⟩ := scans_line h hs hline hended
  set nls := s.takeWhile isNl with hnls
  set blanks := line.takeWhile isBlank with hblanks
  set text := line.dropWhile isBlank with htext
  have hs' : nls ++ (line ++ behind) = s := by
    rw [← hs]
    exact List.takeWhile_append_dropWhile
  have hline' : blanks ++ text = line := List.takeWhile_append_dropWhile
  have hlen : s.length - nls.length = (line ++ behind).length := by
    rw [← hs', List.length_append, Nat.add_sub_cancel_left]
  have hlen2 : (line ++ behind).length - blanks.length = (text ++ behind).length := by
    rw [← hline', List.append_assoc, List.length_append, Nat.add_sub_cancel_left]
  have hlen3 : line.length - blanks.length = text.length := by
    rw [← hline', List.length_append, Nat.add_sub_cancel_left]
  have hlen4 : (text ++ behind).length - text.length = behind.length := by
    rw [List.length_append, Nat.add_sub_cancel_left]
  have hgo : (line ++ behind).length ≠ 0 := by
    have hpos := List.length_pos_iff.mpr hne
    rw [List.length_append]
    omega
  unfold parsePass
  simp only [hskip, Option.bind_eq_bind, Option.bind_some, hlen, if_neg hgo, hget, hspace, hlen2,
    hlen3, hlen4]
  by_cases hover : text ++ behind = []
  · -- blanks at the end of the file
    obtain ⟨htext', rfl⟩ := List.append_eq_nil_iff.mp hover
    have hentries : lineEntries line = [] := by
      unfold lineEntries
      simp only [← htext, htext', true_or, if_true]
    have hbare : text ≠ ignoreStr := by
      rw [htext']
      decide
    rw [hentries]
    refine ⟨some [], _, hbehind, ?_, iff_of_true ⟨[], rfl, rfl⟩
      (plain_of_nothing (fun _ _ => rfl) hbare hentries), covers_nil _⟩
    rw [if_pos (by rw [hover]; rfl), htext']
    simp
  · have hleft : (text ++ behind).length ≠ 0 :=
      fun hzero => hover (List.length_eq_zero_iff.mp hzero)
    obtain ⟨c, rest, hc⟩ := List.exists_cons_of_ne_nil hover
    have hfirst : buf[p + nls.length + blanks.length]? = some c :=
      (of_prefix_cons (show c :: rest <+: _ by rw [hdrop, hc])).1
    refine ⟨_, _, hbehind, ?_, parseLine_covers hne hended hdrop hc rfl⟩
    rw [if_neg hleft, hfirst, Option.bind_some]
    by_cases hcomment : c ≠ 35
    · rw [if_pos hcomment, if_pos hcomment]
      cases parseLine buf (p + nls.length + blanks.length) text.length with
      | none => rfl
      | some ms => simp [List.length_eq_zero_iff]
    · rw [if_neg hcomment, if_neg hcomment]
      simp [List.length_eq_zero_iff]

/-- The loop ends, and what it has done means the entries of the file if all of its lines are
plain. -/
theorem parse_run (h : buf.drop p = s) : ∃ m done,
    Orbit.run (parseStep buf) m ⟨p, s.length, out⟩ = .inr (done.map (out ++ ·)) ∧
      (Means done (fileEntries s) ↔ ∀ x ∈ lines s, Plain x) ∧ Covers done (fileEntries s) := by
  induction hn : s.length using Nat.strongRecOn generalizing s p out with
  | ind n ih =>
    subst hn
    obtain ⟨hentries, hplain⟩ := file_dropNl s
    rw [← hentries, ← hplain]
    by_cases hnil : s.dropWhile isNl = []
    · obtain ⟨q, k, hpass⟩ := parsePass_end out h hnil
      refine ⟨1, some [], ?_, ?_, ?_⟩
      · have hstep : parseStep buf ⟨p, s.length, out⟩ = .inr (some out) := by
          unfold parseStep
          rw [hpass]
        rw [Orbit.run, hstep, Option.map_some, List.append_nil]
      · rw [hnil]
        apply iff_of_true ⟨[], rfl, rfl⟩
        intro x hx
        rw [List.mem_singleton.mp hx]
        exact plain_nil []
      · rw [hnil]
        exact covers_nil _
    · -- the line that the pass is about
      set line := (s.dropWhile isNl).takeWhile (fun b => !isNl b) with hline
      set behind := (s.dropWhile isNl).dropWhile (fun b => !isNl b) with hbehind
      have hs : s.dropWhile isNl = line ++ behind := List.takeWhile_append_dropWhile.symm
      have hnot : ∀ b ∈ line, isNl b = false := by
        intro b hb
        have htake := List.mem_takeWhile_imp hb
        simpa using htake
      have hended : Ended behind := by
        intro b hb
        have hne : behind ≠ [] := by
          rintro heq
          rw [heq] at hb
          cases hb
        have hstop := List.head_dropWhile_not (fun b => !isNl b) hne
        rw [List.head?_eq_some_head hne] at hb
        rw [← Option.some.inj hb]
        simpa using hstop
      have hne : line ≠ [] := by
        intro heq
        have hfirst := List.head_dropWhile_not isNl hnil
        have hnl := hended ((s.dropWhile isNl).head hnil) (by
          have hsame : behind = s.dropWhile isNl := by rw [hs, heq, List.nil_append]
          rw [hsame]
          exact List.head?_eq_some_head hnil)
        exact Bool.false_ne_true (hfirst.symm.trans hnl)
      obtain ⟨done, q, hq, hpass, hmeans, hcovers⟩ := parsePass_line out h hs hne hnot hended
      obtain ⟨hsplit, hall⟩ := file_append hnot hended
      rw [hs, hsplit, hall]
      cases done with
      | none =>
        have hstep : parseStep buf ⟨p, s.length, out⟩ = .inr none := by
          unfold parseStep
          rw [hpass]
          rfl
        refine ⟨1, none, ?_, iff_of_false ?_ ?_, fun _ hout => by cases hout⟩
        · rw [Orbit.run, hstep]
          rfl
        · rintro ⟨_, hout, -⟩
          cases hout
        · rintro ⟨hline', -⟩
          obtain ⟨_, hout, -⟩ := hmeans.mpr hline'
          cases hout
      | some ms =>
        by_cases hlast : behind = []
        · have hstep : parseStep buf ⟨p, s.length, out⟩ = .inr (some (out ++ ms)) := by
            unfold parseStep
            rw [hpass, hlast]
            rfl
          have hplain' : ∀ x ∈ lines behind, Plain x := by
            rw [hlast]
            intro x hx
            rw [List.mem_singleton.mp hx]
            exact plain_nil []
          have hentries' : fileEntries behind = [] := by
            rw [hlast]
            rfl
          refine ⟨1, some ms, ?_, ?_, ?_⟩
          · rw [Orbit.run, hstep, Option.map_some]
          · rw [hentries', List.append_nil, and_iff_left hplain']
            exact hmeans
          · rw [hentries', List.append_nil]
            exact hcovers
        · have hlt : behind.length < s.length := by
            have hlen := congrArg List.length hs
            have hle := (List.dropWhile_suffix isNl (l := s)).length_le
            have hpos := List.length_pos_iff.mpr hne
            rw [List.length_append] at hlen
            omega
          have hnext : ∃ m done', Orbit.run (parseStep buf) m ⟨q, behind.length, out ++ ms⟩ =
              .inr (done'.map (out ++ ms ++ ·)) ∧
                (Means done' (fileEntries behind) ↔ ∀ x ∈ lines behind, Plain x) ∧
                  Covers done' (fileEntries behind) := ih behind.length hlt hq rfl
          obtain ⟨m, done', hrun, hmeans', hcovers'⟩ := hnext
          have hstep : parseStep buf ⟨p, s.length, out⟩ = .inl ⟨q, behind.length, out ++ ms⟩ := by
            unfold parseStep
            rw [hpass, decide_eq_true hlast]
            rfl
          refine ⟨m + 1, andThen (some ms) done', ?_, ?_, covers_andThen hcovers hcovers'⟩
          · rw [Orbit.run, hstep]
            apply hrun.trans
            cases done' with
            | none => rfl
            | some more => simp [andThen]
          · rw [means_andThen hcovers hcovers', hmeans, hmeans']

end File

/-- The parser ends, reads nothing behind the file and does for each line what the manual says,
exactly if all lines are plain. -/
theorem parseConfig_iff (buf : List UInt8) :
    (∃ m out, Orbit.run (parseStep buf) m ⟨0, buf.length, []⟩ = .inr (some out) ∧
      out.map Parsed.entry = fileEntries buf) ↔ ∀ x ∈ lines buf, Plain x := by
  obtain ⟨m, done, hrun, hmeans, -⟩ : ∃ m done,
      Orbit.run (parseStep buf) m ⟨0, buf.length, []⟩ = .inr (done.map ([] ++ ·)) ∧
        (Means done (fileEntries buf) ↔ ∀ x ∈ lines buf, Plain x) ∧ Covers done (fileEntries buf) :=
    parse_run List.drop_zero
  rw [← hmeans]
  constructor
  · rintro ⟨k, out, hout, heq⟩
    have hsame := (Orbit.run_of_done hrun (le_max_left m k)).symm.trans
      (Orbit.run_of_done hout (le_max_right m k))
    cases done with
    | none => cases hsame
    | some ms =>
      cases hsame
      exact ⟨ms, rfl, heq⟩
  · rintro ⟨ms, rfl, heq⟩
    exact ⟨m, ms, hrun, heq⟩

/-- `" \nignore"`: a blank line, and the word alone. -/
theorem parseConfig_blank : Orbit.run (parseStep [32, 10, 105, 103, 110, 111, 114, 101]) 2
      ⟨0, 8, []⟩ = .inr (some [.invalidLine [], .invalidLine ignoreStr]) ∧
    ¬ ∃ m out, Orbit.run (parseStep [32, 10, 105, 103, 110, 111, 114, 101]) m ⟨0, 8, []⟩ =
        .inr (some out) ∧
      out.map Parsed.entry = fileEntries [32, 10, 105, 103, 110, 111, 114, 101] := by
  have hrun : Orbit.run (parseStep [32, 10, 105, 103, 110, 111, 114, 101]) 2 ⟨0, 8, []⟩ =
      .inr (some [.invalidLine [], .invalidLine ignoreStr]) := rfl
  refine ⟨hrun, ?_⟩
  rintro ⟨m, out, hout, hentries⟩
  have hsame := (Orbit.run_of_done hrun (le_max_left 2 m)).symm.trans
    (Orbit.run_of_done hout (le_max_right 2 m))
  cases hsame
  exact absurd hentries (by decide)

end Mtrace.Client
