import XEmacs.Lib.BytePositions
import XEmacs.Search.CaseTables
import XEmacs.Search.MatchData

/-!
# Replacement of a match (search.c)

`replace-match` interprets the escapes of a replacement twice over. For a string it collects the
replacement from substrings.
-/

namespace XEmacs.Search

open BytePositions

def CaseTable.downcase (ct : CaseTable) : Emchar → Emchar := trtTableOf ct.downcaseTable

def CaseTable.upcase (ct : CaseTable) (ch : Emchar) : Emchar :=
  if ct.downcase ch = ch then trtTableOf ct.upcaseTable ch else ch

def backslash : Emchar := 0x5C

def ampersand : Emchar := 0x26

def digitZero : Emchar := 0x30

def upcaseAll : Emchar := 0x55

def upcaseNext : Emchar := 0x75

def downcaseAll : Emchar := 0x4C

def downcaseNext : Emchar := 0x6C

def endCase : Emchar := 0x45

/-- `\U`, `\u`, `\L`, `\l` and `\E`. -/
def caseActions : List Emchar := [upcaseAll, upcaseNext, downcaseAll, downcaseNext, endCase]

/-- `search_regs`, with `num_regs` registers; what the others are is up to the memory. -/
structure SearchRegs where
  numRegs : ℕ
  reg : ℕ → Register

/-- The tests of the character behind a backslash. -/
inductive Escape where
  | whole
  | register (n : ℕ)
  | caseAction
  | quoted
  | plain
deriving DecidableEq

def escape (numRegs : ℕ) (c : Emchar) : Escape :=
  if c = ampersand then .whole
  else if digitZero + 1 ≤ c ∧ c ≤ digitZero + 9 ∧ c ≤ numRegs + digitZero then
    .register (c - digitZero)
  else if c ∈ caseActions then .caseAction
  else if c = backslash then .quoted
  else .plain

/-! ## The case of the replacement -/

/-- What `cur_action` makes of a character. -/
def CaseTable.act (ct : CaseTable) (curAction curchar : Emchar) : Emchar :=
  if curAction = upcaseAll then ct.upcase curchar
  else if curAction = downcaseAll then ct.downcase curchar
  else curchar

/-- The loop over the replacement that is in place, from the position `pos` on, with the
actions that have not been taken. -/
def caseLoop (ct : CaseTable) : List (ℕ × Emchar) → Emchar → ℕ → List Emchar →
    List Emchar × List (ℕ × Emchar)
  | ul, _, _, [] => ([], ul)
  | [], curAction, pos, curchar :: chars =>
    let (done, rest) := caseLoop ct [] curAction (pos + 1) chars
    (ct.act curAction curchar :: done, rest)
  | (p, newAction) :: ul, curAction, pos, curchar :: chars =>
    if pos = p then
      if newAction = upcaseNext then
        let (done, rest) := caseLoop ct ul curAction (pos + 1) chars
        (ct.upcase curchar :: done, rest)
      else if newAction = downcaseNext then
        let (done, rest) := caseLoop ct ul curAction (pos + 1) chars
        (ct.downcase curchar :: done, rest)
      else
        let (done, rest) := caseLoop ct ul newAction (pos + 1) chars
        (ct.act newAction curchar :: done, rest)
    else
      let (done, rest) := caseLoop ct ((p, newAction) :: ul) curAction (pos + 1) chars
      (ct.act curAction curchar :: done, rest)

/-- What a replacement comes to: the text, the registers that were read, the case actions that
were not taken, and the position of the end of the replacement. -/
structure Replaced where
  text : List Emchar
  reads : List ℕ
  pending : List (ℕ × Emchar)
  stop : ℕ
deriving DecidableEq

/-! ## In a string -/

/-- `get_string_pos_char_1`; a negative position is from the end. -/
def stringPos (length : ℕ) (pos : ℤ) : Option ℤ :=
  let ccpos := if pos < 0 then pos + length else pos
  if ccpos < 0 ∨ length < ccpos then none else some ccpos

/-- `Fsubstring`, which takes the positions in either order. -/
def substring (l : List Emchar) (start stop : ℤ) : Option (List Emchar) := do
  let a ← stringPos l.length start
  let b ← stringPos l.length stop
  return (l.drop (min a b).toNat).take (max a b - min a b).toNat

/-- `concat3`, where nil is no text. -/
def concat3 (a b c : Option (List Emchar)) : List Emchar :=
  a.getD [] ++ (b.getD [] ++ c.getD [])

/-- What one round of the loop sets. -/
structure Piece where
  literalEnd : ℤ := -1
  substart : ℤ := -1
  subend : ℤ := -1

/-- What the rounds leave. -/
structure Accum where
  literalStart : ℕ
  accum : Option (List Emchar)
  ul : List (ℕ × Emchar)
  reads : List ℕ

/-- The branches for the character `c` at `strpos`, behind a backslash. -/
def stringEscape (regs : SearchRegs) (strpos : ℕ) (c : Emchar) (s : Accum) : Piece × Accum :=
  match escape regs.numRegs c with
  | .whole =>
    ({ literalEnd := strpos - 1, substart := (regs.reg 0).start, subend := (regs.reg 0).stop },
      { s with reads := s.reads ++ [0] })
  | .register n =>
    (if 0 ≤ (regs.reg n).start then
      { literalEnd := strpos - 1, substart := (regs.reg n).start, subend := (regs.reg n).stop }
    else {}, { s with reads := s.reads ++ [n] })
  | .caseAction =>
    ({ literalEnd := strpos - 1 },
      { s with ul := s.ul ++ [((s.accum.getD []).length + (strpos - 1 - s.literalStart), c)] })
  | .quoted => ({ literalEnd := strpos }, s)
  | .plain => ({}, s)

/-- The end of a round. -/
def Accum.join (replacement string : List Emchar) (strpos : ℕ) (p : Piece) (s : Accum) :
    Option Accum :=
  if 0 ≤ p.literalEnd then do
    let literalText ←
      (if p.literalEnd ≠ s.literalStart then
        (substring replacement s.literalStart p.literalEnd).map some
      else some none)
    let sub ←
      (if 0 ≤ p.substart ∧ p.subend ≠ p.substart then
        (substring string p.substart p.subend).map some
      else some none)
    return { s with
      accum := if literalText.isSome ∨ sub.isSome then some (concat3 s.accum literalText sub)
        else s.accum
      literalStart := strpos + 1 }
  else some s

def stringLoop (regs : SearchRegs) (replacement string : List Emchar) :
    List Emchar → ℕ → Accum → Option Accum
  | [], _, s => some s
  | [_], _, s => some s
  | c :: c' :: rest, strpos, s =>
    if c = backslash then do
      let (p, s) := stringEscape regs (strpos + 1) c' s
      let s ← s.join replacement string (strpos + 1) p
      stringLoop regs replacement string rest (strpos + 2) s
    else stringLoop regs replacement string (c' :: rest) (strpos + 1) s

/-- `Freplace_match` of a string. -/
def replaceInString (ct : CaseTable) (regs : SearchRegs) (replacement string : List Emchar) :
    Option Replaced :=
  if regs.numRegs = 0 ∨ (regs.reg 0).start < 0 ∨ (regs.reg 0).stop < (regs.reg 0).start ∨
      string.length < (regs.reg 0).stop then none
  else do
    let before ← substring string 0 (regs.reg 0).start
    let after ← substring string (regs.reg 0).stop string.length
    let s ← stringLoop regs replacement string replacement 0 ⟨0, none, [], []⟩
    let replacement ←
      (if replacement.length ≠ s.literalStart then
        (substring replacement s.literalStart replacement.length).map fun text =>
          concat3 s.accum (some text) none
      else some (s.accum.getD []))
    let (cased, pending) := caseLoop ct s.ul endCase 0 replacement
    return ⟨concat3 (some before) (some cased) (some after), s.reads, pending,
      replacement.length⟩

/-! ## In a buffer -/

/-- The buffer while the replacement is inserted, with its `BUF_PT`. -/
structure Inserting where
  text : List Emchar
  pt : ℕ
  ul : List (ℕ × Emchar)
  reads : List ℕ

/-- An insertion at point. -/
def Inserting.insert (chars : List Emchar) (s : Inserting) : Inserting :=
  { s with text := insertAt s.text s.pt chars, pt := s.pt + chars.length }

/-- `Finsert_buffer_substring`, which takes the positions in either order. It inserts into
`current_buffer`; another buffer has a text of its own. -/
def insertBufferSubstring (current : Bool) (start stop : ℤ) (s : Inserting) :
    Option Inserting :=
  if start < 1 ∨ s.text.length + 1 < start ∨ stop < 1 ∨ s.text.length + 1 < stop then none
  else
    let b := (min start stop).toNat
    let e := (max start stop).toNat
    some (if b < e ∧ current = true then s.insert (between s.text b e) else s)

/-- The branches for a character behind a backslash. -/
def bufferEscape (regs : SearchRegs) (current : Bool) (c : Emchar) (s : Inserting) :
    Option Inserting :=
  let offset := s.pt - (regs.reg 0).start
  match escape regs.numRegs c with
  | .whole =>
    insertBufferSubstring current ((regs.reg 0).start + offset) ((regs.reg 0).stop + offset)
      { s with reads := s.reads ++ [0] }
  | .register n =>
    let s := { s with reads := s.reads ++ [n] }
    if 1 ≤ (regs.reg n).start then
      insertBufferSubstring current ((regs.reg n).start + offset) ((regs.reg n).stop + offset) s
    else some s
  | .caseAction => some { s with ul := s.ul ++ [(s.pt, c)] }
  | .quoted => some (s.insert [c])
  | .plain => some (s.insert [c])

def bufferLoop (regs : SearchRegs) (current : Bool) : List Emchar → Inserting → Option Inserting
  | [], s => some s
  | [c], s => some (s.insert [c])
  | c :: c' :: rest, s =>
    if c = backslash then do
      let s ← bufferEscape regs current c' s
      bufferLoop regs current rest s
    else bufferLoop regs current (c' :: rest) (s.insert [c])

/-- `Freplace_match` in a buffer that is not narrowed. -/
def replaceInBuffer (ct : CaseTable) (regs : SearchRegs) (current : Bool)
    (replacement text : List Emchar) : Option Replaced :=
  if regs.numRegs = 0 ∨ (regs.reg 0).start < 1 ∨ (regs.reg 0).stop < (regs.reg 0).start ∨
      text.length + 1 < (regs.reg 0).stop then none
  else do
    let start := (regs.reg 0).start.toNat
    let s ← bufferLoop regs current replacement ⟨text, start, [], []⟩
    let inslen := s.pt - start
    let text := deleteRange s.text (start + inslen) ((regs.reg 0).stop.toNat + inslen)
    let (cased, pending) := caseLoop ct s.ul endCase (s.pt - inslen)
      (between text (s.pt - inslen) s.pt)
    return ⟨text.take (s.pt - inslen - 1) ++ (cased ++ text.drop (s.pt - 1)), s.reads, pending,
      s.pt⟩

end XEmacs.Search
