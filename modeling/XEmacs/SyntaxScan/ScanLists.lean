import XEmacs.SyntaxScan.Comments
import Mathlib.Data.Int.Notation
import Mathlib.Tactic.Common

/-!
# scan_lists (syntax.c)

The two loops of `scan_lists`, forward and backward. Each goes over one element of the buffer at
a time: a comment, a string, a symbol, or a character (`forwardStep`, `backwardStep`).
-/

namespace XEmacs.SyntaxScan.Buf

/-- The arguments of `scan_lists` that do not change, and `parse-sexp-ignore-comments`. -/
structure ScanArgs where
  minDepth : Int
  sexpflag : Bool
  parseSexpIgnoreComments : Bool

/-- The variables of the loops. -/
structure ScanState where
  pos : Nat
  depth : Int
  mathexit : Bool
  deriving DecidableEq

/-- How a step of the inner loop ends: `next` at its end (or with `continue`), `done` and
`lose` at the labels, and `premature` where the depth is below the least one. -/
inductive Step where
  | next (s : ScanState)
  | done (s : ScanState)
  | lose
  | premature
  deriving DecidableEq

variable (buf : Buf) (args : ScanArgs) (stop : Nat)

/-! ## Forward -/

/-- What a step takes the characters at a position for: a character with the prefix flag, a
comment whose text begins at `start`, or a character of a class. -/
inductive Token where
  | prefixed (start : Nat)
  | comment (comstyle : Comstyle) (start : Nat)
  | char (code : Syntaxcode) (start : Nat)

/-- The recognition of comment starters in `scan_lists`; a two-character starter goes before
a fence. -/
def listsToken (pos : Nat) : Token :=
  let syncode := buf.syncode pos
  let code := syntaxFromCode syncode
  if code = .scomment ∧ args.parseSexpIgnoreComments then
    if syntaxCodePrefix syncode then .prefixed (pos + 1)
    else .comment (.ofMask (syntaxCodeComment1charMask syncode)) (pos + 1)
  else if (pos + 1 < stop ∧ syntaxCodeStartFirstP syncode ∧ args.parseSexpIgnoreComments) ∧
      syntaxCodesStartP syncode (buf.syncode (pos + 1)) then
    if syntaxCodePrefix syncode then .prefixed (pos + 2)
    else .comment (.ofMask (syntaxCodesCommentMaskStart syncode (buf.syncode (pos + 1))))
      (pos + 2)
  else if syntaxCodePrefix syncode then .prefixed (pos + 1)
  else if code = .scommentFence ∧ args.parseSexpIgnoreComments then
    .comment .stCommentStyle (pos + 1)
  else .char code (pos + 1)

/-- The loop to the end of a word, at `pos`; `none` is a jump to `lose`. -/
def wordLoop (pos : Nat) : Option Nat :=
  if _h : pos < stop then
    match buf.code pos with
    | .scharquote | .sescape => if pos + 1 = stop then none else wordLoop (pos + 2)
    | .sword | .ssymbol | .squote => wordLoop (pos + 1)
    | _ => some pos
  else some pos
  termination_by stop - pos

/-- The character at `pos` ends the string: it is `stringterm`, or without one it is a
string fence. -/
def endsString (stringterm : Option Emchar) (pos : Nat) : Bool :=
  match stringterm with
  | some term => buf.bufFetchChar pos = term
  | none => buf.code pos = .sstringFence

/-- The loop to the end of a string, at `pos`; `none` is a jump to `lose`. -/
def stringLoop (stringterm : Option Emchar) (pos : Nat) : Option Nat :=
  if _h : stop ≤ pos then none
  else if buf.endsString stringterm pos then some (pos + 1)
  else if buf.code pos = .scharquote ∨ buf.code pos = .sescape then
    stringLoop stringterm (pos + 2)
  else stringLoop stringterm (pos + 1)
  termination_by stop - pos

/-- The character that ends the string begun by the character at `pos`. -/
def stringterm (pos : Nat) : Emchar :=
  (buf.syntaxMatch (buf.bufFetchChar pos)).getD (buf.bufFetchChar pos)

/-- The end of a word, where it counts as an expression. -/
def endWord (s : ScanState) : Step :=
  if s.depth ≠ 0 ∨ ! args.sexpflag then .next s
  else
    match buf.wordLoop stop s.pos with
    | some pos => .done { s with pos }
    | none => .lose

/-- The case `Sopen` forward, and `Sclose` backward. -/
def openCase (s : ScanState) : Step :=
  if s.depth + 1 = 0 then .done { s with depth := s.depth + 1 }
  else .next { s with depth := s.depth + 1 }

/-- The case `Sclose` forward, and `Sopen` backward. -/
def closeCase (s : ScanState) : Step :=
  if s.depth - 1 = 0 then .done { s with depth := s.depth - 1 }
  else if s.depth - 1 < args.minDepth then .premature
  else .next { s with depth := s.depth - 1 }

/-- The end of a string. -/
def endString (s : ScanState) : Option Nat → Step
  | none => .lose
  | some pos =>
    if s.depth = 0 ∧ args.sexpflag then .done { s with pos } else .next { s with pos }

/-- The end of a comment. -/
def endComment (s : ScanState) : Option Nat → Step
  | some newfrom => .next { s with pos := newfrom }
  | none => if s.depth = 0 then .done { s with pos := stop } else .lose

/-- The body of the inner loop, forward. -/
def forwardStep (s : ScanState) : Step :=
  match buf.listsToken args stop s.pos with
  | .prefixed start => .next { s with pos := start }
  | .comment comstyle start =>
    endComment stop s (buf.findEndOfComment stop comstyle start).value
  | .char code start =>
    let next : ScanState := { s with pos := start }
    match code with
    | .sescape | .scharquote =>
      if start = stop then .lose else buf.endWord args stop { s with pos := start + 1 }
    | .sword | .ssymbol => buf.endWord args stop next
    | .smath =>
      if ! args.sexpflag then .next next
      else
        let pos :=
          if start ≠ stop ∧ buf.bufFetchChar s.pos = buf.bufFetchChar start then start + 1
          else start
        if s.mathexit then closeCase args { next with pos, mathexit := false }
        else openCase { next with pos, mathexit := true }
    | .sopen => openCase next
    | .sclose => closeCase args next
    | .sstring =>
      endString args next (buf.stringLoop stop (some (buf.stringterm s.pos)) start)
    | .sstringFence => endString args next (buf.stringLoop stop none start)
    | _ => .next next

variable {buf args stop}

theorem listsToken_lt {pos start : Nat} :
    (buf.listsToken args stop pos = .prefixed start → pos < start) ∧
      (∀ comstyle, buf.listsToken args stop pos = .comment comstyle start → pos < start) ∧
        ∀ code, buf.listsToken args stop pos = .char code start → start = pos + 1 := by
  unfold listsToken
  dsimp only
  repeat' split
  all_goals grind

/-! ### A step goes forward -/

theorem endWord_next {s s' : ScanState} (h : buf.endWord args stop s = .next s') :
    s'.pos = s.pos := by
  unfold endWord at h
  split at h
  · cases h
    rfl
  · split at h <;> cases h

theorem openCase_next {s s' : ScanState} (h : openCase s = .next s') : s'.pos = s.pos := by
  unfold openCase at h
  split at h <;> cases h
  rfl

theorem closeCase_next {s s' : ScanState} (h : closeCase args s = .next s') :
    s'.pos = s.pos := by
  unfold closeCase at h
  split at h
  · cases h
  · split at h <;> cases h
    rfl

theorem endString_next {s s' : ScanState} {end? : Option Nat}
    (h : endString args s end? = .next s') : end? = some s'.pos := by
  unfold endString at h
  split at h
  · cases h
  · split at h <;> cases h
    rfl

theorem endComment_next {s s' : ScanState} {end? : Option Nat}
    (h : endComment stop s end? = .next s') : end? = some s'.pos := by
  unfold endComment at h
  split at h
  · cases h
    rfl
  · split at h <;> cases h

theorem lt_stringLoop {stringterm : Option Emchar} {pos q : Nat}
    (h : buf.stringLoop stop stringterm pos = some q) : pos < q := by
  induction hn : stop - pos using Nat.strongRecOn generalizing pos with
  | _ n ih =>
    rw [stringLoop] at h
    split at h
    · cases h
    · split at h
      · cases h
        omega
      · split at h
        · have := ih _ (by omega) h rfl
          omega
        · have := ih _ (by omega) h rfl
          omega

theorem forwardStep_lt {s s' : ScanState} (h : buf.forwardStep args stop s = .next s') :
    s.pos < s'.pos := by
  unfold forwardStep at h
  split at h
  · rename_i start htoken
    cases h
    exact listsToken_lt.1 htoken
  · rename_i comstyle start htoken
    have hlt := listsToken_lt.2.1 _ htoken
    have hend := findEndOfComment_eq_some.mp (endComment_next h)
    exact Nat.lt_trans hlt hend.bounds.1
  · rename_i code start htoken
    obtain rfl := listsToken_lt.2.2 _ htoken
    dsimp only at h
    split at h
    · split at h
      · cases h
      · rw [endWord_next h]
        exact Nat.lt_succ_of_lt (Nat.lt_succ_self _)
    · split at h
      · cases h
      · rw [endWord_next h]
        exact Nat.lt_succ_of_lt (Nat.lt_succ_self _)
    · rw [endWord_next h]
      exact Nat.lt_succ_self _
    · rw [endWord_next h]
      exact Nat.lt_succ_self _
    · split at h
      · cases h
        exact Nat.lt_succ_self _
      · -- a second delimiter is gone over too
        have hpos : s.pos < (if s.pos + 1 ≠ stop ∧
            buf.bufFetchChar s.pos = buf.bufFetchChar (s.pos + 1) then s.pos + 1 + 1
            else s.pos + 1) := by
          split <;> omega
        split at h
        · rw [closeCase_next h]
          exact hpos
        · rw [openCase_next h]
          exact hpos
    · rw [openCase_next h]
      exact Nat.lt_succ_self _
    · rw [closeCase_next h]
      exact Nat.lt_succ_self _
    · have := lt_stringLoop (endString_next h)
      omega
    · have := lt_stringLoop (endString_next h)
      omega
    · cases h
      exact Nat.lt_succ_self _

variable (buf args)

/-- The value of `scan_lists`, or the error that it signals. -/
inductive ScanResult where
  | position (pos : Nat)
  | nil
  | error (message : String)
  deriving DecidableEq

/-- The jump to `lose`. -/
def loseResult (noerror : Bool) : ScanResult :=
  if noerror then .nil else .error "Unbalanced parentheses"

/-- The error of a depth below the least one. -/
def prematureResult (noerror : Bool) : ScanResult :=
  if noerror then .nil else .error "Containing expression ends prematurely"

/-- The end of the buffer: an error within an object, nil between objects. -/
def endOfBuffer (noerror : Bool) (s : ScanState) : ScanResult :=
  if s.depth ≠ 0 then loseResult noerror else .nil

/-- The inner loop, forward: the state at `done`, or what is returned. -/
def forwardLoop (noerror : Bool) (s : ScanState) : Except ScanResult ScanState :=
  if _h : s.pos < buf.zv then
    match _hstep : buf.forwardStep args buf.zv s with
    | .next s' => forwardLoop noerror s'
    | .done s' => .ok s'
    | .lose => .error (loseResult noerror)
    | .premature => .error (prematureResult noerror)
  else .error (endOfBuffer noerror s)
  termination_by buf.zv - s.pos
  decreasing_by
    have := forwardStep_lt _hstep
    omega

theorem forwardLoop_eq {buf : Buf} {args : ScanArgs} {noerror : Bool} {s : ScanState}
    (h : s.pos < buf.zv) : buf.forwardLoop args noerror s =
      match buf.forwardStep args buf.zv s with
      | .next s' => buf.forwardLoop args noerror s'
      | .done s' => .ok s'
      | .lose => .error (loseResult noerror)
      | .premature => .error (prematureResult noerror) := by
  rw [forwardLoop, dif_pos h]
  split <;> rename_i hstep <;> rw [hstep]

theorem forwardLoop_end {buf : Buf} {args : ScanArgs} {noerror : Bool} {s : ScanState}
    (h : buf.zv ≤ s.pos) :
    buf.forwardLoop args noerror s = .error (endOfBuffer noerror s) := by
  rw [forwardLoop, dif_neg (Nat.not_lt.mpr h)]

/-- The outer loop, forward. -/
def scanForward (noerror : Bool) : Nat → ScanState → ScanResult
  | 0, s => .position s.pos
  | count + 1, s =>
    match buf.forwardLoop args noerror s with
    | .ok s' => scanForward noerror count s'
    | .error r => r

/-! ## Backward -/

/-- The recognition of comment enders in `scan_lists`, at the character at `pos` that it has
gone back to. -/
def listsBackToken (stop : Nat) (quoted : Bool) (pos : Nat) : Token :=
  let syncode := buf.syncode pos
  let code := syntaxFromCode syncode
  let char (code : Syntaxcode) (pos : Nat) : Token :=
    if syntaxCodePrefix syncode then .prefixed pos
    else if quoted then .char .sword pos
    else .char code pos
  let comment (comstyle : Comstyle) (pos : Nat) : Token :=
    if syntaxCodePrefix syncode then .prefixed pos
    else if quoted then .char .sword pos
    else .comment comstyle pos
  if code = .sendcomment ∧ args.parseSexpIgnoreComments then
    comment (.ofMask (syntaxCodeComment1charMask syncode)) pos
  else if (stop < pos ∧ syntaxCodeEndSecondP syncode ∧ (buf.charQuoted (pos - 1)).value = false ∧
      args.parseSexpIgnoreComments) ∧ syntaxCodesEndP (buf.syncode (pos - 1)) syncode then
    comment (.ofMask (syntaxCodesCommentMaskEnd (buf.syncode (pos - 1)) syncode)) (pos - 1)
  else if code = .scommentFence ∧ args.parseSexpIgnoreComments then
    comment .stCommentStyle pos
  else char code pos

/-- The loop to the beginning of a word, from `pos`. -/
def wordBackLoop (stop pos : Nat) : Nat :=
  if _h : stop < pos then
    if (buf.charQuoted (pos - 1)).value then wordBackLoop stop (pos - 2)
    else if buf.code (pos - 1) = .sword ∨ buf.code (pos - 1) = .ssymbol ∨
        buf.code (pos - 1) = .squote then wordBackLoop stop (pos - 1)
    else pos
  else pos
  termination_by pos

/-- The loop to the beginning of a string, from `pos`; `none` is a jump to `lose`. -/
def stringBackLoop (stop : Nat) (stringterm : Option Emchar) (pos : Nat) : Option Nat :=
  if _h : pos ≤ stop then none
  else if buf.endsString stringterm (pos - 1) ∧ (buf.charQuoted (pos - 1)).value = false then
    some (pos - 1)
  else stringBackLoop stop stringterm (pos - 1)
  termination_by pos

/-- The beginning of a word, where it counts as an expression. -/
def beginWord (stop : Nat) (s : ScanState) : Step :=
  if s.depth ≠ 0 ∨ ! args.sexpflag then .next s
  else .done { s with pos := buf.wordBackLoop stop s.pos }

/-- `find_start_of_comment`, for the comment that ends at `pos`. -/
abbrev StartOfComment := (pos : Nat) → Comstyle → { start : Nat // start ≤ pos }

variable (findStartOfComment : StartOfComment)

/-- The body of the inner loop, backward. -/
def backwardStep (stop : Nat) (s : ScanState) : Step :=
  let quoted := (buf.charQuoted (s.pos - 1)).value
  match buf.listsBackToken args stop quoted (if quoted then s.pos - 2 else s.pos - 1) with
  | .prefixed pos => .next { s with pos }
  | .comment comstyle pos => .next { s with pos := findStartOfComment pos comstyle }
  | .char code pos =>
    let next : ScanState := { s with pos }
    match code with
    | .sword | .ssymbol => buf.beginWord args stop next
    | .smath =>
      if ! args.sexpflag then .next next
      else
        let pos' :=
          if pos ≠ stop ∧ buf.bufFetchChar pos = buf.bufFetchChar (pos - 1) then pos - 1
          else pos
        if s.mathexit then closeCase args { next with pos := pos', mathexit := false }
        else openCase { next with pos := pos', mathexit := true }
    | .sclose => openCase next
    | .sopen => closeCase args next
    | .sstring =>
      endString args next (buf.stringBackLoop stop (some (buf.stringterm pos)) pos)
    | .sstringFence => endString args next (buf.stringBackLoop stop none pos)
    | _ => .next next

variable {buf args findStartOfComment}

/-! ### A step goes backward -/

theorem listsBackToken_le {stop pos start : Nat} {quoted : Bool} :
    (buf.listsBackToken args stop quoted pos = .prefixed start → start ≤ pos) ∧
      (∀ comstyle, buf.listsBackToken args stop quoted pos = .comment comstyle start →
        start ≤ pos) ∧
        ∀ code, buf.listsBackToken args stop quoted pos = .char code start → start ≤ pos := by
  unfold listsBackToken
  dsimp only
  repeat' split
  all_goals grind

theorem beginWord_next {stop : Nat} {s s' : ScanState}
    (h : buf.beginWord args stop s = .next s') : s'.pos = s.pos := by
  unfold beginWord at h
  split at h <;> cases h
  rfl

theorem stringBackLoop_le {stop pos q : Nat} {stringterm : Option Emchar}
    (h : buf.stringBackLoop stop stringterm pos = some q) : q ≤ pos := by
  induction pos using Nat.strongRecOn with
  | _ pos ih =>
    rw [stringBackLoop] at h
    split at h
    · cases h
    · split at h
      · cases h
        omega
      · have := ih (pos - 1) (by omega) h
        omega

theorem backwardStep_lt {stop : Nat} {s s' : ScanState} (hpos : stop < s.pos)
    (h : buf.backwardStep args findStartOfComment stop s = .next s') : s'.pos < s.pos := by
  unfold backwardStep at h
  dsimp only at h
  generalize hfrom : (if (buf.charQuoted (s.pos - 1)).value = true then s.pos - 2
    else s.pos - 1) = pos at h
  have hlt : pos < s.pos := by
    rw [← hfrom]
    split <;> omega
  refine Nat.lt_of_le_of_lt ?_ hlt
  split at h
  · rename_i start htoken
    cases h
    exact listsBackToken_le.1 htoken
  · rename_i comstyle start htoken
    cases h
    exact Nat.le_trans (findStartOfComment start comstyle).2
      (listsBackToken_le.2.1 _ htoken)
  · rename_i code start htoken
    refine Nat.le_trans ?_ (listsBackToken_le.2.2 _ htoken)
    split at h
    · exact Nat.le_of_eq (beginWord_next h)
    · exact Nat.le_of_eq (beginWord_next h)
    · split at h
      · cases h
        exact Nat.le_refl _
      · -- a second delimiter is gone over too
        have hle : (if start ≠ stop ∧ buf.bufFetchChar start = buf.bufFetchChar (start - 1)
            then start - 1 else start) ≤ start := by
          split <;> omega
        split at h
        · rw [closeCase_next h]
          exact hle
        · rw [openCase_next h]
          exact hle
    · exact Nat.le_of_eq (openCase_next h)
    · exact Nat.le_of_eq (closeCase_next h)
    · exact stringBackLoop_le (endString_next h)
    · exact stringBackLoop_le (endString_next h)
    · cases h
      exact Nat.le_refl _

variable (buf args findStartOfComment)

/-- The inner loop, backward: the state at `done2`, or what is returned. -/
def backwardLoop (noerror : Bool) (s : ScanState) : Except ScanResult ScanState :=
  if _h : buf.begv < s.pos then
    match _hstep : buf.backwardStep args findStartOfComment buf.begv s with
    | .next s' => backwardLoop noerror s'
    | .done s' => .ok s'
    | .lose => .error (loseResult noerror)
    | .premature => .error (prematureResult noerror)
  else .error (endOfBuffer noerror s)
  termination_by s.pos
  decreasing_by exact backwardStep_lt _h _hstep

theorem backwardLoop_eq {buf : Buf} {args : ScanArgs} {findStartOfComment : StartOfComment}
    {noerror : Bool} {s : ScanState} (h : buf.begv < s.pos) :
    buf.backwardLoop args findStartOfComment noerror s =
      match buf.backwardStep args findStartOfComment buf.begv s with
      | .next s' => buf.backwardLoop args findStartOfComment noerror s'
      | .done s' => .ok s'
      | .lose => .error (loseResult noerror)
      | .premature => .error (prematureResult noerror) := by
  rw [backwardLoop, dif_pos h]
  split <;> rename_i hstep <;> rw [hstep]

theorem backwardLoop_end {buf : Buf} {args : ScanArgs} {findStartOfComment : StartOfComment}
    {noerror : Bool} {s : ScanState} (h : s.pos ≤ buf.begv) :
    buf.backwardLoop args findStartOfComment noerror s = .error (endOfBuffer noerror s) := by
  rw [backwardLoop, dif_neg (Nat.not_lt.mpr h)]

/-- The outer loop, backward. -/
def scanBackward (noerror : Bool) : Nat → ScanState → ScanResult
  | 0, s => .position s.pos
  | count + 1, s =>
    match buf.backwardLoop args findStartOfComment noerror s with
    | .ok s' => scanBackward noerror count s'
    | .error r => r

def scanLists (parseSexpIgnoreComments : Bool) (pos : Nat) (count depth : Int)
    (sexpflag noerror : Bool) : ScanResult :=
  let args : ScanArgs := ⟨if 0 < depth then 0 else depth, sexpflag, parseSexpIgnoreComments⟩
  let s : ScanState := ⟨pos, depth, false⟩
  if 0 < count then buf.scanForward args noerror count.toNat s
  else buf.scanBackward args findStartOfComment noerror (-count).toNat s

end XEmacs.SyntaxScan.Buf
