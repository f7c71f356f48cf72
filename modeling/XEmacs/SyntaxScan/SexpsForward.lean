import XEmacs.SyntaxScan.ScanLists

/-!
# scan_sexps_forward (syntax.c)

The parser behind parse-partial-sexp. It goes over comments, strings, symbols and brackets up to
`end`, and keeps the depth, the starts of the last expressions of the levels, and whether it is
in a comment or a string.
-/

namespace XEmacs.SyntaxScan.Buf

/-- `struct level`. -/
structure Level where
  last : Option Nat
  prev : Option Nat
  deriving DecidableEq

/-- The field `instring`: -1, the character that ends the string, or `ST_STRING_STYLE`. -/
inductive Instring where
  | no
  | char (c : Emchar)
  | stStringStyle
  deriving DecidableEq

/-- The state of the parse: `from`, the fields of `struct lisp_parse_state` and the levels. -/
structure ParseState where
  pos : Nat
  depth : Int
  mindepth : Int
  instring : Instring
  incomment : Bool
  comstyle : Comstyle
  quoted : Bool
  comstrStart : Option Nat
  curlevel : Level
  outer : List Level
  deriving DecidableEq

/-- `curlevel->last = pos`. -/
def ParseState.setLast (s : ParseState) (pos : Nat) : ParseState :=
  { s with curlevel := { s.curlevel with last := some pos } }

/-- `curlevel->prev = curlevel->last`. -/
def ParseState.endSexp (s : ParseState) : ParseState :=
  { s with curlevel := { s.curlevel with prev := s.curlevel.last } }

/-- The other arguments. -/
structure ParseArgs where
  finish : Nat
  targetdepth : Int
  stopbefore : Bool
  commentstop : Int

def ParseArgs.boundaryStop (args : ParseArgs) : Bool := args.commentstop == -1

/-- How a step of the loop ends. -/
inductive ParseStep where
  | next (s : ParseState)
  | done (s : ParseState)
  | nestingTooDeep
  deriving DecidableEq

variable (buf : Buf) (args : ParseArgs)

/-- The recognition of comment starters: the style and where the text begins. -/
def sexpsStart (finish pos : Nat) : Option (Comstyle × Nat) :=
  let syncode := buf.syncode pos
  let code := syntaxFromCode syncode
  if code = .scomment then
    some (.ofMask (syntaxCodeComment1charMask syncode), pos + 1)
  else if code = .scommentFence then some (.stCommentStyle, pos + 1)
  else if (pos + 1 < finish ∧ syntaxCodeStartFirstP syncode) ∧
      syntaxCodesStartP syncode (buf.syncode (pos + 1)) then
    some (.ofMask (syntaxCodesCommentMaskStart syncode (buf.syncode (pos + 1))), pos + 2)
  else none

/-- What a step takes the characters at `pos` for. -/
def sexpsToken (finish pos : Nat) : Token :=
  match buf.sexpsStart finish pos with
  | some (comstyle, start) =>
    if syntaxCodePrefix (buf.syncode pos) then .prefixed start else .comment comstyle start
  | none =>
    if syntaxCodePrefix (buf.syncode pos) then .prefixed (pos + 1)
    else .char (buf.code pos) (pos + 1)

/-- From `startincomment` on. -/
def inComment (s : ParseState) : ParseStep :=
  if args.commentstop = 1 then .done s
  else
    match (buf.findEndOfComment args.finish s.comstyle s.pos).value with
    | none => .done { s with pos := args.finish }
    | some newfrom =>
      let s : ParseState := { s with pos := newfrom, incomment := false, comstyle := .a }
      if args.boundaryStop then .done s else .next s

/-- The case `Scomment`. -/
def commentCase (s : ParseState) : ParseStep :=
  let s : ParseState := { s with incomment := true }
  if args.commentstop ≠ 0 ∨ args.boundaryStop then .done s else buf.inComment args s

/-- From `symstarted` on. -/
def inSymbol (s : ParseState) : ParseStep :=
  match buf.wordLoop args.finish s.pos with
  | some pos => .next { s.endSexp with pos }
  | none => .done { s with pos := args.finish, quoted := true }

/-- From `startquoted` on. -/
def quotedSymbol (s : ParseState) : ParseStep :=
  if s.pos = args.finish then .done { s with quoted := true }
  else buf.inSymbol args { s with pos := s.pos + 1 }

/-- How the loop over a string ends: at the end of the string, at `end`, or at `end` behind
a quoting character. -/
inductive StringEnd where
  | ended (pos : Nat)
  | done (pos : Nat)
  | endquoted (pos : Nat)

/-- The loop from `startinstring` on. -/
def inStringLoop (finish : Nat) (instring : Instring) (pos : Nat) : StringEnd :=
  if _h : finish ≤ pos then .done pos
  else if buf.code pos = .sstring ∧ instring = .char (buf.bufFetchChar pos) then .ended pos
  else if buf.code pos = .sstringFence ∧ instring = .stStringStyle then .ended pos
  else if buf.code pos = .scharquote ∨ buf.code pos = .sescape then
    if finish ≤ pos + 1 then .endquoted (pos + 1)
    else inStringLoop finish instring (pos + 2)
  else inStringLoop finish instring (pos + 1)
  termination_by finish - pos

/-- What follows the loop over a string. -/
def afterString (s : ParseState) : StringEnd → ParseStep
  | .done pos => .done { s with pos }
  | .endquoted pos => .done { s with pos, quoted := true }
  | .ended pos =>
    let s : ParseState := { s.endSexp with instring := .no, pos := pos + 1 }
    if args.boundaryStop then .done s else .next s

/-- From `startinstring` on. -/
def inString (s : ParseState) : ParseStep :=
  afterString args s (buf.inStringLoop args.finish s.instring s.pos)

/-- From `startquotedinstring` on. -/
def quotedInString (s : ParseState) : ParseStep :=
  if args.finish ≤ s.pos then .done { s with quoted := true }
  else buf.inString args { s with pos := s.pos + 1 }

/-- The cases `Sstring` and `Sstring_fence`, for the character at `pos`. -/
def stringCase (pos : Nat) (instring : Instring) (s : ParseState) : ParseStep :=
  let s : ParseState := { s with comstrStart := some pos }
  if args.stopbefore then .done { s with pos }
  else
    let s : ParseState := { s.setLast pos with instring }
    if args.boundaryStop then .done s else buf.inString args s

/-- The case `Sopen`, for the character at `pos`. -/
def sexpsOpen (pos : Nat) (s : ParseState) : ParseStep :=
  if args.stopbefore then .done { s with pos }
  else
    let s : ParseState := { s.setLast pos with depth := s.depth + 1 }
    if s.outer.length + 1 = 100 then .nestingTooDeep
    else
      let s : ParseState := { s with curlevel := ⟨none, none⟩, outer := s.curlevel :: s.outer }
      if args.targetdepth = s.depth then .done s else .next s

/-- The case `Sclose`. -/
def sexpsClose (s : ParseState) : ParseStep :=
  let depth := s.depth - 1
  let s : ParseState :=
    { s with
      depth
      mindepth := if depth < s.mindepth then depth else s.mindepth
      curlevel := s.outer.headD s.curlevel
      outer := s.outer.tail }
  if args.targetdepth = depth then .done s.endSexp else .next s.endSexp

/-- The body of the loop. -/
def sexpsStep (s : ParseState) : ParseStep :=
  let pos := s.pos
  let s : ParseState :=
    match buf.sexpsStart args.finish pos with
    | some (comstyle, _) => { s with comstyle, comstrStart := some pos }
    | none => s
  match buf.sexpsToken args.finish pos with
  | .prefixed start => .next { s with pos := start }
  | .comment _ start => buf.commentCase args { s with pos := start }
  | .char code start =>
    let next : ParseState := { s with pos := start }
    match code with
    | .sescape | .scharquote =>
      if args.stopbefore then .done { s with pos } else buf.quotedSymbol args (next.setLast pos)
    | .sword | .ssymbol =>
      if args.stopbefore then .done { s with pos } else buf.inSymbol args (next.setLast pos)
    | .sopen => sexpsOpen args pos next
    | .sclose => sexpsClose args next
    | .sstring => buf.stringCase args pos (.char (buf.stringterm pos)) next
    | .sstringFence => buf.stringCase args pos .stStringStyle next
    | _ => .next next

variable {buf args}

/-! ## A step goes forward -/

theorem sexpsStart_lt {finish pos start : Nat} {comstyle : Comstyle}
    (h : buf.sexpsStart finish pos = some (comstyle, start)) : pos < start := by
  unfold sexpsStart at h
  dsimp only at h
  split at h
  · cases h
    omega
  · split at h
    · cases h
      omega
    · split at h <;> cases h
      omega

theorem le_wordLoop {stop pos q : Nat} (h : buf.wordLoop stop pos = some q) : pos ≤ q := by
  induction hn : stop - pos using Nat.strongRecOn generalizing pos with
  | _ n ih =>
    rw [wordLoop] at h
    split at h
    · split at h
      · split at h
        · cases h
        · have := ih _ (by omega) h rfl
          omega
      · split at h
        · cases h
        · have := ih _ (by omega) h rfl
          omega
      · have := ih _ (by omega) h rfl
        omega
      · have := ih _ (by omega) h rfl
        omega
      · have := ih _ (by omega) h rfl
        omega
      · cases h
        exact Nat.le_refl _
    · cases h
      exact Nat.le_refl _

theorem le_inStringLoop {finish pos q : Nat} {instring : Instring}
    (h : buf.inStringLoop finish instring pos = .ended q) : pos ≤ q := by
  induction hn : finish - pos using Nat.strongRecOn generalizing pos with
  | _ n ih =>
    rw [inStringLoop] at h
    split at h
    · cases h
    · split at h
      · cases h
        exact Nat.le_refl _
      · split at h
        · cases h
          exact Nat.le_refl _
        · split at h
          · split at h
            · cases h
            · have := ih _ (by omega) h rfl
              omega
          · have := ih _ (by omega) h rfl
            omega

theorem inComment_lt {s s' : ParseState} (h : buf.inComment args s = .next s') :
    s.pos < s'.pos := by
  unfold inComment at h
  split at h
  · cases h
  · split at h
    · cases h
    · rename_i newfrom hend
      have hlt := (findEndOfComment_eq_some.mp hend).bounds.1
      dsimp only at h
      split at h <;> cases h
      exact hlt

theorem inSymbol_le {s s' : ParseState} (h : buf.inSymbol args s = .next s') :
    s.pos ≤ s'.pos := by
  unfold inSymbol at h
  split at h
  · rename_i pos hend
    cases h
    exact le_wordLoop hend
  · cases h

theorem quotedSymbol_le {s s' : ParseState} (h : buf.quotedSymbol args s = .next s') :
    s.pos ≤ s'.pos := by
  unfold quotedSymbol at h
  split at h
  · cases h
  · have hle : s.pos + 1 ≤ s'.pos := inSymbol_le h
    omega

theorem inString_le {s s' : ParseState} (h : buf.inString args s = .next s') :
    s.pos ≤ s'.pos := by
  unfold inString afterString at h
  split at h
  · cases h
  · cases h
  · rename_i pos hend
    have hle := le_inStringLoop hend
    dsimp only at h
    split at h <;> cases h
    exact Nat.le_succ_of_le hle

theorem stringCase_le {s s' : ParseState} {pos : Nat} {instring : Instring}
    (h : buf.stringCase args pos instring s = .next s') : s.pos ≤ s'.pos := by
  unfold stringCase at h
  dsimp only at h
  split at h
  · cases h
  · split at h
    · cases h
    · have hle := inString_le h
      exact hle

theorem sexpsOpen_le {s s' : ParseState} {pos : Nat} (h : sexpsOpen args pos s = .next s') :
    s.pos ≤ s'.pos := by
  unfold sexpsOpen at h
  dsimp only at h
  split at h
  · cases h
  · split at h
    · cases h
    · split at h <;> cases h
      exact Nat.le_refl _

theorem sexpsClose_le {s s' : ParseState} (h : sexpsClose args s = .next s') :
    s.pos ≤ s'.pos := by
  unfold sexpsClose at h
  dsimp only at h
  split at h <;> cases h
  exact Nat.le_refl _

theorem sexpsToken_lt {finish pos start : Nat} :
    (buf.sexpsToken finish pos = .prefixed start → pos < start) ∧
      (∀ comstyle, buf.sexpsToken finish pos = .comment comstyle start → pos < start) ∧
        ∀ code, buf.sexpsToken finish pos = .char code start → start = pos + 1 := by
  unfold sexpsToken
  split
  · rename_i comstyle start' hstart
    have := sexpsStart_lt hstart
    split
    all_goals grind
  · split
    all_goals grind

theorem sexpsStep_lt {s s' : ParseState} (h : buf.sexpsStep args s = .next s') :
    s.pos < s'.pos := by
  unfold sexpsStep at h
  dsimp only at h
  split at h
  · rename_i start htoken
    cases h
    exact sexpsToken_lt.1 htoken
  · rename_i comstyle start htoken
    have hlt := sexpsToken_lt.2.1 _ htoken
    unfold commentCase at h
    dsimp only at h
    split at h
    · cases h
    · have hend := inComment_lt h
      exact Nat.lt_trans hlt hend
  · rename_i code start htoken
    obtain rfl := sexpsToken_lt.2.2 _ htoken
    split at h
    · split at h
      · cases h
      · have hle := quotedSymbol_le h
        exact hle
    · split at h
      · cases h
      · have hle := quotedSymbol_le h
        exact hle
    · split at h
      · cases h
      · have hle := inSymbol_le h
        exact hle
    · split at h
      · cases h
      · have hle := inSymbol_le h
        exact hle
    · have hle := sexpsOpen_le h
      exact hle
    · have hle := sexpsClose_le h
      exact hle
    · have hle := stringCase_le h
      exact hle
    · have hle := stringCase_le h
      exact hle
    · cases h
      exact Nat.lt_succ_self _

variable (buf args)

/-- The loop; the error of a nesting that is too deep is `none`. -/
def sexpsLoop (s : ParseState) : Option ParseState :=
  if _h : s.pos < args.finish then
    match _hstep : buf.sexpsStep args s with
    | .next s' => sexpsLoop s'
    | .done s' => some s'
    | .nestingTooDeep => none
  else some s
  termination_by args.finish - s.pos
  decreasing_by
    have := sexpsStep_lt _hstep
    omega

/-- `scan_sexps_forward` with the state `s`, which is that of a parse that ended there or
the one outside everything; `startQuoted` says that it ended behind a quoting character. -/
def scanSexpsForward (startQuoted : Bool) (s : ParseState) : Option ParseState :=
  let enter : ParseStep → Option ParseState
    | .next s' => buf.sexpsLoop args s'
    | .done s' => some s'
    | .nestingTooDeep => none
  if s.incomment then enter (buf.inComment args s)
  else if s.instring ≠ .no then
    if startQuoted then enter (buf.quotedInString args s) else enter (buf.inString args s)
  else if startQuoted then enter (buf.quotedSymbol args s)
  else buf.sexpsLoop args s

end XEmacs.SyntaxScan.Buf
