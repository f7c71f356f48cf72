import Mathlib.Data.List.Basic

/-!
# Syntax codes and what a scanner sees of a buffer (syntax.h)

A syntax code is an integer: the class in the low bits, the prefix flag, and the comment flags in
bits 16 to 23. A scanner fetches the characters of a buffer and looks them up in the mirror of
the syntax table.
-/

namespace XEmacs.SyntaxScan

abbrev Emchar := Nat

/-- `enum syntaxcode`. -/
inductive Syntaxcode where
  | swhitespace
  | spunct
  | sword
  | ssymbol
  | sopen
  | sclose
  | squote
  | sstring
  | smath
  | sescape
  | scharquote
  | scomment
  | sendcomment
  | sinherit
  | scommentFence
  | sstringFence
  | smax
  deriving DecidableEq

/-- The codes in their order. -/
def Syntaxcode.ofBits : Nat → Syntaxcode
  | 0 => swhitespace
  | 1 => spunct
  | 2 => sword
  | 3 => ssymbol
  | 4 => sopen
  | 5 => sclose
  | 6 => squote
  | 7 => sstring
  | 8 => smath
  | 9 => sescape
  | 10 => scharquote
  | 11 => scomment
  | 12 => sendcomment
  | 13 => sinherit
  | 14 => scommentFence
  | 15 => sstringFence
  | _ => smax

/-- A value of the mirror table. -/
abbrev Syncode := BitVec 32

def syntaxFromCode (c : Syncode) : Syntaxcode := .ofBits (c &&& 0o177).toNat

def syntaxCodePrefix (c : Syncode) : Bool := (c >>> 7) &&& 1 != 0

def syntaxCodeCommentBits (c : Syncode) : BitVec 32 := (c >>> 16) &&& 0xff

def syntaxCommentStyleA : BitVec 32 := 0xaa

def syntaxCommentStyleB : BitVec 32 := 0x55

def syntaxFirstCharStart : BitVec 32 := 0xc0

def syntaxFirstCharEnd : BitVec 32 := 0x0c

def syntaxSecondCharStart : BitVec 32 := 0x30

def syntaxSecondCharEnd : BitVec 32 := 0x03

def syntaxCodesStartP (a b : Syncode) : Bool :=
  ((syntaxCodeCommentBits a &&& syntaxFirstCharStart) >>> 2) &&&
    (syntaxCodeCommentBits b &&& syntaxSecondCharStart) != 0

def syntaxCodesEndP (a b : Syncode) : Bool :=
  ((syntaxCodeCommentBits a &&& syntaxFirstCharEnd) >>> 2) &&&
    (syntaxCodeCommentBits b &&& syntaxSecondCharEnd) != 0

def syntaxCodeStartFirstP (a : Syncode) : Bool :=
  syntaxCodeCommentBits a &&& syntaxFirstCharStart != 0

def syntaxCodeEndSecondP (a : Syncode) : Bool :=
  syntaxCodeCommentBits a &&& syntaxSecondCharEnd != 0

def syntaxCodesMatchStartP (a b : Syncode) (mask : BitVec 32) : Bool :=
  syntaxCodeCommentBits a &&& syntaxFirstCharStart &&& mask != 0 &&
    syntaxCodeCommentBits b &&& syntaxSecondCharStart &&& mask != 0

def syntaxCodesMatchEndP (a b : Syncode) (mask : BitVec 32) : Bool :=
  syntaxCodeCommentBits a &&& syntaxFirstCharEnd &&& mask != 0 &&
    syntaxCodeCommentBits b &&& syntaxSecondCharEnd &&& mask != 0

def syntaxCodeMatches1charP (a : Syncode) (mask : BitVec 32) : Bool :=
  syntaxCodeCommentBits a &&& mask != 0

def syntaxCodesCommentMaskStart (a b : Syncode) : BitVec 32 :=
  if syntaxCodesMatchStartP a b syntaxCommentStyleA then syntaxCommentStyleA
  else if syntaxCodesMatchStartP a b syntaxCommentStyleB then syntaxCommentStyleB
  else 0

def syntaxCodesCommentMaskEnd (a b : Syncode) : BitVec 32 :=
  if syntaxCodesMatchEndP a b syntaxCommentStyleA then syntaxCommentStyleA
  else if syntaxCodesMatchEndP a b syntaxCommentStyleB then syntaxCommentStyleB
  else 0

def syntaxCodeComment1charMask (a : Syncode) : BitVec 32 :=
  if syntaxCodeMatches1charP a syntaxCommentStyleA then syntaxCommentStyleA
  else if syntaxCodeMatches1charP a syntaxCommentStyleB then syntaxCommentStyleB
  else 0

/-- The values of `comstyle`: 0, 1 and `ST_COMMENT_STYLE`. -/
inductive Comstyle where
  | a
  | b
  | stCommentStyle
  deriving DecidableEq

/-- `… == SYNTAX_COMMENT_STYLE_A ? 0 : 1`. -/
def Comstyle.ofMask (mask : BitVec 32) : Comstyle := if mask = syntaxCommentStyleA then a else b

/-- `comstyle ? SYNTAX_COMMENT_STYLE_B : SYNTAX_COMMENT_STYLE_A`. -/
def Comstyle.mask : Comstyle → BitVec 32
  | a => syntaxCommentStyleA
  | b => syntaxCommentStyleB
  | stCommentStyle => syntaxCommentStyleB

theorem Comstyle.ofMask_ne (mask : BitVec 32) : Comstyle.ofMask mask ≠ .stCommentStyle := by
  unfold Comstyle.ofMask
  split <;> nofun

/-- What a scanner sees of a buffer: `BUF_BEGV` and `BUF_ZV`, the characters in memory, also
those that are not accessible, the mirror table, and `syntax_match`. -/
structure Buf where
  begv : Nat
  zv : Nat
  bufFetchChar : Nat → Emchar
  mirrortab : Emchar → Syncode
  syntaxMatch : Emchar → Option Emchar

namespace Buf

variable (buf : Buf)

/-- `SYNTAX_CODE_FROM_CACHE (mirrortab, BUF_FETCH_CHAR (buf, pos))`. -/
def syncode (pos : Nat) : Syncode := buf.mirrortab (buf.bufFetchChar pos)

/-- `SYNTAX_FROM_CACHE (mirrortab, BUF_FETCH_CHAR (buf, pos))`. -/
def code (pos : Nat) : Syntaxcode := syntaxFromCode (buf.syncode pos)

end Buf

/-! ## Fetching -/

/-- A result, and the positions of the characters that have been fetched for it. -/
structure Fetching (α : Type) where
  value : α
  fetched : List Nat

namespace Fetching

instance : Monad Fetching where
  pure a := ⟨a, []⟩
  bind x f := ⟨(f x.value).value, x.fetched ++ (f x.value).fetched⟩

variable {α β : Type}

@[simp]
theorem value_pure (a : α) : (pure a : Fetching α).value = a := rfl

@[simp]
theorem value_bind (x : Fetching α) (f : α → Fetching β) :
    (x >>= f).value = (f x.value).value := rfl

/-- Only characters in front of `stop` are fetched. -/
def Inside (x : Fetching α) (stop : Nat) : Prop := ∀ pos ∈ x.fetched, pos < stop

variable {stop : Nat}

@[simp]
theorem inside_pure (a : α) : (pure a : Fetching α).Inside stop :=
  fun _ h => absurd h List.not_mem_nil

@[simp]
theorem inside_bind (x : Fetching α) (f : α → Fetching β) :
    (x >>= f).Inside stop ↔ x.Inside stop ∧ (f x.value).Inside stop := List.forall_mem_append

end Fetching

namespace Buf

variable (buf : Buf)

/-- The code of the character at `pos`, which is fetched. -/
def fetch (pos : Nat) : Fetching Syncode := ⟨buf.syncode pos, [pos]⟩

@[simp]
theorem value_fetch (pos : Nat) : (buf.fetch pos).value = buf.syncode pos := rfl

@[simp]
theorem inside_fetch {pos stop : Nat} : (buf.fetch pos).Inside stop ↔ pos < stop :=
  List.forall_mem_singleton

/-- The loop of `char_quoted`, at `pos`. -/
def charQuotedLoop : Nat → Bool → Fetching Bool
  | 0, quoted => pure quoted
  | pos + 1, quoted =>
    if buf.begv < pos + 1 then do
      let code := syntaxFromCode (← buf.fetch pos)
      if code ≠ .scharquote ∧ code ≠ .sescape then pure quoted
      else charQuotedLoop pos (! quoted)
    else pure quoted

def charQuoted (pos : Nat) : Fetching Bool := buf.charQuotedLoop pos false

theorem charQuoted_of_begv {buf : Buf} {pos : Nat} (h : pos ≤ buf.begv) :
    (buf.charQuoted pos).value = false := by
  unfold charQuoted
  cases pos with
  | zero => rfl
  | succ pos =>
    rw [charQuotedLoop, if_neg (Nat.not_lt.mpr h)]
    rfl

theorem charQuotedLoop_inside {pos stop : Nat} (h : pos ≤ stop) (quoted : Bool) :
    (buf.charQuotedLoop pos quoted).Inside stop := by
  induction pos generalizing quoted with
  | zero => exact Fetching.inside_pure _
  | succ pos ih =>
    rw [charQuotedLoop]
    split
    · rw [Fetching.inside_bind, inside_fetch]
      refine ⟨h, ?_⟩
      dsimp only
      split
      · exact Fetching.inside_pure _
      · exact ih (Nat.le_of_succ_le h) _
    · exact Fetching.inside_pure _

theorem charQuoted_inside {pos stop : Nat} (h : pos ≤ stop) :
    (buf.charQuoted pos).Inside stop := buf.charQuotedLoop_inside h false

end Buf

end XEmacs.SyntaxScan
