import Mathlib.Data.List.Basic

/-!
# Keys

A key of a key sequence is a keysym, a symbol or a character, with modifiers. Some
keys have two names that ASCII does not tell apart, and the meta prefix character
followed by a key stands for the key with the meta modifier.
-/

namespace XEmacs.Keymap

/-- A keysym: the symbols the code names, a symbol whose name is one character, the
others, and characters. -/
inductive Keysym
  | nil
  | space
  | backspace
  | tab
  | linefeed
  | return
  | escape
  | delete
  | charSymbol (c : Nat)
  | symbol (i : Nat)
  | char (c : Nat)
  deriving DecidableEq

/-- "If the keysym is a one-character symbol, use the char code instead." -/
def Keysym.charCode : Keysym → Keysym
  | .charSymbol c => .char c
  | k => k

/-- The modifier bits; `buttons` are the bits of the mouse buttons. -/
structure Modifiers where
  modControl : Bool
  modMeta : Bool
  modSuper : Bool
  modHyper : Bool
  modAlt : Bool
  modShift : Bool
  buttons : Nat
  deriving DecidableEq

namespace Modifiers

def none : Modifiers :=
  ⟨false, false, false, false, false, false, 0⟩

def onlyControl : Modifiers :=
  { none with modControl := true }

def onlyMeta : Modifiers :=
  { none with modMeta := true }

def sansControl (m : Modifiers) : Modifiers :=
  { m with modControl := false }

def sansMeta (m : Modifiers) : Modifiers :=
  { m with modMeta := false }

def withControl (m : Modifiers) : Modifiers :=
  { m with modControl := true }

def withMeta (m : Modifiers) : Modifiers :=
  { m with modMeta := true }

def sansButtons (m : Modifiers) : Modifiers :=
  { m with buttons := 0 }

end Modifiers

/-- `struct key_data`. -/
structure KeyData where
  keysym : Keysym
  modifiers : Modifiers
  deriving DecidableEq

/-- What the value of `meta-prefix-char` is: nil or an integer that is no character, a
character, or another key specifier. -/
inductive MetaPrefixChar
  | off
  | char (c : Nat)
  | key (k : KeyData)
  deriving DecidableEq

/-- What a keymap function reads besides the keymaps: the `ascii-character` properties
of keysyms, and `meta-prefix-char`. -/
structure KeyEnv where
  asciiCharacter : Keysym → Option Nat
  metaPrefixChar : MetaPrefixChar

/-- `character_to_event` with the top bit as meta and no backspace mapping. -/
def characterToEvent (c : Nat) : KeyData :=
  let m := if 127 < c ∧ c ≤ 255 then Modifiers.onlyMeta else Modifiers.none
  let c := if 127 < c ∧ c ≤ 255 then c - 128 else c
  if c < 32 then
    let c := c + 64
    if c = 73 then ⟨.tab, m⟩
    else if c = 74 then ⟨.linefeed, m⟩
    else if c = 77 then ⟨.return, m⟩
    else if c = 91 then ⟨.escape, m⟩
    else if 65 ≤ c ∧ c ≤ 90 then ⟨.char (c + 32), m.withControl⟩
    else ⟨.char c, m.withControl⟩
  else if c = 127 then ⟨.delete, m⟩
  else if c = 32 then ⟨.space, m⟩
  else ⟨.char c, m⟩

/-- The code `event_to_character` starts from. -/
def keysymCode (env : KeyEnv) : Keysym → Option Nat
  | .char c => some c
  | k => env.asciiCharacter k

/-- `event_to_character` with no extra modifiers, no meta and no non-ASCII keysyms
allowed; nothing for -1. -/
def eventToCharacter (env : KeyEnv) (k : KeyData) : Option Nat :=
  if k.modifiers.modSuper || k.modifiers.modHyper || k.modifiers.modAlt then
    none
  else
    match keysymCode env k.keysym with
    | none => none
    | some c =>
      if k.modifiers.modControl then
        if 65 ≤ c ∧ c ≤ 90 then none
        else
          let c := if 97 ≤ c ∧ c ≤ 122 then c - 32 else c
          if 64 ≤ c ∧ c ≤ 95 then
            if k.modifiers.modMeta then none else some (c - 64)
          else if c = 32 then
            if k.modifiers.modMeta then none else some 0
          else none
      else if k.modifiers.modMeta then none
      else some c

/-- `meta_prefix_char_p` on a window system. -/
def metaPrefixCharP (env : KeyEnv) (k : KeyData) : Bool :=
  match env.metaPrefixChar with
  | .off => false
  | .char c => eventToCharacter env k = some c
  | .key k' => k = k'

/-- `define_key_parser (Vmeta_prefix_char, &meta_key)`. -/
def metaKey (env : KeyEnv) : Option KeyData :=
  match env.metaPrefixChar with
  | .off => none
  | .char c => some (characterToEvent c)
  | .key k => some k

/-- `define_key_alternate_name`: the other key that is the same one in an ASCII
world. -/
def defineKeyAlternateName (k : KeyData) : Option KeyData :=
  let sansControl := k.modifiers.sansControl
  if k.modifiers.sansMeta = Modifiers.onlyControl then
    match k.keysym with
    | .space => some ⟨.char 64, k.modifiers⟩
    | .char 64 => some ⟨.space, k.modifiers⟩
    | .char 104 => some ⟨.backspace, sansControl⟩
    | .char 105 => some ⟨.tab, sansControl⟩
    | .char 106 => some ⟨.linefeed, sansControl⟩
    | .char 109 => some ⟨.return, sansControl⟩
    | .char 91 => some ⟨.escape, sansControl⟩
    | _ => none
  else if k.modifiers.sansMeta = Modifiers.none then
    match k.keysym with
    | .backspace => some ⟨.char 104, k.modifiers.withControl⟩
    | .tab => some ⟨.char 105, k.modifiers.withControl⟩
    | .linefeed => some ⟨.char 106, k.modifiers.withControl⟩
    | .return => some ⟨.char 109, k.modifiers.withControl⟩
    | .escape => some ⟨.char 91, k.modifiers.withControl⟩
    | _ => none
  else none

end XEmacs.Keymap
