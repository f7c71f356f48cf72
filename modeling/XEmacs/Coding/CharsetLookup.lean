import XEmacs.Coding.Charsets
import XEmacs.Lib.Fallible

/-!
# Making charsets (mule-charset.c)

`make-charset` and `make-reverse-direction-charset` take a free leading byte for the dimension
and enter the new charset into the tables.
-/

namespace XEmacs.Coding

open Fallible List Function

/-- `struct charset_lookup` with the charsets of its two tables, and the names in
`Vcharset_hash_table`. -/
structure CharsetLookup where
  list : List Charset
  names : List String
  nextAllocated1ByteLeadingByte : Nat
  nextAllocated2ByteLeadingByte : Nat
deriving DecidableEq, Repr

/-- The properties that `make-charset` is given, with values of the type they should have. The
names and the registry are strings that only other functions read. -/
inductive CharsetProperty where
  | shortName
  | longName
  | registry
  | dimension (value : Int)
  | chars (value : Int)
  | columns (value : Int)
  | graphic (value : Int)
  | direction (value : Option Direction)
  | final (value : Int)
  | cclProgram (valid : Bool)
  | unrecognized
deriving DecidableEq, Repr

/-- The variables of `make-charset` that the properties set. -/
structure CharsetSettings where
  dimension : Int := 1
  chars : Int := 94
  graphic : Int := 0
  final : Int := 0
  direction : Direction := .leftToRight
deriving DecidableEq, Repr

/-- One round of the loop over the properties. -/
def CharsetProperty.set (s : CharsetSettings) : CharsetProperty → Except String CharsetSettings
  | .shortName | .longName | .registry => .ok s
  | .dimension value =>
    if value < 1 ∨ 2 < value then .error "Invalid value for 'dimension"
    else .ok { s with dimension := value }
  | .chars value =>
    if value ≠ 94 ∧ value ≠ 96 then .error "Invalid value for 'chars"
    else .ok { s with chars := value }
  | .columns value =>
    if value ≠ 1 ∧ value ≠ 2 then .error "Invalid value for 'columns" else .ok s
  | .graphic value =>
    if value < 0 ∨ 1 < value then .error "Invalid value for 'graphic"
    else .ok { s with graphic := value }
  | .direction (some value) => .ok { s with direction := value }
  | .direction none => .error "Invalid value for 'direction"
  | .final value =>
    if value < 0x30 ∨ 0x7E < value then .error "Invalid value for 'final"
    else .ok { s with final := value }
  | .cclProgram valid =>
    if valid then .ok s else .error "Invalid value for 'ccl-program"
  | .unrecognized => .error "Unrecognized property"

def CharsetSettings.type (s : CharsetSettings) : CharsetType :=
  if s.dimension = 1 then if s.chars = 94 then .type94 else .type96
  else if s.chars = 94 then .type94x94 else .type96x96

/-- A charset after the one with a leading byte has got a reverse. -/
def Charset.setReverse (lb new : Nat) (c : Charset) : Charset :=
  if c.leadingByte = lb then { c with reverseDirectionCharset := some new } else c

namespace CharsetLookup

/-- The tables after `complex_vars_of_mule_charset`. -/
def initial : CharsetLookup where
  list := standardCharsets
  names := ["ascii", "control-1", "latin-iso8859-1", "latin-iso8859-2", "latin-iso8859-3",
    "latin-iso8859-4", "thai-tis620", "greek-iso8859-7", "arabic-iso8859-6", "hebrew-iso8859-8",
    "katakana-jisx0201", "latin-jisx0201", "cyrillic-iso8859-5", "latin-iso8859-9",
    "japanese-jisx0208-1978", "chinese-gb2312", "japanese-jisx0208", "korean-ksc5601",
    "japanese-jisx0212", "chinese-cns11643-1", "chinese-cns11643-2", "chinese-big5-1",
    "chinese-big5-2"]
  nextAllocated1ByteLeadingByte := 0xA0
  nextAllocated2ByteLeadingByte := 0xF0

variable (l : CharsetLookup)

/-- `CHARSET_BY_LEADING_BYTE`. -/
def byLeadingByte (lb : Nat) : Option Charset := l.list.find? (·.leadingByte = lb)

/-- `CHARSET_BY_ATTRIBUTES`; a final byte of zero is not in the table. -/
def byAttributes (type : CharsetType) (final : Nat) (direction : Direction) : Option Charset :=
  l.list.find? fun c =>
    c.final ≠ 0 ∧ c.type = type ∧ c.final = final ∧ c.direction = direction

/-- `get_unallocated_leading_byte`. The counter for two dimensions is a byte, which is zero after
the last leading byte. -/
def getUnallocatedLeadingByte (dimension : Nat) : Except String (Nat × CharsetLookup) :=
  if dimension = 1 then
    if 0xEF < l.nextAllocated1ByteLeadingByte then
      .error "No more character sets free for this dimension"
    else .ok (l.nextAllocated1ByteLeadingByte,
      { l with nextAllocated1ByteLeadingByte := l.nextAllocated1ByteLeadingByte + 1 })
  else if l.nextAllocated2ByteLeadingByte = 0 then
    .error "No more character sets free for this dimension"
  else .ok (l.nextAllocated2ByteLeadingByte,
    { l with nextAllocated2ByteLeadingByte := (l.nextAllocated2ByteLeadingByte + 1) % 256 })

/-- `make_charset`: the asserts, and the charset entered into the tables. -/
def makeCharset (name : String) (c : Charset) : Except String CharsetLookup :=
  if c.final ≠ 0 ∧ (l.byAttributes c.type c.final c.direction).isSome then
    .error "Assertion failed: charset_by_attributes"
  else if (l.byLeadingByte c.leadingByte).isSome then
    .error "Assertion failed: charset_by_leading_byte"
  else .ok { l with list := c :: l.list, names := name :: l.names }

def fmakeCharset (name : String) (props : List CharsetProperty) : Except String CharsetLookup :=
  if name ∈ l.names then .error "Cannot redefine existing charset"
  else do
    let s ← props.foldlM CharsetProperty.set {}
    if s.final = 0 then .error "'final must be specified"
    else if s.dimension = 2 ∧ 0x5F < s.final then
      .error "Final must be in the range 0x30 - 0x5F for dimension == 2"
    else if (l.byAttributes s.type s.final.toNat .leftToRight).isSome ∨
        (l.byAttributes s.type s.final.toNat .rightToLeft).isSome then
      .error "Character set already defined for this DIMENSION/CHARS/FINAL combo"
    else do
      let (id, l) ← l.getUnallocatedLeadingByte s.dimension.toNat
      l.makeCharset name
        { leadingByte := id, repBytes := s.dimension.toNat + 2, type := s.type,
          graphic := s.graphic.toNat, final := s.final.toNat, direction := s.direction,
          reverseDirectionCharset := none }

/-- `CHARSET_REVERSE_DIRECTION_CHARSET (cs) = new_charset`, for the charset with a leading byte. -/
def setReverseDirectionCharset (lb new : Nat) : CharsetLookup :=
  { l with list := l.list.map (Charset.setReverse lb new) }

/-- `make-reverse-direction-charset`, for the charset with a leading byte. -/
def fmakeReverseDirectionCharset (lb : Nat) (newName : String) : Except String CharsetLookup :=
  match l.byLeadingByte lb with
  | none => .error "No such charset"
  | some cs =>
    if cs.reverseDirectionCharset.isSome then
      .error "Charset already has reverse-direction charset"
    else if newName ∈ l.names then .error "Cannot redefine existing charset"
    else do
      let (id, l) ← l.getUnallocatedLeadingByte cs.dimension
      let l ← l.makeCharset newName
        { leadingByte := id, repBytes := cs.dimension + 2, type := cs.type,
          graphic := cs.graphic, final := cs.final, direction := cs.direction.reverse,
          reverseDirectionCharset := none }
      return (l.setReverseDirectionCharset lb id).setReverseDirectionCharset id lb

/-- The tables that a program can make. -/
inductive Reachable : CharsetLookup → Prop
  | initial : Reachable initial
  | makeCharset {l l' : CharsetLookup} {name : String} {props : List CharsetProperty}
    (hl : Reachable l) (h : l.fmakeCharset name props = .ok l') : Reachable l'
  | makeReverseDirectionCharset {l l' : CharsetLookup} {lb : Nat} {newName : String}
    (hl : Reachable l) (h : l.fmakeReverseDirectionCharset lb newName = .ok l') : Reachable l'

end CharsetLookup

/-! ### Charsets that are made -/

section Made

variable {charsets : Charsets} {c c' : Charset}

theorem standardCharsets_made : ∀ c ∈ standardCharsets,
    c.leadingByte < 0xA0 ∧ (c.final = 0 ∨ (0x30 ≤ c.final ∧ c.final ≤ 0x7E)) ∧
      c.graphic ≤ 1 := by
  decide

theorem Direction.ne_reverse (d : Direction) : d ≠ d.reverse := by
  cases d <;> decide

theorem Direction.reverse_reverse (d : Direction) : d.reverse.reverse = d := by
  cases d <;> rfl

section setReverse

variable (lb new : Nat) (c : Charset)

@[simp] theorem Charset.setReverse_leadingByte :
    (c.setReverse lb new).leadingByte = c.leadingByte := by
  unfold setReverse
  split <;> rfl

@[simp] theorem Charset.setReverse_final : (c.setReverse lb new).final = c.final := by
  unfold setReverse
  split <;> rfl

@[simp] theorem Charset.setReverse_direction :
    (c.setReverse lb new).direction = c.direction := by
  unfold setReverse
  split <;> rfl

@[simp] theorem Charset.setReverse_type : (c.setReverse lb new).type = c.type := by
  unfold setReverse
  split <;> rfl

@[simp] theorem Charset.setReverse_made : (c.setReverse lb new).made = c.made := by
  unfold setReverse
  split <;> rfl

variable {c} in
theorem Charset.UserDefined.setReverse (h : c.UserDefined) :
    (c.setReverse lb new).UserDefined := by
  unfold Charset.setReverse
  split
  · exact ⟨h.repBytes, h.leadingByte, h.final, h.graphic⟩
  · exact h

end setReverse

namespace Charsets

theorem final_graphic (hc : c ∈ charsets.list) :
    (c.final = 0 ∨ (0x30 ≤ c.final ∧ c.final ≤ 0x7E)) ∧ c.graphic ≤ 1 := by
  obtain hstandard | huser := charsets.known c hc
  · exact (standardCharsets_made c.made hstandard).2
  · exact ⟨huser.final, huser.graphic⟩

/-- A charset more, of attributes that no other one has. -/
def add (charsets : Charsets) (c : Charset) (huser : c.UserDefined)
    (hreverse : c.reverseDirectionCharset = none)
    (hfresh : ∀ c' ∈ charsets.list, c'.leadingByte ≠ c.leadingByte)
    (hattributes : ∀ c' ∈ charsets.list, ¬ c'.SameAttributes c) : Charsets where
  list := c :: charsets.list
  leadingByte_inj := by
    rintro c₁ h₁ c₂ h₂ h
    obtain rfl | hc₁ := List.mem_cons.mp h₁ <;> obtain rfl | hc₂ := List.mem_cons.mp h₂
    · rfl
    · exact absurd h.symm (hfresh c₂ hc₂)
    · exact absurd h (hfresh c₁ hc₁)
    · exact charsets.leadingByte_inj c₁ hc₁ c₂ hc₂ h
  attributes_inj := by
    rintro c₁ h₁ c₂ h₂ hfinal hsame hdir
    obtain rfl | hc₁ := List.mem_cons.mp h₁ <;> obtain rfl | hc₂ := List.mem_cons.mp h₂
    · rfl
    · exact absurd ⟨hsame.1.symm, hsame.2.symm⟩ (hattributes c₂ hc₂)
    · exact absurd hsame (hattributes c₁ hc₁)
    · exact charsets.attributes_inj c₁ hc₁ c₂ hc₂ hfinal hsame hdir
  standard c₁ h₁ := by
    obtain ⟨c₂, h₂, hmade⟩ := charsets.standard c₁ h₁
    exact ⟨c₂, mem_cons_of_mem c h₂, hmade⟩
  known c₁ h₁ := by
    obtain rfl | h₁ := List.mem_cons.mp h₁
    · exact .inr huser
    · exact charsets.known c₁ h₁
  reverse c₁ h₁ lb hlb := by
    obtain rfl | h₁ := List.mem_cons.mp h₁
    · rw [hreverse] at hlb
      cases hlb
    · obtain ⟨c₂, h₂, hc₂⟩ := charsets.reverse c₁ h₁ lb hlb
      exact ⟨c₂, mem_cons_of_mem c h₂, hc₂⟩
  reverse_complete c₁ h₁ c₂ h₂ hfinal hsame hdir := by
    obtain rfl | hc₁ := List.mem_cons.mp h₁ <;> obtain rfl | hc₂ := List.mem_cons.mp h₂
    · exact absurd hdir (Direction.ne_reverse _)
    · exact absurd ⟨hsame.1.symm, hsame.2.symm⟩ (hattributes c₂ hc₂)
    · exact absurd hsame (hattributes c₁ hc₁)
    · exact charsets.reverse_complete c₁ hc₁ c₂ hc₂ hfinal hsame hdir

theorem eq_of_sameAttributes (hc : c ∈ charsets.list) (hreverse : c.reverseDirectionCharset = none)
    (hc' : c' ∈ charsets.list) (hfinal : c.final ≠ 0) (hsame : c.SameAttributes c') : c = c' := by
  by_cases hdirection : c'.direction = c.direction
  · exact charsets.attributes_inj c hc c' hc' hfinal hsame hdirection.symm
  · have hopposite : c'.direction = c.direction.reverse := by
      revert hdirection
      cases c'.direction <;> cases c.direction <;> decide
    rw [charsets.reverse_complete c hc c' hc' hfinal hsame hopposite] at hreverse
    cases hreverse

/-- A charset that goes in the other direction than one that has no reverse yet, and the two
linked. -/
def addReverse (charsets : Charsets) (c new : Charset) (hc : c ∈ charsets.list)
    (hreverse : c.reverseDirectionCharset = none) (huser : new.UserDefined)
    (hfresh : ∀ c' ∈ charsets.list, c'.leadingByte ≠ new.leadingByte)
    (hsame : c.SameAttributes new) (hdirection : new.direction = c.direction.reverse) :
    Charsets where
  list := ((new :: charsets.list).map (Charset.setReverse c.leadingByte new.leadingByte)).map
    (Charset.setReverse new.leadingByte c.leadingByte)
  leadingByte_inj := by
    simp only [map_map, forall_mem_map, comp_apply,
      Charset.setReverse_leadingByte]
    intro c₁ h₁ c₂ h₂ h
    obtain rfl | hc₁ := List.mem_cons.mp h₁ <;> obtain rfl | hc₂ := List.mem_cons.mp h₂
    · rfl
    · exact absurd h.symm (hfresh c₂ hc₂)
    · exact absurd h (hfresh c₁ hc₁)
    · rw [charsets.leadingByte_inj c₁ hc₁ c₂ hc₂ h]
  attributes_inj := by
    simp only [map_map, forall_mem_map, comp_apply,
      Charset.SameAttributes, Charset.setReverse_final, Charset.setReverse_type,
      Charset.setReverse_direction]
    -- of the attributes of the new charset there is only the one it reverses
    have hother : ∀ c₁ ∈ charsets.list, c₁.final ≠ 0 → c₁.SameAttributes new →
        c₁.direction ≠ new.direction := by
      intro c₁ hc₁ hfinal hsame₁ hdir
      have hc₁c : c.SameAttributes c₁ :=
        ⟨hsame.1.trans hsame₁.1.symm, hsame.2.trans hsame₁.2.symm⟩
      rw [← eq_of_sameAttributes hc hreverse hc₁ (hc₁c.2 ▸ hfinal) hc₁c, hdirection] at hdir
      exact Direction.ne_reverse _ hdir
    intro c₁ h₁ c₂ h₂ hfinal hattributes hdir
    obtain rfl | hc₁ := List.mem_cons.mp h₁ <;> obtain rfl | hc₂ := List.mem_cons.mp h₂
    · rfl
    · exact absurd hdir.symm
        (hother c₂ hc₂ (hattributes.2 ▸ hfinal) ⟨hattributes.1.symm, hattributes.2.symm⟩)
    · exact absurd hdir (hother c₁ hc₁ hfinal hattributes)
    · rw [charsets.attributes_inj c₁ hc₁ c₂ hc₂ hfinal hattributes hdir]
  standard c₁ h₁ := by
    obtain ⟨c₂, h₂, hmade⟩ := charsets.standard c₁ h₁
    refine ⟨_, mem_map_of_mem (mem_map_of_mem (mem_cons_of_mem new h₂)), ?_⟩
    rw [Charset.setReverse_made, Charset.setReverse_made, hmade]
  known := by
    simp only [map_map, forall_mem_map, comp_apply, Charset.setReverse_made]
    intro c₁ h₁
    obtain rfl | hc₁ := List.mem_cons.mp h₁
    · exact .inr ((huser.setReverse ..).setReverse ..)
    · obtain hstandard | huser₁ := charsets.known c₁ hc₁
      · exact .inl hstandard
      · exact .inr ((huser₁.setReverse ..).setReverse ..)
  reverse := by
    simp only [map_map, mem_map, exists_exists_and_eq_and, comp_apply]
    rintro _ ⟨c₁, h₁, rfl⟩ lb hlb
    simp only [Charset.SameAttributes, Charset.setReverse_final, Charset.setReverse_type,
      Charset.setReverse_direction, Charset.setReverse_leadingByte]
    obtain rfl | hc₁ := List.mem_cons.mp h₁
    · rw [Charset.setReverse, if_pos (Charset.setReverse_leadingByte ..)] at hlb
      cases hlb
      refine ⟨c, mem_cons_of_mem _ hc, rfl, ⟨hsame.1.symm, hsame.2.symm⟩, ?_⟩
      rw [hdirection, Direction.reverse_reverse]
    · rw [Charset.setReverse, if_neg (by simpa using hfresh c₁ hc₁), Charset.setReverse] at hlb
      split at hlb
      · rename_i heq
        cases hlb
        rw [charsets.leadingByte_inj c₁ hc₁ c hc heq]
        exact ⟨new, mem_cons_self, rfl, hsame, hdirection⟩
      · obtain ⟨c₂, hc₂, h⟩ := charsets.reverse c₁ hc₁ lb hlb
        exact ⟨c₂, mem_cons_of_mem _ hc₂, h⟩
  reverse_complete := by
    simp only [map_map, forall_mem_map, comp_apply,
      Charset.SameAttributes, Charset.setReverse_final, Charset.setReverse_type,
      Charset.setReverse_direction, Charset.setReverse_leadingByte]
    intro c₁ h₁ c₂ h₂ hfinal hattributes hdir
    obtain rfl | hc₁ := List.mem_cons.mp h₁
    · rw [Charset.setReverse, if_pos (Charset.setReverse_leadingByte ..)]
      obtain rfl | hc₂ := List.mem_cons.mp h₂
      · exact absurd hdir (Direction.ne_reverse _)
      · have hcc₂ : c.SameAttributes c₂ :=
          ⟨hsame.1.trans hattributes.1, hsame.2.trans hattributes.2⟩
        rw [eq_of_sameAttributes hc hreverse hc₂ (hsame.2 ▸ hfinal) hcc₂]
    · rw [Charset.setReverse, if_neg (by simpa using hfresh c₁ hc₁), Charset.setReverse]
      obtain rfl | hc₂ := List.mem_cons.mp h₂
      · have hcc₁ : c.SameAttributes c₁ :=
          ⟨hsame.1.trans hattributes.1.symm, hsame.2.trans hattributes.2.symm⟩
        rw [eq_of_sameAttributes hc hreverse hc₁ (hcc₁.2 ▸ hfinal) hcc₁, if_pos rfl]
      · have hrev := charsets.reverse_complete c₁ hc₁ c₂ hc₂ hfinal hattributes hdir
        have hne : c₁.leadingByte ≠ c.leadingByte := by
          intro heq
          rw [charsets.leadingByte_inj c₁ hc₁ c hc heq, hreverse] at hrev
          cases hrev
        rw [if_neg hne, hrev]

end Charsets

end Made

/-! ### Runs of programs -/

/-- What the checks of `make-charset` leave of the settings. -/
structure CharsetSettings.Checked (s : CharsetSettings) : Prop where
  dimension : s.dimension = 1 ∨ s.dimension = 2
  graphic : 0 ≤ s.graphic ∧ s.graphic ≤ 1
  final : s.final = 0 ∨ (0x30 ≤ s.final ∧ s.final ≤ 0x7E)

namespace CharsetSettings.Checked

variable {s s' : CharsetSettings}

theorem initial : Checked {} := ⟨.inl rfl, by decide, .inl rfl⟩

theorem set (h : s.Checked) {p : CharsetProperty} (hset : p.set s = .ok s') : s'.Checked := by
  cases p with
  | dimension value =>
    rw [CharsetProperty.set] at hset
    split at hset <;> cases hset
    exact ⟨show value = 1 ∨ value = 2 by omega, h.graphic, h.final⟩
  | chars value =>
    rw [CharsetProperty.set] at hset
    split at hset <;> cases hset
    exact ⟨h.dimension, h.graphic, h.final⟩
  | graphic value =>
    rw [CharsetProperty.set] at hset
    split at hset <;> cases hset
    exact ⟨h.dimension, show 0 ≤ value ∧ value ≤ 1 by omega, h.final⟩
  | final value =>
    rw [CharsetProperty.set] at hset
    split at hset <;> cases hset
    exact ⟨h.dimension, h.graphic, .inr (show 0x30 ≤ value ∧ value ≤ 0x7E by omega)⟩
  | columns value | cclProgram valid =>
    rw [CharsetProperty.set] at hset
    split at hset <;> cases hset
    exact h
  | direction value =>
    cases value <;> cases hset
    exact ⟨h.dimension, h.graphic, h.final⟩
  | shortName | longName | registry =>
    cases hset
    exact h
  | unrecognized => cases hset

theorem foldlM (h : s.Checked) {props : List CharsetProperty}
    (hset : props.foldlM CharsetProperty.set s = .ok s') : s'.Checked := by
  induction props generalizing s with
  | nil =>
    cases hset
    exact h
  | cons p props ih =>
    rw [foldlM_cons] at hset
    cases hp : p.set s with
    | error e =>
      rw [hp] at hset
      cases hset
    | ok t =>
      rw [hp] at hset
      exact ih (h.set hp) hset

theorem type_dimension (h : s.Checked) : s.type.dimension = s.dimension.toNat := by
  unfold CharsetSettings.type
  obtain hd | hd := h.dimension
  · rw [hd, if_pos rfl]
    split <;> rfl
  · rw [hd, if_neg (by decide)]
    split <;> rfl

end CharsetSettings.Checked

namespace CharsetLookup

variable {l l' : CharsetLookup}

/-- The counters are above the leading bytes that have been taken. -/
structure Counted (l : CharsetLookup) : Prop where
  range1 : 0xA0 ≤ l.nextAllocated1ByteLeadingByte ∧ l.nextAllocated1ByteLeadingByte ≤ 0xF0
  range2 : l.nextAllocated2ByteLeadingByte = 0 ∨
    (0xF0 ≤ l.nextAllocated2ByteLeadingByte ∧ l.nextAllocated2ByteLeadingByte ≤ 0xFF)
  taken1 : ∀ c ∈ l.list, c.leadingByte ≤ 0xEF → c.leadingByte < l.nextAllocated1ByteLeadingByte
  taken2 : ∀ c ∈ l.list, l.nextAllocated2ByteLeadingByte = 0 ∨
    c.leadingByte < l.nextAllocated2ByteLeadingByte

/-- The leading bytes for one and for two dimensions. -/
def LeadingByteFor (dimension id : Nat) : Prop :=
  (dimension = 1 ∧ 0xA0 ≤ id ∧ id ≤ 0xEF) ∨ (dimension = 2 ∧ 0xF0 ≤ id ∧ id ≤ 0xFF)

theorem Counted.getUnallocatedLeadingByte (h : l.Counted) {dimension id : Nat}
    (hdim : dimension = 1 ∨ dimension = 2)
    (hget : l.getUnallocatedLeadingByte dimension = .ok (id, l')) :
    l'.list = l.list ∧ LeadingByteFor dimension id ∧ (∀ c ∈ l.list, c.leadingByte ≠ id) ∧
      ∀ l'' : CharsetLookup,
        l''.nextAllocated1ByteLeadingByte = l'.nextAllocated1ByteLeadingByte →
        l''.nextAllocated2ByteLeadingByte = l'.nextAllocated2ByteLeadingByte →
        (∀ c ∈ l''.list, c.leadingByte = id ∨ ∃ c' ∈ l.list, c.leadingByte = c'.leadingByte) →
        l''.Counted := by
  have hr1 := h.range1
  have hr2 := h.range2
  obtain rfl | rfl := hdim
  · rw [CharsetLookup.getUnallocatedLeadingByte, if_pos rfl] at hget
    split at hget <;> cases hget
    refine ⟨rfl, .inl ⟨rfl, by omega⟩, fun c hc heq => ?_, fun l'' h1 h2 hlist => ?_⟩
    · have := h.taken1 c hc (by omega)
      omega
    · simp only at h1 h2
      refine ⟨by omega, by omega, fun c hc hle => ?_, fun c hc => ?_⟩
      · obtain hid | ⟨c', hc', heq⟩ := hlist c hc
        · omega
        · have := h.taken1 c' hc' (by omega)
          omega
      · obtain hid | ⟨c', hc', heq⟩ := hlist c hc
        · omega
        · have := h.taken2 c' hc'
          omega
  · rw [CharsetLookup.getUnallocatedLeadingByte, if_neg (by decide)] at hget
    split at hget <;> cases hget
    refine ⟨rfl, .inr ⟨rfl, by omega⟩, fun c hc heq => ?_, fun l'' h1 h2 hlist => ?_⟩
    · have := h.taken2 c hc
      omega
    · simp only at h1 h2
      refine ⟨by omega, by omega, fun c hc hle => ?_, fun c hc => ?_⟩
      · obtain hid | ⟨c', hc', heq⟩ := hlist c hc
        · omega
        · have := h.taken1 c' hc' (by omega)
          omega
      · obtain hid | ⟨c', hc', heq⟩ := hlist c hc
        · omega
        · have := h.taken2 c' hc'
          omega

theorem makeCharset_eq {name : String} {c : Charset}
    (hattributes : c.final ≠ 0 → l.byAttributes c.type c.final c.direction = none)
    (hfresh : ∀ c' ∈ l.list, c'.leadingByte ≠ c.leadingByte) :
    l.makeCharset name c = .ok { l with list := c :: l.list, names := name :: l.names } := by
  have hlookup : l.byLeadingByte c.leadingByte = none :=
    List.find?_eq_none.mpr fun c' hc' => by simpa using hfresh c' hc'
  rw [makeCharset, if_neg, if_neg]
  · rw [hlookup]
    exact Bool.false_ne_true
  · rintro ⟨hfinal, hsome⟩
    rw [hattributes hfinal] at hsome
    cases hsome

theorem byAttributes_eq_none {type : CharsetType} {final : Nat} {direction : Direction} :
    l.byAttributes type final direction = none ↔
      ∀ c ∈ l.list, c.final ≠ 0 → c.type = type → c.final = final → c.direction ≠ direction := by
  rw [byAttributes, find?_eq_none]
  refine forall₂_congr fun c _ => ?_
  rw [decide_eq_true_eq]
  tauto

/-- What every run of programs keeps. -/
structure Sound (l : CharsetLookup) : Prop where
  counted : l.Counted
  charsets : ∃ charsets : Charsets, charsets.list = l.list

theorem initial_sound : initial.Sound where
  counted := by
    refine ⟨by decide, by decide, ?_, ?_⟩
    · exact fun c hc _ => (standardCharsets_made c hc).1
    · exact fun c hc => .inr (Nat.lt_of_lt_of_le (standardCharsets_made c hc).1 (by decide))
  charsets := ⟨.initial, rfl⟩

/-- **`make-charset`** makes a charset of attributes of its own, with a new leading byte. -/
theorem Sound.fmakeCharset (h : l.Sound) {name : String} {props : List CharsetProperty}
    (hmake : l.fmakeCharset name props = .ok l') : l'.Sound := by
  obtain ⟨charsets, hlist⟩ := h.charsets
  rw [CharsetLookup.fmakeCharset] at hmake
  split at hmake
  · cases hmake
  obtain ⟨s, hs, hmake⟩ := bind_eq_ok.mp hmake
  have hchecked := CharsetSettings.Checked.initial.foldlM hs
  split at hmake
  · cases hmake
  rename_i hfinal
  split at hmake
  · cases hmake
  split at hmake
  · cases hmake
  rename_i hunused
  rw [not_or, Option.not_isSome_iff_eq_none, Option.not_isSome_iff_eq_none,
    byAttributes_eq_none, byAttributes_eq_none] at hunused
  obtain ⟨⟨id, l₁⟩, hget, hmake⟩ := bind_eq_ok.mp hmake
  have hdimension := hchecked.dimension
  obtain ⟨hlist₁, hid, hfresh, hcounted⟩ :=
    h.counted.getUnallocatedLeadingByte (by omega) hget
  have hlast := hchecked.final
  have hattributes : ∀ c ∈ charsets.list, ¬ c.SameAttributes
      { leadingByte := id, repBytes := s.dimension.toNat + 2, type := s.type,
        graphic := s.graphic.toNat, final := s.final.toNat, direction := s.direction,
        reverseDirectionCharset := none } := by
    rintro c hc ⟨htype, hfinal'⟩
    rw [hlist] at hc
    simp only at htype hfinal'
    cases hdir : c.direction with
    | leftToRight => exact hunused.1 c hc (by omega) htype hfinal' hdir
    | rightToLeft => exact hunused.2 c hc (by omega) htype hfinal' hdir
  simp only at hmake
  rw [makeCharset_eq _ (by rwa [hlist₁])] at hmake
  · cases hmake
    refine ⟨hcounted _ rfl rfl fun c hc => ?_, ⟨charsets.add _ ?_ rfl ?_ hattributes, ?_⟩⟩
    · obtain rfl | hc := List.mem_cons.mp hc
      · exact .inl rfl
      · exact .inr ⟨c, hlist₁ ▸ hc, rfl⟩
    · have hgraphic := hchecked.graphic
      refine ⟨?_, ?_, ?_, ?_⟩
      · show s.dimension.toNat + 2 = s.type.dimension + 2
        rw [hchecked.type_dimension]
      · show LeadingByteFor s.type.dimension id
        rwa [hchecked.type_dimension]
      · show s.final.toNat = 0 ∨ (0x30 ≤ s.final.toNat ∧ s.final.toNat ≤ 0x7E)
        omega
      · show s.graphic.toNat ≤ 1
        omega
    · rwa [hlist]
    · exact congrArg (_ :: ·) (hlist.trans hlist₁.symm)
  · intro _
    rw [byAttributes_eq_none, hlist₁]
    simp only
    cases s.direction with
    | leftToRight => exact hunused.1
    | rightToLeft => exact hunused.2

/-- **`make-reverse-direction-charset`** makes the one other charset of the same attributes. -/
theorem Sound.fmakeReverseDirectionCharset (h : l.Sound) {lb : Nat} {newName : String}
    (hmake : l.fmakeReverseDirectionCharset lb newName = .ok l') : l'.Sound := by
  obtain ⟨charsets, hlist⟩ := h.charsets
  rw [CharsetLookup.fmakeReverseDirectionCharset] at hmake
  split at hmake
  · cases hmake
  rename_i cs hcs
  split at hmake
  · cases hmake
  rename_i hreverse
  rw [Option.not_isSome_iff_eq_none] at hreverse
  split at hmake
  · cases hmake
  obtain ⟨⟨id, l₁⟩, hget, hmake⟩ := bind_eq_ok.mp hmake
  obtain ⟨l₂, hl₂, hmake⟩ := bind_eq_ok.mp hmake
  have hmem : cs ∈ charsets.list := hlist ▸ mem_of_find?_eq_some hcs
  obtain rfl : cs.leadingByte = lb := by simpa using find?_some hcs
  have hdimension : cs.dimension = 1 ∨ cs.dimension = 2 := by
    rw [Charset.dimension]
    cases cs.type <;> decide
  obtain ⟨hlist₁, hid, hfresh, hcounted⟩ := h.counted.getUnallocatedLeadingByte hdimension hget
  rw [makeCharset_eq _ (by rwa [hlist₁])] at hl₂
  · cases hl₂
    cases hmake
    refine ⟨hcounted _ rfl rfl fun c hc => ?_, ⟨charsets.addReverse cs
      { leadingByte := id, repBytes := cs.dimension + 2, type := cs.type,
        graphic := cs.graphic, final := cs.final, direction := cs.direction.reverse,
        reverseDirectionCharset := none } hmem hreverse ?_ ?_ ⟨rfl, rfl⟩ rfl, ?_⟩⟩
    · simp only [setReverseDirectionCharset, map_map, mem_map] at hc
      obtain ⟨c, hc, rfl⟩ := hc
      simp only [comp_apply, Charset.setReverse_leadingByte]
      obtain rfl | hc := List.mem_cons.mp hc
      · exact .inl rfl
      · exact .inr ⟨c, hlist₁ ▸ hc, rfl⟩
    · have hold := Charsets.final_graphic hmem
      exact ⟨rfl, hid, hold.1, hold.2⟩
    · rwa [hlist]
    · simp only [Charsets.addReverse, setReverseDirectionCharset, hlist, hlist₁]
  · intro hfinal
    rw [byAttributes_eq_none, hlist₁, ← hlist]
    simp only
    intro c hc _ htype hfinal' hdir
    have hsame : cs.SameAttributes c := ⟨htype.symm, hfinal'.symm⟩
    rw [← Charsets.eq_of_sameAttributes hmem hreverse hc hfinal hsame] at hdir
    exact Direction.ne_reverse _ hdir

theorem Reachable.sound (h : l.Reachable) : l.Sound := by
  induction h with
  | initial => exact initial_sound
  | makeCharset _ hmake ih => exact ih.fmakeCharset hmake
  | makeReverseDirectionCharset _ hmake ih => exact ih.fmakeReverseDirectionCharset hmake

/-- The charsets that a run of programs has made. -/
def Reachable.charsets (h : l.Reachable) : Charsets where
  list := l.list
  leadingByte_inj := by
    obtain ⟨charsets, hlist⟩ := h.sound.charsets
    exact hlist ▸ charsets.leadingByte_inj
  attributes_inj := by
    obtain ⟨charsets, hlist⟩ := h.sound.charsets
    exact hlist ▸ charsets.attributes_inj
  standard := by
    obtain ⟨charsets, hlist⟩ := h.sound.charsets
    exact hlist ▸ charsets.standard
  known := by
    obtain ⟨charsets, hlist⟩ := h.sound.charsets
    exact hlist ▸ charsets.known
  reverse := by
    obtain ⟨charsets, hlist⟩ := h.sound.charsets
    exact hlist ▸ charsets.reverse
  reverse_complete := by
    obtain ⟨charsets, hlist⟩ := h.sound.charsets
    exact hlist ▸ charsets.reverse_complete

end CharsetLookup

end XEmacs.Coding
