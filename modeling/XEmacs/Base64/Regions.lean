import XEmacs.Base64.Strings
import XEmacs.Buffer.Sound
import XEmacs.Coding.ValidChars

/-!
# Base64 regions (fns.c)

The region is read through a stream, the new text is put in before it, and then the region is
deleted. Both commands put point at the beginning if it was in the region.
-/

namespace XEmacs.Base64

open BytePositions Buffer Coding Sextets Fallible List Function

/-! ### Characters -/

theorem firstByteP_iff (b : UInt8) : bufbyteFirstByteP b = true ↔ b.toNat < 0xA0 := by
  rw [bufbyteFirstByteP, decide_eq_true_iff, UInt8.lt_iff_toNat_lt]
  rfl

section Latin1

variable {c : UInt8}

theorem ascii_firstByteP (h : c.toNat < 0x80) : bufbyteFirstByteP c = true :=
  (firstByteP_iff c).mpr (Nat.lt_trans h (by decide))

theorem ascii_rest : ∀ b ∈ ([] : List UInt8), bufbyteFirstByteP b = false :=
  fun _ h => absurd h not_mem_nil

theorem ascii_repBytes (h : c.toNat < 0x80) :
    ([] : List UInt8).length + 1 = repBytesByFirstByte c :=
  (if_pos (UInt8.lt_iff_toNat_lt.mpr h)).symm

theorem control1_firstByteP : bufbyteFirstByteP 0x8F = true := rfl

theorem toNat_shifted (h : c.toNat < 0xA0) : (c + 0x20).toNat = c.toNat + 0x20 := by
  rw [UInt8.toNat_add]
  exact Nat.mod_eq_of_lt (Nat.lt_trans (Nat.add_lt_add_right h _) (by decide))

theorem control1_rest (h : ¬ c.toNat < 0x80) (h' : c.toNat < 0xA0) :
    ∀ b ∈ [c + 0x20], bufbyteFirstByteP b = false := by
  rw [forall_mem_singleton, Bool.eq_false_iff, ne_eq, firstByteP_iff, toNat_shifted h']
  omega

theorem control1_repBytes : [c + 0x20].length + 1 = repBytesByFirstByte 0x8F := rfl

theorem latin1_firstByteP : bufbyteFirstByteP 0x81 = true := rfl

theorem latin1_rest (h : ¬ c.toNat < 0xA0) : ∀ b ∈ [c], bufbyteFirstByteP b = false := by
  rw [forall_mem_singleton, Bool.eq_false_iff, ne_eq, firstByteP_iff]
  exact h

theorem latin1_repBytes : [c].length + 1 = repBytesByFirstByte 0x81 := rfl

end Latin1

/-- A character below 256. -/
def latin1 (c : UInt8) : Emchar :=
  if h : c.toNat < 0x80 then
    { first := c
      rest := []
      first_firstByteP := ascii_firstByteP h
      rest_firstByteP := ascii_rest
      length_rest := ascii_repBytes h }
  else if h' : c.toNat < 0xA0 then
    { first := 0x8F
      rest := [c + 0x20]
      first_firstByteP := control1_firstByteP
      rest_firstByteP := control1_rest h h'
      length_rest := control1_repBytes }
  else
    { first := 0x81
      rest := [c]
      first_firstByteP := latin1_firstByteP
      rest_firstByteP := latin1_rest h'
      length_rest := latin1_repBytes }

/-- The number of a character. One without a charset, which no buffer has, counts as none that can
be encoded. -/
def emcharCode (charsets : Charsets) (c : Emchar) : ℕ :=
  (charptrEmchar charsets (c.bytes.map UInt8.toNat)).getD 0x80000

/-- A text of characters below 256. -/
def latin1Text (codes : List ℕ) : List Emchar := codes.map fun c => latin1 (UInt8.ofNat c)

/-! ### The functions -/

/-- How a command fails. -/
inductive RegionFault
  /-- `args_out_of_range_3` -/
  | argsOutOfRange (start stop : ℤ)
  /-- `barf_if_buffer_read_only` -/
  | bufferReadOnly
  /-- The coder or the decoder fails. -/
  | coding (fault : Fault)
deriving DecidableEq

/-- `get_buffer_pos_char`, or `none` for a bad position. -/
def getBufferPosChar (buf : BufferPositions) (pos : ℤ) : Option ℕ :=
  if pos < buf.begv.buf ∨ pos > buf.zv.buf then none else some pos.toNat

/-- `get_buffer_range_char`, or `none` for a bad position. -/
def getBufferRangeChar (buf : BufferPositions) (start stop : ℤ) : Option (ℕ × ℕ) :=
  match getBufferPosChar buf start, getBufferPosChar buf stop with
  | some a, some b => if a > b then some (b, a) else some (a, b)
  | _, _ => none

variable {n : ℕ}

/-- The characters read from a stream that `make_lisp_buffer_input_stream` makes. Its three markers
convert the positions. -/
def bufferInput (charsets : Charsets) (f : Family n) (i : Fin n) (start stop : ℕ) :
    List ℕ × Family n :=
  let (biStart, f) := f.bufposToBytind i start
  let (_, f) := f.bufposToBytind i start
  let (biStop, f) := f.bufposToBytind i stop
  ((between f.text.text (scanBytind f.text.text biStart) (scanBytind f.text.text biStop)).map
    (emcharCode charsets), f)

/-- The end of both commands, with what is written as characters. `ends` are the extent endpoints
that the insertion converts. -/
def replaceRegion (f : Family n) (i : Fin n) (begv zv oldPt : ℕ) (codes : List ℕ)
    (ends : List (Fin n × ℕ)) : Family n :=
  let f := bufferInsertString1 f i (some begv) (latin1Text codes) ends
  let f := bufferDeleteRange f i (begv + codes.length) (zv + codes.length)
  if oldPt ≥ begv ∧ oldPt < zv then f.bufSetPt i begv else f

/-- `base64-encode-region`. -/
def base64EncodeRegion (charsets : Charsets) (f : Family n) (i : Fin n) (readOnly : Bool)
    (start stop : ℤ) (noLineBreak : Bool) (ends : List (Fin n × ℕ)) :
    Family n × Except RegionFault ℕ :=
  match getBufferRangeChar (f.members i) start stop with
  | none => (f, .error (.argsOutOfRange start stop))
  | some (begv, zv) =>
    if readOnly then (f, .error .bufferReadOnly)
    else
      let oldPt := (f.members i).pt.buf
      let (input, f) := bufferInput charsets f i begv zv
      match base64Encode1 (!noLineBreak) 0 input with
      | .error e => (f, .error (.coding e))
      | .ok encoded =>
        if encoded.length > allocated (zv - begv) then (f, .error (.coding .abort))
        else (replaceRegion f i begv zv oldPt encoded ends, .ok encoded.length)

/-- `base64-decode-region`. -/
def base64DecodeRegion (charsets : Charsets) (f : Family n) (i : Fin n) (readOnly : Bool)
    (start stop : ℤ) (ends : List (Fin n × ℕ)) : Family n × Except RegionFault ℕ :=
  match getBufferRangeChar (f.members i) start stop with
  | none => (f, .error (.argsOutOfRange start stop))
  | some (begv, zv) =>
    if readOnly then (f, .error .bufferReadOnly)
    else
      let oldPt := (f.members i).pt.buf
      let (input, f) := bufferInput charsets f i begv zv
      match base64Decode1 input 0 with
      | .error e => (f, .error (.coding e))
      | .ok decoded =>
        if (decoded.map charBytes).sum > (zv - begv) * maxEmcharLen then
          (f, .error (.coding .abort))
        else
          -- unlike in the other command, point is moved before the insertion
          let f := f.bufSetPt i begv
          (replaceRegion f i begv zv oldPt decoded ends, .ok decoded.length)

/-! ### What the functions do -/

/-- The characters of a region. -/
def region (charsets : Charsets) (f : Family n) (a b : ℕ) : List ℕ :=
  (between f.text.text a b).map (emcharCode charsets)

/-- A region has been replaced. -/
structure Replaced (f f' : Family n) (i : Fin n) (a b : ℕ) (codes : List ℕ) (pt : ℕ) : Prop where
  text : f'.text.text = f.text.text.take (a - 1) ++
    (latin1Text codes) ++ f.text.text.drop (b - 1)
  sound : f'.SoundAt i
  begv : (f'.members i).begv.buf = (f.members i).begv.buf
  zv : (f'.members i).zv.buf + (b - a) = (f.members i).zv.buf + codes.length
  pt : (f'.members i).pt.buf = pt

/-- A text and the positions in it are as they were. -/
structure Unchanged (f f' : Family n) : Prop where
  text : f'.text.text = f.text.text
  members : f'.members = f.members

variable {f : Family n} {i : Fin n} {a b : ℕ} {start stop : ℤ}

theorem Replaced.keeps {t : BufferText} {f' : Family n} {codes : List ℕ} {pt : ℕ}
    (hkeeps : Keeps f.text t) (h : Replaced { f with text := t } f' i a b codes pt) :
    Replaced f f' i a b codes pt where
  text := by
    rw [h.text]
    simp only [hkeeps.text_eq]
  sound := h.sound
  begv := h.begv
  zv := h.zv
  pt := h.pt

theorem Replaced.pointSet {f₁ f' : Family n} {x : ℕ} {codes : List ℕ} {pt : ℕ}
    (hset : PointSet f f₁ i x) (h : Replaced f₁ f' i a b codes pt) :
    Replaced f f' i a b codes pt where
  text := by rw [h.text, hset.text_eq]
  sound := h.sound
  begv := by rw [h.begv, hset.members, update_self]
  zv := by rw [h.zv, hset.members, update_self]
  pt := h.pt

theorem getBufferPosChar_spec {buf : BufferPositions} {pos : ℤ} {x : ℕ}
    (h : getBufferPosChar buf pos = some x) : buf.begv.buf ≤ x ∧ x ≤ buf.zv.buf := by
  rw [getBufferPosChar] at h
  split at h
  · cases h
  · cases h
    omega

theorem getBufferRangeChar_spec {buf : BufferPositions}
    (h : getBufferRangeChar buf start stop = some (a, b)) :
    buf.begv.buf ≤ a ∧ a ≤ b ∧ b ≤ buf.zv.buf := by
  rw [getBufferRangeChar] at h
  split at h
  case h_1 x y hx hy =>
    have hx := getBufferPosChar_spec hx
    have hy := getBufferPosChar_spec hy
    split at h <;> cases h <;> omega
  case h_2 => cases h

theorem bufferInput_eq (h : f.SoundAt i) (charsets : Charsets)
    (hlo : (f.members i).begv.buf ≤ a) (hab : a ≤ b) (hhi : b ≤ (f.members i).zv.buf) :
    ∃ t, bufferInput charsets f i a b = (region charsets f a b, { f with text := t }) ∧
      Keeps f.text t := by
  have ha : 1 ≤ a := Nat.le_trans h.member.true.begv.one_le hlo
  have hb : b ≤ f.text.text.length + 1 := Nat.le_trans hhi h.member.true.zv.le_end
  have ha' : a ≤ f.text.text.length + 1 := Nat.le_trans hab hb
  have hb' : 1 ≤ b := Nat.le_trans ha hab
  obtain ⟨t₁, hconv₁, hkeeps₁, -⟩ := h.trueAt.bufposToBytind ha ha'
  obtain ⟨t₂, hconv₂, hkeeps₂, -⟩ := (h.keeps hkeeps₁).trueAt.bufposToBytind ha
    (by rw [hkeeps₁.text_eq]; exact ha')
  have hkeeps := hkeeps₁.trans hkeeps₂
  obtain ⟨t₃, hconv₃, hkeeps₃, -⟩ := (h.keeps hkeeps).trueAt.bufposToBytind hb'
    (by rw [hkeeps.text_eq]; exact hb)
  have htext := (hkeeps.trans hkeeps₃).text_eq
  refine ⟨t₃, ?_, hkeeps.trans hkeeps₃⟩
  simp only at hconv₂ hconv₃
  rw [hkeeps₁.text_eq] at hconv₂
  rw [hkeeps.text_eq] at hconv₃
  simp only [bufferInput, hconv₁, hconv₂, hconv₃, htext,
    scanBytind_bytind f.text.text ha ha', scanBytind_bytind f.text.text hb' hb]
  rfl

theorem insertedAt_false (p length x : ℕ) :
    insertedAt false p length x = if p < x then x + length else x := by
  rw [insertedAt]
  split
  · rw [if_neg (Nat.lt_asymm ‹_›)]
  · rfl

theorem deletedAt_eq (a b x : ℕ) : deletedAt a b x =
    if a < x then if x < b then a else x - (b - a) else x := by
  rw [deletedAt]
  by_cases hxa : x ≤ a
  · rw [if_pos hxa, if_neg (Nat.not_lt.mpr hxa)]
  · rw [if_neg hxa, if_pos (Nat.not_le.mp hxa)]
    by_cases hxb : x < b
    · rw [if_pos (Nat.le_of_lt hxb), if_pos hxb]
    · rw [if_neg hxb]
      split <;> omega

/-- **A deletion** that may be empty. -/
theorem bufferDeleteRange_region (h : f.SoundAt i) (hlo : (f.members i).begv.buf ≤ a)
    (hab : a ≤ b) (hhi : b ≤ (f.members i).zv.buf) :
    (bufferDeleteRange f i a b).text.text = deleteRange f.text.text a b ∧
      (bufferDeleteRange f i a b).SoundAt i ∧
      ((bufferDeleteRange f i a b).members i).begv = (f.members i).begv ∧
      ((bufferDeleteRange f i a b).members i).zv.buf + (b - a) = (f.members i).zv.buf ∧
      ((bufferDeleteRange f i a b).members i).pt.buf = deletedAt a b (f.members i).pt.buf := by
  obtain rfl | hlt := Nat.eq_or_lt_of_le hab
  · have hnothing : bufferDeleteRange f i a a = f := by
      obtain ⟨-, heq⟩ | ⟨hlt, -⟩ := bufferDeleteRange_clip f i a a
      · exact heq
      · omega
    rw [hnothing, deleteRange_self, deletedAt_self, Nat.sub_self]
    exact ⟨rfl, h, rfl, rfl, rfl⟩
  · obtain ⟨htext, hsound, hmembers, -⟩ := bufferDeleteRange_spec h hlt hlo hhi
    have ha : 1 ≤ a := Nat.le_trans h.member.true.begv.one_le hlo
    have hb : b ≤ f.text.text.length + 1 := Nat.le_trans hhi h.member.true.zv.le_end
    obtain ⟨-, hpt⟩ := h.member.true.pt.deleted_pt ha hlt hb
    refine ⟨htext, hsound, by rw [hmembers]; rfl, ?_, ?_⟩
    · rw [hmembers]
      show (f.members i).zv.buf - (b - a) + (b - a) = (f.members i).zv.buf
      omega
    · rw [hmembers, hpt, deletedAt_eq]

/-- **The end of both commands**. -/
theorem replaceRegion_spec (h : f.SoundAt i) (hlo : (f.members i).begv.buf ≤ a)
    (hab : a ≤ b) (hhi : b ≤ (f.members i).zv.buf) (oldPt : ℕ) (codes : List ℕ)
    {ends : List (Fin n × ℕ)}
    (hends : EndsTrue f a (latin1Text codes) ends) :
    Replaced f (replaceRegion f i a b oldPt codes ends) i a b codes
      (if oldPt ≥ a ∧ oldPt < b then a
      else deletedAt (a + codes.length) (b + codes.length)
        (insertedAt false a codes.length (f.members i).pt.buf)) := by
  have ha : 1 ≤ a := Nat.le_trans h.member.true.begv.one_le hlo
  have hhi' : a ≤ (f.members i).zv.buf := Nat.le_trans hab hhi
  have ha' : a ≤ f.text.text.length + 1 := Nat.le_trans hhi' h.member.true.zv.le_end
  generalize htext : (latin1Text codes) = text at hends
  have hlength : codes.length = text.length := by rw [← htext, latin1Text, length_map]
  -- the insertion
  obtain ⟨f₁, hinsert, htext₁, hsound₁, hmembers₁, -⟩ := insertString_spec h hlo hhi' text hends
  have hinsert₁ : bufferInsertString1 f i (some a) text ends = f₁ := by
    have hclip : (f.members i).clip ((some a).getD (f.members i).pt.buf) = a := by
      show (f.members i).clip a = a
      simp only [BufferPositions.clip, if_neg (Nat.not_lt.mpr hlo), gt_iff_lt,
        if_neg (Nat.not_lt.mpr hhi')]
    rw [bufferInsertString1, hclip, hinsert]
    rfl
  have hpt₁ : (f₁.members i).pt.buf = insertedAt false a text.length (f.members i).pt.buf := by
    rw [hmembers₁, (h.member.true.pt.inserted_pt ha ha' text).2, insertedAt_false]
  have hbegv₁ : (f₁.members i).begv = (f.members i).begv := by
    rw [hmembers₁]
    rfl
  have hzv₁ : (f₁.members i).zv.buf = (f.members i).zv.buf + text.length := by
    rw [hmembers₁]
    rfl
  -- the deletion
  obtain ⟨htext₂, hsound₂, hbegv₂, hzv₂, hpt₂⟩ := bufferDeleteRange_region hsound₁
    (a := a + text.length) (b := b + text.length) (by rw [hbegv₁]; omega) (by omega) (by rw [hzv₁]; omega)
  rw [htext₁, deleteRange_insertAt_behind ha hab ha'] at htext₂
  rw [hbegv₁] at hbegv₂
  rw [hzv₁, Nat.add_sub_add_right] at hzv₂
  rw [hpt₁] at hpt₂
  rw [replaceRegion, htext, hinsert₁, hlength]
  split
  case isTrue hregion =>
    have hset := hsound₂.trueAt.bufSetPt (x := a) (by rw [hbegv₂]; exact hlo) (by omega)
    refine ⟨?_, hset.sound, ?_, ?_, ?_⟩
    · rw [hset.text_eq, htext₂, htext]
    · rw [hset.members, update_self, hbegv₂]
    · rw [hset.members, update_self, hlength]
      exact hzv₂
    · rw [hset.members, update_self]
  case isFalse hregion =>
    refine ⟨?_, hsound₂, ?_, ?_, hpt₂⟩
    · rw [htext₂, htext]
    · rw [hbegv₂]
    · rw [hlength]
      exact hzv₂

/-! ### The commands -/

/-- What converting a region is to do: with a bad region, a read-only buffer or a region that cannot
be converted there is an error and nothing happens. Otherwise the region is replaced, and `point`
says where point goes, from the region, the length of the new text and the old point. -/
inductive Converts (charsets : Charsets) (conversion : List ℕ → Except Fault (List ℕ))
    (point : ℕ → ℕ → ℕ → ℕ → ℕ) (f : Family n) (i : Fin n) (readOnly : Bool) (start stop : ℤ) :
    Family n × Except RegionFault ℕ → Prop
  | badRange {f' : Family n} (hrange : getBufferRangeChar (f.members i) start stop = none)
      (h : Unchanged f f') : Converts charsets conversion point f i readOnly start stop
        (f', .error (.argsOutOfRange start stop))
  | noWrite {f' : Family n} {a b : ℕ}
      (hrange : getBufferRangeChar (f.members i) start stop = some (a, b))
      (hreadOnly : readOnly = true) (h : Unchanged f f') :
      Converts charsets conversion point f i readOnly start stop (f', .error .bufferReadOnly)
  | fault {f' : Family n} {a b : ℕ} {e : Fault}
      (hrange : getBufferRangeChar (f.members i) start stop = some (a, b))
      (hreadOnly : readOnly = false) (hcodes : conversion (region charsets f a b) = .error e)
      (h : Unchanged f f') :
      Converts charsets conversion point f i readOnly start stop (f', .error (.coding e))
  | done {f' : Family n} {a b length : ℕ} {codes : List ℕ}
      (hrange : getBufferRangeChar (f.members i) start stop = some (a, b))
      (hreadOnly : readOnly = false) (hcodes : conversion (region charsets f a b) = .ok codes)
      (hlength : length = codes.length)
      (h : Replaced f f' i a b codes (point a b length (f.members i).pt.buf)) :
      Converts charsets conversion point f i readOnly start stop (f', .ok length)

/-- Where point should go: to the beginning from inside, and with its text from outside. -/
def keptPoint (a b length pt : ℕ) : ℕ :=
  if pt < a then pt else if pt < b then a else pt - b + (a + length)

/-- The beginning of the region. -/
def regionStart (a _b _length _pt : ℕ) : ℕ := a

/-- The endpoints that are converted while the new text is put in belong to buffers that are in
step with it. -/
def EndsSuit (charsets : Charsets) (conversion : List ℕ → Except Fault (List ℕ)) (f : Family n)
    (i : Fin n) (start stop : ℤ) (ends : List (Fin n × ℕ)) : Prop :=
  ∀ a b codes, getBufferRangeChar (f.members i) start stop = some (a, b) →
    conversion (region charsets f a b) = .ok codes →
      EndsTrue f a (latin1Text codes) ends

variable {charsets : Charsets} {conversion : List ℕ → Except Fault (List ℕ)} {readOnly : Bool}
  {ends : List (Fin n × ℕ)} {r : Family n × Except RegionFault ℕ}

theorem Converts.iff {point point' : ℕ → ℕ → ℕ → ℕ → ℕ}
    (h : Converts charsets conversion point f i readOnly start stop r) :
    Converts charsets conversion point' f i readOnly start stop r ↔
      ∀ a b codes, getBufferRangeChar (f.members i) start stop = some (a, b) → readOnly = false →
        conversion (region charsets f a b) = .ok codes →
          point' a b codes.length (f.members i).pt.buf =
            point a b codes.length (f.members i).pt.buf := by
  cases h with
  | badRange hrange h =>
    refine iff_of_true (.badRange hrange h) fun a b codes hrange' => ?_
    rw [hrange] at hrange'
    cases hrange'
  | noWrite hrange hreadOnly h =>
    refine iff_of_true (.noWrite hrange hreadOnly h) fun a b codes _ hreadOnly' => ?_
    rw [hreadOnly] at hreadOnly'
    cases hreadOnly'
  | fault hrange hreadOnly hfault h =>
    refine iff_of_true (.fault hrange hreadOnly hfault h) fun a b codes hrange' _ hcodes => ?_
    rw [hrange] at hrange'
    cases hrange'
    rw [hfault] at hcodes
    cases hcodes
  | done hrange hreadOnly hcodes hlength h =>
    constructor
    · intro h' a b codes hrange' _ hcodes'
      cases h' with
      | done hrange'' _ _ _ h' =>
        rw [hrange] at hrange' hrange''
        cases hrange'
        cases hrange''
        rw [hcodes] at hcodes'
        cases hcodes'
        rw [← hlength, ← h.pt, ← h'.pt]
    · intro hpoint
      refine .done hrange hreadOnly hcodes hlength ?_
      rw [hlength, hpoint _ _ _ hrange hreadOnly hcodes, ← hlength]
      exact h

theorem length_region (h : f.SoundAt i) (hlo : (f.members i).begv.buf ≤ a)
    (hhi : b ≤ (f.members i).zv.buf) : (region charsets f a b).length = b - a := by
  rw [region, length_map]
  exact length_between (Nat.le_trans h.member.true.begv.one_le hlo)
    (Nat.le_trans hhi h.member.true.zv.le_end)

theorem Keeps.unchanged {t : BufferText} (hkeeps : Keeps f.text t) :
    Unchanged f { f with text := t } := ⟨hkeeps.text_eq, rfl⟩

theorem endsTrue_keeps {t : BufferText} (hkeeps : Keeps f.text t) {c : List Emchar}
    (h : EndsTrue f a c ends) : EndsTrue { f with text := t } a c ends := by
  intro e he
  rw [hkeeps.text_eq]
  exact h e he

theorem keptPoint_eq {length : ℕ} (hab : a ≤ b) (hempty : a = b → length = 0) (pt : ℕ) :
    (if pt ≥ a ∧ pt < b then a
      else deletedAt (a + length) (b + length) (insertedAt false a length pt)) =
      keptPoint a b length pt := by
  rw [keptPoint]
  rcases Nat.lt_or_ge pt a with hlt | hge
  · rw [if_neg (by omega), if_pos hlt, insertedAt, if_pos hlt, deletedAt, if_pos (by omega)]
  rw [if_neg (Nat.not_lt.mpr hge)]
  rcases Nat.lt_or_ge pt b with hin | hout
  · rw [if_pos ⟨hge, hin⟩, if_pos hin]
  rw [if_neg (fun h => Nat.not_lt.mpr hout h.2), if_neg (Nat.not_lt.mpr hout)]
  rcases Nat.eq_or_lt_of_le hge with rfl | hlt
  · obtain rfl : b = a := Nat.le_antisymm hout hab
    rw [hempty rfl, insertedAt_zero, deletedAt_self]
    omega
  · rw [insertedAt, if_neg (Nat.lt_asymm hlt), if_pos hlt, deletedAt, if_neg (by omega)]
    split <;> omega

theorem encodeString_nil (noLineBreak : Bool) : base64EncodeString [] noLineBreak = .ok [] := by
  rw [base64EncodeString, base64Encode1_last rfl]
  rfl

/-- **`base64-encode-region`** keeps point. -/
theorem encodeRegion_converts (h : f.SoundAt i) (noLineBreak : Bool)
    (hends : EndsSuit charsets (base64EncodeString · noLineBreak) f i start stop ends) :
    Converts charsets (base64EncodeString · noLineBreak) keptPoint f i readOnly start stop
      (base64EncodeRegion charsets f i readOnly start stop noLineBreak ends) := by
  rw [base64EncodeRegion]
  cases hrange : getBufferRangeChar (f.members i) start stop with
  | none => exact .badRange hrange ⟨rfl, rfl⟩
  | some p =>
    obtain ⟨a, b⟩ := p
    obtain ⟨hlo, hab, hhi⟩ := getBufferRangeChar_spec hrange
    obtain ⟨t, hinput, hkeeps⟩ := bufferInput_eq h charsets hlo hab hhi
    cases readOnly with
    | true => exact .noWrite hrange rfl ⟨rfl, rfl⟩
    | false =>
      simp only [hinput, Bool.false_eq_true, if_false]
      cases hencode : base64Encode1 (!noLineBreak) 0 (region charsets f a b) with
      | error e =>
        refine .fault hrange rfl ?_ (Keeps.unchanged hkeeps)
        rw [base64EncodeString, hencode]
        rfl
      | ok codes =>
        have hconversion : base64EncodeString (region charsets f a b) noLineBreak =
            if codes.length > allocated (b - a) then .error .abort else .ok codes := by
          rw [base64EncodeString, hencode, ← length_region h hlo hhi]
          rfl
        simp only
        split
        case isTrue hroom =>
          rw [if_pos hroom] at hconversion
          exact .fault hrange rfl hconversion (Keeps.unchanged hkeeps)
        case isFalse hroom =>
          rw [if_neg hroom] at hconversion
          have hempty : a = b → codes.length = 0 := by
            rintro rfl
            rw [region, between_self, map_nil, encodeString_nil] at hconversion
            cases hconversion
            rfl
          have hreplaced := replaceRegion_spec (h.keeps hkeeps) hlo hab hhi
            (f.members i).pt.buf codes (endsTrue_keeps hkeeps (hends a b codes hrange hconversion))
          rw [keptPoint_eq hab hempty] at hreplaced
          exact .done hrange rfl hconversion rfl (.keeps hkeeps hreplaced)

theorem endsTrue_atPoint (h : f.SoundAt i) (hlo : (f.members i).begv.buf ≤ a)
    (hhi : a ≤ (f.members i).zv.buf) {f' : Family n} (hset : PointSet f f' i a) {c : List Emchar}
    (hends : EndsTrue f a c (ends.filter fun e => e.1 ≠ i)) : EndsTrue f' a c ends := by
  have ha : 1 ≤ a := Nat.le_trans h.member.true.begv.one_le hlo
  have ha' : a ≤ f.text.text.length + 1 := Nat.le_trans hhi h.member.true.zv.le_end
  intro e he
  rw [hset.text_eq, hset.members]
  by_cases hi : e.1 = i
  · rw [hi, update_self]
    have hpt : TruePos f.text.text ⟨a, bytind f.text.text a⟩ := ⟨ha, ha', rfl⟩
    exact ⟨hpt.insert_before ha' (Nat.le_refl a), h.member.true.begv.insert_before ha' hlo,
      h.member.true.zv.insert_after ha ha' hhi⟩
  · rw [update_of_ne hi]
    exact hends e (List.mem_filter.mpr ⟨he, decide_eq_true hi⟩)

theorem regionStart_eq {length oldPt : ℕ} :
    (if oldPt ≥ a ∧ oldPt < b then a
      else deletedAt (a + length) (b + length) (insertedAt false a length a)) =
      regionStart a b length oldPt := by
  rw [insertedAt_false, if_neg (Nat.lt_irrefl a), deletedAt, if_pos (Nat.le_add_right a length),
    ite_self]
  rfl

/-- **`base64-decode-region`** puts point at the beginning of the region. -/
theorem decodeRegion_converts (h : f.SoundAt i)
    (hends : EndsSuit charsets base64DecodeString f i start stop (ends.filter fun e => e.1 ≠ i)) :
    Converts charsets base64DecodeString regionStart f i readOnly start stop
      (base64DecodeRegion charsets f i readOnly start stop ends) := by
  rw [base64DecodeRegion]
  cases hrange : getBufferRangeChar (f.members i) start stop with
  | none => exact .badRange hrange ⟨rfl, rfl⟩
  | some p =>
    obtain ⟨a, b⟩ := p
    obtain ⟨hlo, hab, hhi⟩ := getBufferRangeChar_spec hrange
    obtain ⟨t, hinput, hkeeps⟩ := bufferInput_eq h charsets hlo hab hhi
    cases readOnly with
    | true => exact .noWrite hrange rfl ⟨rfl, rfl⟩
    | false =>
      simp only [hinput, Bool.false_eq_true, if_false]
      cases hdecode : base64Decode1 (region charsets f a b) 0 with
      | error e =>
        refine .fault hrange rfl ?_ (Keeps.unchanged hkeeps)
        rw [base64DecodeString, hdecode]
        rfl
      | ok codes =>
        have hconversion : base64DecodeString (region charsets f a b) =
            if (codes.map charBytes).sum > (b - a) * maxEmcharLen then .error .abort
            else .ok codes := by
          rw [base64DecodeString, hdecode, ← length_region h hlo hhi]
          rfl
        simp only
        split
        case isTrue hroom =>
          rw [if_pos hroom] at hconversion
          exact .fault hrange rfl hconversion (Keeps.unchanged hkeeps)
        case isFalse hroom =>
          rw [if_neg hroom] at hconversion
          have hhi' := Nat.le_trans hab hhi
          have hset := (h.keeps hkeeps).trueAt.bufSetPt hlo hhi'
          have hsuit := endsTrue_atPoint (h.keeps hkeeps) hlo hhi' hset
            (endsTrue_keeps hkeeps (hends a b codes hrange hconversion))
          have hreplaced := replaceRegion_spec hset.sound (a := a) (b := b)
            (by rw [hset.members, update_self]; exact hlo) hab
            (by rw [hset.members, update_self]; exact hhi)
            (f.members i).pt.buf codes hsuit
          rw [hset.members, update_self, regionStart_eq] at hreplaced
          exact .done hrange rfl hconversion rfl (.keeps hkeeps (.pointSet hset hreplaced))

/-- Where decoding leaves point where it should be: the region cannot be decoded, or point is in it,
or point is behind it and the decoding is empty. -/
def PointFits (charsets : Charsets) (f : Family n) (i : Fin n) (readOnly : Bool)
    (start stop : ℤ) : Prop :=
  ∀ a b, getBufferRangeChar (f.members i) start stop = some (a, b) → readOnly = false →
    (∃ bytes, Groups (symbols (region charsets f a b)) bytes) →
      (a ≤ (f.members i).pt.buf ∧ (f.members i).pt.buf < b) ∨
        ((f.members i).pt.buf = b ∧ symbols (region charsets f a b) = [])

theorem keptPoint_eq_start {length pt : ℕ} (hab : a ≤ b) :
    keptPoint a b length pt = a ↔ (a ≤ pt ∧ pt < b) ∨ (pt = b ∧ length = 0) := by
  rw [keptPoint]
  split
  · omega
  · split <;> omega

theorem groups_length_zero {s : List (Option ℕ)} {bytes : List ℕ} (h : Groups s bytes) :
    bytes.length = 0 ↔ s = [] := by
  constructor
  · intro hlength
    rw [List.length_eq_zero_iff.mp hlength] at h
    exact h.eq_nil
  · rintro rfl
    rw [h.unique .nil]
    rfl

/-- A buffer with the text "QQ==" and point behind it. -/
def encodedLetter : Family 1 :=
  bufferInsertString1 (initBufferText 1) (Fin.last 0) none (latin1Text [81, 81, 61, 61]) []

theorem encodedLetter_sound : encodedLetter.SoundAt 0 :=
  BufferOp.run_sound (initBufferText_sound (Fin.last 0)) (.insert none _ [])
    fun _ he => absurd he not_mem_nil

end XEmacs.Base64
