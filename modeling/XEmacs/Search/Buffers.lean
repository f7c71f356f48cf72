import XEmacs.Buffer.GapMotion
import XEmacs.Buffer.Text

/-!
# The text of a buffer as a search reads it (buffer.h)

A search works on the memory of a buffer: it goes over pointers as long as they stay on one side
of the gap (`BI_BUF_CEILING_OF`, `BI_BUF_FLOOR_OF`), and converts between pointers and byte
positions.
-/

namespace XEmacs.TextSearch

open BytePositions ByteMemory Buffer List

/-- A buffer: its text, the characters that it holds, and the accessible portion of it in
character positions. -/
structure SearchBuffer extends Gap.GapBuffer where
  chars : List Emchar
  begv : Nat
  zv : Nat
  contents_chars : toBufferText.contents = textBytes chars
  gpt_between : ∃ x, 1 ≤ x ∧ x ≤ chars.length + 1 ∧ gpt = bytind chars x
  one_le_begv : 1 ≤ begv
  begv_le_zv : begv ≤ zv
  zv_le : zv ≤ chars.length + 1

namespace SearchBuffer

def biBegv (b : SearchBuffer) : Nat := bytind b.chars b.begv

def biZv (b : SearchBuffer) : Nat := bytind b.chars b.zv

/-- `BI_BUF_CEILING_OF`. -/
def ceilingOf (b : SearchBuffer) (n : Nat) : Nat :=
  if n < b.gpt ∧ b.gpt < b.biZv then b.gpt else b.biZv

/-- `BI_BUF_FLOOR_OF`. -/
def floorOf (b : SearchBuffer) (n : Nat) : Nat :=
  if b.biBegv < b.gpt ∧ b.gpt < n then b.gpt else b.biBegv

/-- `BI_BUF_BYTE_ADDRESS_BEFORE`, as a memory index. -/
def byteAddressBefore (b : SearchBuffer) (pos : Nat) : Nat :=
  (if b.gpt < pos then pos + b.gapSize else pos) - 1

/-- `BI_BUF_PTR_BYTE_POS`. -/
def ptrBytePos (b : SearchBuffer) (ptr : Nat) : Nat :=
  ptr - if b.gpt < ptr then b.gapSize else 0

/-- `BI_BUF_FETCH_CHAR`, as the bytes of the character. -/
def fetchChar (b : SearchBuffer) (pos : Nat) : List Bufbyte :=
  segment b.beg (b.byteAddress pos) (repBytesByFirstByte (b.beg (b.byteAddress pos)))

/-- What stands in memory from a position up to the next sentinel, at the gap or at the
end. -/
def runFrom (b : SearchBuffer) (pos : Nat) : List Bufbyte :=
  segment b.beg (b.byteAddress pos) ((if b.gpt ≤ pos then b.z else b.gpt) - pos)

/-- What stands in memory from a position back to the gap or to the start. -/
def runBack (b : SearchBuffer) (pos : Nat) : List Bufbyte :=
  (if b.gpt ≤ pos then segment b.beg (b.gpt + b.gapSize) (pos + 1 - b.gpt)
    else segment b.beg 1 pos).reverse

def incBytind (b : SearchBuffer) (x : Nat) : Nat := validateForward (b.runFrom (x + 1)) (x + 1)

def decBytind (b : SearchBuffer) (x : Nat) : Nat := validateBackward (b.runBack (x - 1)) (x - 1)

/-! ## What is read -/

variable {b : SearchBuffer}

theorem inText (b : SearchBuffer) : b.InText := ⟨b.one_le_gpt, b.gpt_le_z⟩

theorem z_eq (b : SearchBuffer) : b.z = bytind b.chars (b.chars.length + 1) := by
  have hlen := congrArg List.length b.contents_chars
  rw [Gap.BufferText.contents_eq_segment b.inText, length_segment] at hlen
  rw [bytind_eq, Nat.add_sub_cancel, take_length, ← hlen]
  have := b.one_le_gpt
  have := b.gpt_le_z
  omega

theorem segment_byteAt {x y : Nat} (hx : 1 ≤ x) (hxy : x ≤ y)
    (hy : y ≤ b.chars.length + 1) :
    segment b.byteAt (bytind b.chars x) (bytind b.chars y - bytind b.chars x)
      = textBytes (between b.chars x y) := by
  have hxy' : bytind b.chars x ≤ bytind b.chars y := bytePos_mono _ hxy
  have hyz : bytind b.chars y ≤ b.z := by
    rw [z_eq]
    exact bytePos_mono _ hy
  have hx1 : 1 ≤ bytind b.chars x := one_le_bytePos _ _
  have htext : b.chars = b.chars.take (x - 1) ++ (between b.chars x y ++ b.chars.drop (y - 1)) := by
    rw [← append_assoc, ← take_eq_append_between b.chars hx hxy, take_append_drop]
  have hbytes := b.contents_chars
  rw [Gap.BufferText.contents_eq_segment b.inText,
    show b.z - 1 = (bytind b.chars x - 1) + ((bytind b.chars y - bytind b.chars x)
      + (b.z - bytind b.chars y)) by omega,
    segment_add, segment_add, Nat.add_sub_cancel' hx1] at hbytes
  have hsplit : textBytes b.chars = textBytes (b.chars.take (x - 1)) ++
      (textBytes (between b.chars x y) ++ textBytes (b.chars.drop (y - 1))) := by
    conv_lhs => rw [htext]
    simp only [textBytes, flatMap_append]
  rw [hsplit] at hbytes
  have hpre : (segment b.byteAt 1 (bytind b.chars x - 1)).length
      = (textBytes (b.chars.take (x - 1))).length := by
    rw [length_segment, bytind_eq, Nat.add_sub_cancel]
  have hmid := (append_inj hbytes hpre).2
  refine (append_inj hmid ?_).1
  have hlen : bytind b.chars y
      = bytind b.chars x + byteLength Emchar.width (between b.chars x y) :=
    bytePos_eq_add_between _ hx hxy
  rw [length_segment, length_textBytes, hlen, Nat.add_sub_cancel_left]

theorem segment_address {p q : Nat} (h : p < b.gpt → q ≤ b.gpt) :
    segment b.beg (b.byteAddress p) (q - p) = segment b.byteAt p (q - p) := by
  refine segment_eq_iff.mpr fun i hi => ?_
  rw [Gap.BufferText.byteAddress]
  split_ifs with hp
  · rw [Gap.BufferText.byteAt_after (by omega)]
    congr 1
    omega
  · rw [Gap.BufferText.byteAt_before (by omega)]

theorem segment_between {x y : Nat} (hx : 1 ≤ x) (hxy : x ≤ y)
    (hy : y ≤ b.chars.length + 1)
    (h : bytind b.chars x < b.gpt → bytind b.chars y ≤ b.gpt) :
    segment b.beg (b.byteAddress (bytind b.chars x)) (bytind b.chars y - bytind b.chars x)
      = textBytes (between b.chars x y) := by
  rw [segment_address h, segment_byteAt hx hxy hy]

theorem gpt_beside {x : Nat} (h : bytind b.chars x < b.gpt) : bytind b.chars (x + 1) ≤ b.gpt := by
  obtain ⟨g, hg, hg', hgpt⟩ := b.gpt_between
  rw [hgpt] at h ⊢
  refine bytePos_mono _ (Nat.lt_of_not_le fun hle => ?_)
  exact absurd h (Nat.not_lt.mpr (bytePos_mono _ hle))

theorem segment_char {x : Nat} (hx : 1 ≤ x) (hx' : x - 1 < b.chars.length) :
    segment b.beg (b.byteAddress (bytind b.chars x)) b.chars[x - 1].width
      = b.chars[x - 1].bytes := by
  have hone : between b.chars x (x + 1) = [b.chars[x - 1]] :=
    between_succ (getElem?_eq_getElem hx')
  have hstep : bytind b.chars (x + 1) = bytind b.chars x + b.chars[x - 1].width :=
    bytePos_succ hx (getElem?_eq_getElem hx')
  have := segment_between (b := b) hx (Nat.le_succ x) (by omega) gpt_beside
  rw [hone, hstep, Nat.add_sub_cancel_left] at this
  rw [this, textBytes, flatMap_singleton]

theorem fetchChar_bytind {x : Nat} (hx : 1 ≤ x) (hx' : x - 1 < b.chars.length) :
    b.fetchChar (bytind b.chars x) = b.chars[x - 1].bytes := by
  have hchar := segment_char hx hx'
  have hfirst : b.beg (b.byteAddress (bytind b.chars x)) = b.chars[x - 1].first := by
    have := congrArg (·[0]?) hchar
    rw [getElem?_segment _ _ (Emchar.width_pos _)] at this
    exact Option.some.inj this
  rw [fetchChar, hfirst, ← Emchar.length_rest]
  exact hchar

theorem segment_rest {x : Nat} (hx : 1 ≤ x) (hx' : x - 1 < b.chars.length) :
    segment b.byteAt (bytind b.chars x + 1) b.chars[x - 1].rest.length
      = b.chars[x - 1].rest := by
  have hone : between b.chars x (x + 1) = [b.chars[x - 1]] :=
    between_succ (getElem?_eq_getElem hx')
  have hstep : bytind b.chars (x + 1) = bytind b.chars x + (1 + b.chars[x - 1].rest.length) := by
    rw [Nat.add_comm 1]
    exact bytePos_succ hx (getElem?_eq_getElem hx')
  have hbytes := segment_byteAt (b := b) hx (Nat.le_succ x) (by omega)
  rw [hone, hstep, Nat.add_sub_cancel_left, textBytes, flatMap_singleton, segment_add] at hbytes
  exact (List.cons.inj hbytes).2

theorem incBytind_bytind {x : Nat} (hx : 1 ≤ x) (hx' : x ≤ b.chars.length) :
    b.incBytind (bytind b.chars x) = bytind b.chars (x + 1) := by
  have hlt : x - 1 < b.chars.length := by omega
  have hstep : bytind b.chars (x + 1) = bytind b.chars x + 1 + b.chars[x - 1].rest.length := by
    rw [Nat.add_assoc, Nat.add_comm 1]
    exact bytePos_succ hx (getElem?_eq_getElem hlt)
  -- the sentinel stands before a character or at the end, not before the next one
  obtain ⟨y, hxy, hy, hend⟩ : ∃ y, x + 1 ≤ y ∧ y ≤ b.chars.length + 1 ∧
      (if b.gpt ≤ bytind b.chars x + 1 then b.z else b.gpt) = bytind b.chars y := by
    split_ifs with h
    · exact ⟨_, by omega, Nat.le_refl _, z_eq b⟩
    · obtain ⟨g, hg, hg', hgpt⟩ := b.gpt_between
      have hle : bytind b.chars (x + 1) ≤ bytind b.chars g := by
        rw [← hgpt]
        exact gpt_beside (by omega)
      exact ⟨g, le_of_bytePos_le Emchar.width_pos hg (by omega) hle, hg', hgpt⟩
  have hend' : bytind b.chars (x + 1) ≤ bytind b.chars y := bytePos_mono _ hxy
  have hside : bytind b.chars x + 1 < b.gpt → bytind b.chars y ≤ b.gpt := by
    intro h
    rw [← hend, if_neg (by omega)]
  have hrun : b.runFrom (bytind b.chars x + 1)
      = b.chars[x - 1].rest ++ textBytes (between b.chars (x + 1) y) := by
    rw [runFrom, hend, segment_address hside, ← segment_byteAt (by omega) hxy hy,
      show bytind b.chars y - (bytind b.chars x + 1) = b.chars[x - 1].rest.length
        + (bytind b.chars y - bytind b.chars (x + 1)) by omega, segment_add,
      segment_rest hx hlt, ← hstep]
  rw [incBytind, hrun, validateForward_append b.chars[x - 1].rest_firstByteP,
    validateForward_textBytes, hstep]

theorem decBytind_bytind {x : Nat} (hx : 1 ≤ x) (hx' : x ≤ b.chars.length) :
    b.decBytind (bytind b.chars (x + 1)) = bytind b.chars x := by
  have hlt : x - 1 < b.chars.length := by omega
  have hstep : bytind b.chars (x + 1) = bytind b.chars x + 1 + b.chars[x - 1].rest.length := by
    rw [Nat.add_assoc, Nat.add_comm 1]
    exact bytePos_succ hx (getElem?_eq_getElem hlt)
  have hone : 1 ≤ bytind b.chars x := one_le_bytePos _ _
  have hbytes : segment b.byteAt (bytind b.chars x) (1 + b.chars[x - 1].rest.length)
      = b.chars[x - 1].first :: b.chars[x - 1].rest := by
    have h := segment_char hx hlt
    rw [Emchar.width, Emchar.bytes, length_cons, Nat.add_comm,
      show 1 + b.chars[x - 1].rest.length
        = bytind b.chars (x + 1) - bytind b.chars x by omega,
      segment_address gpt_beside] at h
    rw [← h]
    congr 1
    omega
  -- the bytes back from the last one of the character begin with it
  have hrun : ∃ l, b.runBack (bytind b.chars (x + 1) - 1)
      = b.chars[x - 1].rest.reverse ++ b.chars[x - 1].first :: l := by
    have hsplit : ∀ {lo : Nat}, lo ≤ bytind b.chars x →
        (segment b.byteAt lo (bytind b.chars (x + 1) - lo)).reverse
          = b.chars[x - 1].rest.reverse ++ b.chars[x - 1].first ::
            (segment b.byteAt lo (bytind b.chars x - lo)).reverse := by
      intro lo hlo
      rw [show bytind b.chars (x + 1) - lo = (bytind b.chars x - lo)
        + (1 + b.chars[x - 1].rest.length) by omega, segment_add, Nat.add_sub_cancel' hlo,
        hbytes, reverse_append, reverse_cons, append_assoc]
      rfl
    rw [runBack]
    split_ifs with h
    · have hlo : b.gpt ≤ bytind b.chars x := by
        refine Nat.not_lt.mp fun hlt => ?_
        have := gpt_beside hlt
        omega
      refine ⟨_, Eq.trans ?_ (hsplit hlo)⟩
      rw [← segment_address (fun h => absurd h (Nat.lt_irrefl _)), Gap.BufferText.byteAddress,
        if_pos (Nat.le_refl _)]
      congr 2
    · refine ⟨_, Eq.trans ?_ (hsplit hone)⟩
      congr 1
      refine segment_eq_iff.mpr fun i hi => ?_
      rw [Gap.BufferText.byteAt_before (by omega)]
  obtain ⟨l, hl⟩ := hrun
  rw [decBytind, hl, validateBackward_append (fun a ha => b.chars[x - 1].rest_firstByteP a
    (List.mem_reverse.mp ha)) b.chars[x - 1].first_firstByteP, length_reverse, hstep]
  omega

end SearchBuffer

end XEmacs.TextSearch
