import XEmacs.Buffer.Text
import XEmacs.Buffer.Gap
import XEmacs.Lib.ByteWords

/-!
# Counting characters

`bytecount_to_charcount` counts the characters of a stretch of bytes in three ways.
-/

namespace XEmacs.Buffer.CharCounts

open ByteWords List

def byteAsciiP (byte : Bufbyte) : Bool := byte &&& ~~~0x7F == 0

/-- `STRIDE_TYPE` as the machine has it: its bytes (`STRIDE`), `HIGH_BIT_MASK`, `ALIGNOF`
and the order of bytes. -/
structure StrideType where
  eight : Bool
  alignof : Nat
  bigEndianP : Bool

namespace StrideType

variable (ty : StrideType)

def stride : Nat := if ty.eight then 8 else 4

def highBitMask : Nat := if ty.eight then 0x8080808080808080 else 0x80808080

def aligned (ptr : Nat) : Bool := ptr &&& (ty.alignof - 1) == 0

/-- `*ascii_end`, the word at `p`. -/
def word (bytes : List Bufbyte) (p : Nat) : Option Nat :=
  if p + ty.stride ≤ bytes.length then
    let word := (bytes.drop p).take ty.stride
    some (if ty.bigEndianP then bigEndian word else littleEndian word)
  else none

theorem stride_pos : 0 < ty.stride := by
  unfold stride
  split <;> decide

theorem highBitMask_eq : ty.highBitMask = highBits ty.stride := by
  unfold highBitMask stride
  split <;> rfl

end StrideType

variable (ty : StrideType) (bytes : List Bufbyte)

/-- The loop over the words, at `ascii_end`. -/
def wordLoop (asciiEnd : Nat) : Option Nat :=
  if _h : asciiEnd + ty.stride ≤ bytes.length then
    match ty.word bytes asciiEnd with
    | none => none
    | some word =>
      if word &&& ty.highBitMask = 0 then wordLoop (asciiEnd + ty.stride) else some asciiEnd
  else some asciiEnd
  termination_by bytes.length - asciiEnd
  decreasing_by
    have := ty.stride_pos
    omega

theorem repBytesByFirstByte_pos (b : Bufbyte) : 0 < repBytesByFirstByte b := by
  unfold repBytesByFirstByte
  repeat' split
  all_goals decide

/-- The loop over the characters of one leading byte. -/
def leadingByteLoop (leadingByte : Bufbyte) (ptr count : Nat) : Nat × Nat :=
  if _h : ptr < bytes.length then
    if bytes[ptr] = leadingByte then
      leadingByteLoop leadingByte (ptr + repBytesByFirstByte leadingByte) (count + 1)
    else (ptr, count)
  else (ptr, count)
  termination_by bytes.length - ptr
  decreasing_by
    have := repBytesByFirstByte_pos leadingByte
    omega

variable {ty bytes}

theorem le_wordLoop {p q : Nat} (h : wordLoop ty bytes p = some q) : p ≤ q := by
  induction p using wordLoop.induct ty bytes with
  | case1 p hp hw =>
    rw [wordLoop, dif_pos hp, hw] at h
    cases h
  | case2 p hp word hw hmask ih =>
    rw [wordLoop, dif_pos hp, hw] at h
    simp only [hmask, if_true] at h
    exact Nat.le_of_add_right_le (ih h)
  | case3 p hp word hw hmask =>
    rw [wordLoop, dif_pos hp, hw] at h
    simp only [hmask, if_false, Option.some.injEq] at h
    exact h.le
  | case4 p hp =>
    rw [wordLoop, dif_neg hp, Option.some.injEq] at h
    exact h.le

theorem le_leadingByteLoop (b : Bufbyte) (ptr count : Nat) :
    ptr ≤ (leadingByteLoop bytes b ptr count).1 := by
  induction ptr, count using leadingByteLoop.induct bytes b with
  | case1 ptr count hp hb ih =>
    rw [leadingByteLoop, dif_pos hp, if_pos hb]
    exact Nat.le_of_add_right_le ih
  | case2 ptr count hp hb => rw [leadingByteLoop, dif_pos hp, if_neg hb]
  | case3 ptr count hp => rw [leadingByteLoop, dif_neg hp]

theorem lt_leadingByteLoop {ptr : Nat} (h : ptr < bytes.length) (count : Nat) :
    ptr < (leadingByteLoop bytes bytes[ptr] ptr count).1 := by
  rw [leadingByteLoop, dif_pos h, if_pos rfl]
  have := repBytesByFirstByte_pos bytes[ptr]
  have hle : ptr + repBytesByFirstByte bytes[ptr] ≤ (leadingByteLoop bytes bytes[ptr]
      (ptr + repBytesByFirstByte bytes[ptr]) (count + 1)).1 := le_leadingByteLoop _ _ _
  omega

variable (ty bytes)

/-- The loop of `bytecount_to_charcount`, at `ptr` behind `count` characters. The bytes
begin at the address `start`. -/
def countLoop (start ptr count : Nat) : Option Nat :=
  if _h : ptr < bytes.length then
    if byteAsciiP bytes[ptr] then
      if ! ty.aligned (start + ptr) then countLoop start (ptr + 1) (count + 1)
      else
        match _hw : wordLoop ty bytes ptr with
        | none => none
        | some asciiEnd =>
          if _he : asciiEnd = ptr then countLoop start (ptr + 1) (count + 1)
          else countLoop start asciiEnd (count + (asciiEnd - ptr))
    else if bufbyteFirstByteP bytes[ptr] then
      countLoop start (leadingByteLoop bytes bytes[ptr] ptr count).1
        (leadingByteLoop bytes bytes[ptr] ptr count).2
    else none
  else some count
  termination_by bytes.length - ptr
  decreasing_by
    · omega
    · omega
    · have := le_wordLoop _hw
      omega
    · have := lt_leadingByteLoop _h count
      omega

/-- `bytecount_to_charcount`, for the bytes at the address `ptr`. A byte that begins no
character has no place in the table of `REP_BYTES_BY_FIRST_BYTE`. -/
def bytecountToCharcount (ptr : Nat) : Option Nat := countLoop ty bytes ptr 0 0

/-- The loop of `charcount_to_bytecount`, at `newptr`. -/
def charcountLoop : Nat → Nat → Option Nat
  | 0, newptr => some newptr
  | len + 1, newptr =>
    match bytes[newptr]? with
    | none => none
    | some b =>
      if bufbyteFirstByteP b then charcountLoop len (newptr + repBytesByFirstByte b) else none

def charcountToBytecount (len : Nat) : Option Nat := charcountLoop bytes len 0

/-! ## The bytes of characters -/

theorem byteAsciiP_iff (b : Bufbyte) : byteAsciiP b = true ↔ b < 0x80 := by
  have h : ∀ n < 256, byteAsciiP (UInt8.ofNat n) = true ↔ UInt8.ofNat n < 0x80 := by
    decide +kernel
  have := h b.toNat b.toNat_lt
  rwa [UInt8.ofNat_toNat] at this

theorem bytes_of_ascii {c : Emchar} (h : c.first < 0x80) : c.bytes = [c.first] := by
  have hlen := c.length_rest
  rw [repBytesByFirstByte, if_pos h] at hlen
  rw [Emchar.bytes, eq_nil_of_length_eq_zero (Nat.succ_injective hlen)]

theorem length_bytes (c : Emchar) : c.bytes.length = repBytesByFirstByte c.first := by
  rw [Emchar.bytes, length_cons, c.length_rest]

theorem textBytes_cons (c : Emchar) (text : List Emchar) :
    textBytes (c :: text) = c.bytes ++ textBytes text := flatMap_cons

theorem textBytes_append (a r : List Emchar) :
    textBytes (a ++ r) = textBytes a ++ textBytes r := flatMap_append

theorem ascii_prefix {n : Nat} {text : List Emchar} (hn : n ≤ (textBytes text).length)
    (h : ∀ b ∈ (textBytes text).take n, b < 0x80) :
    ∃ a r, text = a ++ r ∧ a.length = n ∧ (textBytes a).length = n := by
  induction n generalizing text with
  | zero => exact ⟨[], text, rfl, rfl, rfl⟩
  | succ n ih =>
    cases text with
    | nil => exact absurd hn (Nat.not_succ_le_zero n)
    | cons c text =>
      have hc : c.first < 0x80 := h c.first (mem_cons_self ..)
      have htext : textBytes (c :: text) = c.first :: textBytes text := by
        rw [textBytes_cons, bytes_of_ascii hc]
        rfl
      rw [htext, length_cons] at hn
      rw [htext, take_succ_cons] at h
      obtain ⟨a, r, rfl, ha, hb⟩ :=
        ih (Nat.le_of_succ_le_succ hn) fun b hb => h b (mem_cons_of_mem _ hb)
      refine ⟨c :: a, r, rfl, by rw [length_cons, ha], ?_⟩
      rw [textBytes_cons, bytes_of_ascii hc, singleton_append, length_cons, hb]

theorem countP_textBytes (text : List Emchar) :
    (textBytes text).countP bufbyteFirstByteP = text.length := by
  induction text with
  | nil => rfl
  | cons c text ih =>
    have hrest : c.rest.countP bufbyteFirstByteP = 0 :=
      List.countP_eq_zero.mpr fun b hb => by
        rw [c.rest_firstByteP b hb]
        exact Bool.false_ne_true
    rw [textBytes_cons, countP_append, ih, Emchar.bytes, countP_cons, hrest,
      c.first_firstByteP, if_pos rfl, length_cons]
    omega

/-! ## The loops on a text

At `p` stands the text `rest`, up to the end of the bytes. -/

section

variable {ty bytes} {p : Nat} {rest : List Emchar}

theorem lt_length_iff (h : bytes.drop p = textBytes rest) : p < bytes.length ↔ rest ≠ [] := by
  constructor
  · rintro hp rfl
    exact absurd (List.drop_eq_nil_iff.mp h) (Nat.not_le_of_lt hp)
  · intro hne
    obtain ⟨c, r, rfl⟩ := exists_cons_of_ne_nil hne
    refine Nat.lt_of_not_le fun hp => ?_
    rw [drop_eq_nil_of_le hp, textBytes_cons] at h
    exact absurd h.symm (cons_ne_nil _ _)

theorem drop_append {a r : List Emchar} (h : bytes.drop p = textBytes (a ++ r)) :
    bytes.drop (p + (textBytes a).length) = textBytes r := by
  rw [← drop_drop, h, textBytes_append, drop_left]

theorem getElem_first {c : Emchar} {r : List Emchar} (h : bytes.drop p = textBytes (c :: r))
    (hp : p < bytes.length) : bytes[p] = c.first := by
  rw [drop_eq_getElem_cons hp] at h
  exact (List.cons.inj h).1

theorem word_ascii {word : Nat} (hp : p + ty.stride ≤ bytes.length)
    (hw : ty.word bytes p = some word) :
    word &&& ty.highBitMask = 0 ↔ ∀ b ∈ (bytes.drop p).take ty.stride, b < 0x80 := by
  have hlen : ((bytes.drop p).take ty.stride).length = ty.stride := by
    rw [length_take, length_drop]
    omega
  rw [StrideType.word, if_pos hp] at hw
  rw [ty.highBitMask_eq, ← Option.some.inj hw]
  split
  · have h := bigEndian_land_highBits ((bytes.drop p).take ty.stride)
    rwa [hlen] at h
  · have h := littleEndian_land_highBits ((bytes.drop p).take ty.stride)
    rwa [hlen] at h

theorem wordLoop_text (h : bytes.drop p = textBytes rest) :
    ∃ a r, rest = a ++ r ∧ (textBytes a).length = a.length ∧
      wordLoop ty bytes p = some (p + a.length) := by
  induction p using wordLoop.induct ty bytes generalizing rest with
  | case1 p hp hw =>
    rw [StrideType.word, if_pos hp] at hw
    cases hw
  | case2 p hp word hw hmask ih =>
    have hlen : ty.stride ≤ (textBytes rest).length := by
      rw [← h, length_drop]
      omega
    have hascii := (word_ascii hp hw).mp hmask
    rw [h] at hascii
    obtain ⟨a, r, rfl, ha, hb⟩ := ascii_prefix hlen hascii
    have hrest := drop_append h
    rw [hb] at hrest
    obtain ⟨a', r', rfl, hb', heq⟩ := ih hrest
    refine ⟨a ++ a', r', (append_assoc ..).symm, ?_, ?_⟩
    · rw [textBytes_append, length_append, length_append, hb, ha, hb']
    · rw [wordLoop, dif_pos hp, hw]
      simp only [hmask, if_true, heq, length_append, ha, Nat.add_assoc]
  | case3 p hp word hw hmask =>
    refine ⟨[], rest, rfl, rfl, ?_⟩
    rw [wordLoop, dif_pos hp, hw]
    simp only [hmask, if_false, length_nil, Nat.add_zero]
  | case4 p hp =>
    refine ⟨[], rest, rfl, rfl, ?_⟩
    rw [wordLoop, dif_neg hp, length_nil, Nat.add_zero]

theorem leadingByteLoop_text (h : bytes.drop p = textBytes rest) (b : Bufbyte)
    (count : Nat) :
    ∃ a r, rest = a ++ r ∧ leadingByteLoop bytes b p count
      = (p + (textBytes a).length, count + a.length) := by
  induction p, count using leadingByteLoop.induct bytes b generalizing rest with
  | case1 p count hp hb ih =>
    obtain ⟨c, r, rfl⟩ := exists_cons_of_ne_nil ((lt_length_iff h).mp hp)
    have hc : c.first = b := by rw [← getElem_first h hp, hb]
    have hbytes : (textBytes [c]).length = repBytesByFirstByte b := by
      rw [textBytes_cons, length_append, length_bytes, hc]
      rfl
    have hrest := drop_append (a := [c]) h
    rw [hbytes] at hrest
    obtain ⟨a', r', rfl, heq⟩ := ih hrest
    refine ⟨c :: a', r', rfl, ?_⟩
    rw [leadingByteLoop, dif_pos hp, if_pos hb, heq, textBytes_cons, length_append,
      length_bytes, hc, length_cons, Nat.add_assoc, Nat.add_assoc, Nat.add_comm 1]
  | case2 p count hp hb =>
    refine ⟨[], rest, rfl, ?_⟩
    rw [leadingByteLoop, dif_pos hp, if_neg hb]
    rfl
  | case3 p count hp =>
    refine ⟨[], rest, rfl, ?_⟩
    rw [leadingByteLoop, dif_neg hp]
    rfl

theorem drop_succ (h : bytes.drop p = textBytes rest) (hp : p < bytes.length)
    (hb : byteAsciiP bytes[p] = true) :
    ∃ c r, rest = c :: r ∧ bytes.drop (p + 1) = textBytes r := by
  obtain ⟨c, r, rfl⟩ := exists_cons_of_ne_nil ((lt_length_iff h).mp hp)
  rw [getElem_first h hp, byteAsciiP_iff] at hb
  have hrest := drop_append (a := [c]) h
  rw [textBytes_cons, bytes_of_ascii hb] at hrest
  exact ⟨c, r, rfl, hrest⟩

theorem countLoop_words {start count asciiEnd : Nat} (hp : p < bytes.length)
    (hb : byteAsciiP bytes[p] = true) (hal : ¬ (! ty.aligned (start + p)) = true)
    (hw : wordLoop ty bytes p = some asciiEnd) :
    countLoop ty bytes start p count =
      if asciiEnd = p then countLoop ty bytes start (p + 1) (count + 1)
      else countLoop ty bytes start asciiEnd (count + (asciiEnd - p)) := by
  rw [countLoop, dif_pos hp, if_pos hb, if_neg hal]
  split
  · rename_i hnone
    rw [hw] at hnone
    cases hnone
  · rename_i hsome
    rw [hw] at hsome
    cases hsome
    rfl

theorem countLoop_text {start count : Nat} (h : bytes.drop p = textBytes rest) :
    countLoop ty bytes start p count = some (count + rest.length) := by
  induction p, count using countLoop.induct ty bytes start generalizing rest with
  | case1 p count hp hb hal ih =>
    obtain ⟨c, r, rfl, hr⟩ := drop_succ h hp hb
    rw [countLoop, dif_pos hp, if_pos hb, if_pos hal, ih hr, length_cons,
      Nat.add_right_comm, Nat.add_assoc]
  | case2 p count hp hb hal hw =>
    have hwords : ∃ a r, rest = a ++ r ∧ (textBytes a).length = a.length ∧
        wordLoop ty bytes p = some (p + a.length) := wordLoop_text h
    obtain ⟨a, r, -, -, hsome⟩ := hwords
    rw [hw] at hsome
    cases hsome
  | case3 count p hp hb hal hw ih =>
    obtain ⟨c, r, rfl, hr⟩ := drop_succ h hp hb
    rw [countLoop_words hp hb hal hw, if_pos rfl, ih hr, length_cons,
      Nat.add_right_comm, Nat.add_assoc]
  | case4 p count hp hb hal asciiEnd hw hne ih =>
    have hwords : ∃ a r, rest = a ++ r ∧ (textBytes a).length = a.length ∧
        wordLoop ty bytes p = some (p + a.length) := wordLoop_text h
    obtain ⟨a, r, rfl, ha, hsome⟩ := hwords
    have hend : asciiEnd = p + a.length := by
      rw [hw] at hsome
      exact Option.some.inj hsome
    have hrest := drop_append h
    rw [ha, ← hend] at hrest
    rw [countLoop_words hp hb hal hw, if_neg hne, ih hrest, length_append, hend,
      Nat.add_sub_cancel_left, Nat.add_assoc]
  | case5 p count hp hb hfirst ih =>
    obtain ⟨a, r, rfl, heq⟩ := leadingByteLoop_text h bytes[p] count
    have hrest := drop_append h
    rw [heq] at ih
    rw [countLoop, dif_pos hp, if_neg hb, if_pos hfirst, heq, ih hrest, length_append,
      Nat.add_assoc]
  | case6 p count hp hb hfirst =>
    obtain ⟨c, r, rfl⟩ := exists_cons_of_ne_nil ((lt_length_iff h).mp hp)
    rw [getElem_first h hp] at hfirst
    exact absurd c.first_firstByteP hfirst
  | case7 p count hp =>
    obtain rfl : rest = [] := Classical.byContradiction fun hne => hp ((lt_length_iff h).mpr hne)
    rw [countLoop, dif_neg hp]
    rfl

theorem charcountLoop_text {a : List Emchar} (h : bytes.drop p = textBytes (a ++ rest)) :
    charcountLoop bytes a.length p = some (p + (textBytes a).length) := by
  induction a generalizing p with
  | nil => rfl
  | cons c a ih =>
    have hp : p < bytes.length := (lt_length_iff h).mpr (cons_ne_nil _ _)
    have hstep : (textBytes [c]).length = repBytesByFirstByte c.first := by
      rw [textBytes_cons, length_append, length_bytes]
      rfl
    have hrest := drop_append (a := [c]) h
    rw [hstep] at hrest
    rw [length_cons, charcountLoop, getElem?_eq_getElem hp, getElem_first h hp]
    simp only [c.first_firstByteP, if_true]
    rw [ih hrest, textBytes_cons, length_append, length_bytes, Nat.add_assoc]

end

/-- For every machine, every address and every stretch of a text from one character to
another, `bytecount_to_charcount` reads nothing behind the stretch and returns the number
of its first bytes, and `charcount_to_bytecount` takes this number back to the length. -/
theorem counts_of_stretch (ptr : Nat) (text : List Emchar) (len : Nat)
    (hlen : ∃ i, len = (textBytes (text.take i)).length) :
    let stretch := (textBytes text).take len
    bytecountToCharcount ty stretch ptr = some (stretch.countP bufbyteFirstByteP) ∧
      charcountToBytecount stretch (stretch.countP bufbyteFirstByteP) = some len := by
  obtain ⟨i, rfl⟩ := hlen
  have hstretch : (textBytes text).take (textBytes (text.take i)).length
      = textBytes (text.take i) := by
    have hsplit : textBytes text = textBytes (text.take i) ++ textBytes (text.drop i) := by
      rw [← textBytes_append, List.take_append_drop]
    rw [hsplit, List.take_left]
  intro stretch
  have hs : stretch = textBytes (text.take i) := hstretch
  constructor
  · rw [hs, countP_textBytes, bytecountToCharcount, countLoop_text List.drop_zero,
      Nat.zero_add]
  · have hall : (textBytes (text.take i)).drop 0 = textBytes (text.take i ++ []) := by
      rw [List.append_nil, List.drop_zero]
    rw [hs, countP_textBytes, charcountToBytecount, charcountLoop_text hall, Nat.zero_add]

/-- A word of the stretch, and a character of three bytes behind it. -/
theorem counts_of_word :
    let stretch := (textBytes (List.replicate 8 letterA ++ [hiraganaA])).take 11
    bytecountToCharcount ⟨true, 8, false⟩ stretch 0
        = some (stretch.countP bufbyteFirstByteP) ∧
      charcountToBytecount stretch (stretch.countP bufbyteFirstByteP) = some 11 :=
  counts_of_stretch _ 0 _ 11 ⟨9, rfl⟩

end XEmacs.Buffer.CharCounts
