import XEmacs.Lib.Machines
import XEmacs.Lib.Occurrences
import XEmacs.Search.Buffers

/-!
# Searches for a character (search.c)

`bi_scan_buffer` searches for the `count`-th occurrence of a character, backwards if `count` is
negative.
-/

namespace XEmacs.TextSearch

open BytePositions ByteMemory Buffer Machines Occurrences List

namespace SearchBuffer

/-- The body of the forward loop over characters, on the position and what is left of the
count. -/
def forwardChar (b : SearchBuffer) (target : Emchar) (s : Nat × ℤ) : Nat × ℤ :=
  (b.incBytind s.1, if b.fetchChar s.1 = target.bytes then s.2 - 1 else s.2)

/-- The body of the forward loop over pieces. -/
def forwardBytes (b : SearchBuffer) (target : Emchar) (lim : Nat) (s : Nat × ℤ) : Nat × ℤ :=
  let ceil := min lim (b.ceilingOf s.1)
  let start := b.byteAddress s.1
  -- `memchr`
  match (segment b.beg start (ceil - s.1)).findIdx? (· == target.first) with
  | some i => (b.ptrBytePos (start + i) + 1, s.2 - 1)
  | none => (ceil, s.2)

/-- The body of the backward loop over characters. -/
def backwardChar (b : SearchBuffer) (target : Emchar) (s : Nat × ℤ) : Nat × ℤ :=
  let st := b.decBytind s.1
  (st, if b.fetchChar st = target.bytes then s.2 + 1 else s.2)

/-- The inner loop backwards over the `n` bytes from `bufptr` down to `floorptr`, and whether
it was left at the byte. -/
def backScan (m : Nat → Bufbyte) (target : Bufbyte) : Nat → Nat → Nat → Bool × Nat
  | 0, _, st => (false, st)
  | n + 1, bufptr, st =>
    if m bufptr = target then (true, st - 1) else backScan m target n (bufptr - 1) (st - 1)

/-- The body of the backward loop over pieces. -/
def backwardBytes (b : SearchBuffer) (target : Emchar) (lim : Nat) (s : Nat × ℤ) : Nat × ℤ :=
  let floor := max lim (b.floorOf s.1)
  let bufptr := b.byteAddressBefore s.1
  let floorptr := b.byteAddress floor
  let (found, st) := backScan b.beg target.first (bufptr + 1 - floorptr) bufptr s.1
  (st, if found then s.2 + 1 else s.2)

/-- `lim`: no end stands for that of the accessible portion. -/
def scanLimit (b : SearchBuffer) (en : Nat) (count : ℤ) : Nat :=
  if 0 < en then en else if 0 < count then b.biZv else b.biBegv

/-- The loops of `bi_scan_buffer`, which end with the position returned and the shortage. -/
def biScanLoop (b : SearchBuffer) (target : Emchar) (lim : Nat) (count : ℤ) :
    Nat × ℤ → Except Empty (Outcome (Nat × ℤ) (Nat × ℤ)) :=
  if 0 < count then
    whileDo (fun s => s.1 < lim && 0 < s.2)
      (if 0x80 ≤ target.first then b.forwardChar target else b.forwardBytes target lim) id
  else
    whileDo (fun s => lim < s.1 && s.2 < 0)
      (if 0x80 ≤ target.first then b.backwardChar target else b.backwardBytes target lim)
      -- the position after the occurrence, where there was the last one wanted
      (fun s => (if s.2 ≠ 0 then s.1 else b.incBytind s.1, -s.2))

/-- `bi_scan_buffer` returns the position, with the shortage. -/
def BiScanBuffer (b : SearchBuffer) (target : Emchar) (st en : Nat) (count : ℤ) :
    Nat × ℤ → Prop :=
  Ends (b.biScanLoop target (b.scanLimit en count) count) (st, count)

/-! ## What it is for -/

/-- The positions of the character between two positions. -/
def occurrences (b : SearchBuffer) (target : Emchar) (s e : Nat) : List Nat :=
  (List.range' s (e - s)).filter (b.chars[· - 1]? = some target)

/-- The position after the `count`-th occurrence from `s` on in the direction of the search,
if it comes before `e`; else `e`, with the number of occurrences left unfound. -/
def scanned (b : SearchBuffer) (target : Emchar) (s e : Nat) (count : ℤ) : Nat × ℤ :=
  let found :=
    if 0 < count then b.occurrences target s e else (b.occurrences target e s).reverse
  match found[count.natAbs - 1]? with
  | some x => (bytind b.chars (x + 1), 0)
  | none => (bytind b.chars e, (count.natAbs - found.length : Nat))

/-- The search is inside the text and ends in the accessible portion, where `count` leads. -/
def InReach (b : SearchBuffer) (s e : Nat) (count : ℤ) : Prop :=
  if 0 < count then 1 ≤ s ∧ s ≤ e ∧ e ≤ b.zv
  else b.begv ≤ e ∧ e ≤ s ∧ s ≤ b.chars.length + 1

/-! ## Bytes of ASCII -/

variable {b : SearchBuffer} {target : Emchar}

theorem bytes_ascii {c : Emchar} (h : c.first < 0x80) : c.bytes = [c.first] := by
  have hlen := c.length_rest
  rw [repBytesByFirstByte, if_pos h] at hlen
  rw [Emchar.bytes, List.length_eq_zero_iff.mp (by omega : c.rest.length = 0)]

theorem eq_of_first_mem {c : Emchar} (h : target.first < 0x80) (hc : target.first ∈ c.bytes) :
    c = target := by
  rcases List.mem_cons.mp hc with hfirst | hrest
  · rw [← Emchar.bytes_inj, bytes_ascii h, bytes_ascii (hfirst ▸ h), hfirst]
  · have hlow := c.rest_firstByteP _ hrest
    rw [bufbyteFirstByteP, decide_eq_false_iff_not] at hlow
    exact absurd (UInt8.lt_trans h (by decide)) hlow

theorem first_not_mem {l : List Emchar} (h : target.first < 0x80) (hl : target ∉ l) :
    target.first ∉ textBytes l := by
  intro hmem
  obtain ⟨c, hc, hin⟩ := List.mem_flatMap.mp hmem
  exact hl (eq_of_first_mem h hin ▸ hc)

theorem findIdx_none {c : Bufbyte} {l : List Bufbyte} (h : c ∉ l) :
    l.findIdx? (· == c) = none := by
  rw [findIdx?_eq_none_iff]
  intro x hx
  rw [beq_eq_false_iff_ne]
  exact fun heq => h (heq ▸ hx)

theorem findIdx_first {c : Bufbyte} {l : List Bufbyte} (h : c ∉ l) (l' : List Bufbyte) :
    (l ++ c :: l').findIdx? (· == c) = some l.length := by
  rw [findIdx?_append, findIdx_none h, findIdx?_cons, beq_self_eq_true]
  simp

theorem backScan_eq (m : Nat → Bufbyte) (c : Bufbyte) {n ptr : Nat} (st : Nat)
    (h : n ≤ ptr + 1) :
    backScan m c n ptr st
      = match (segment m (ptr + 1 - n) n).reverse.findIdx? (· == c) with
        | some i => (true, st - i - 1)
        | none => (false, st - n) := by
  induction n generalizing ptr st with
  | zero => rfl
  | succ n ih =>
    have hseg : (segment m (ptr + 1 - (n + 1)) (n + 1)).reverse
        = m ptr :: (segment m (ptr - n) n).reverse := by
      rw [show ptr + 1 - (n + 1) = ptr - n by omega, segment_add, reverse_append,
        Nat.sub_add_cancel (by omega)]
      rfl
    rw [backScan, hseg, findIdx?_cons]
    by_cases hm : m ptr = c
    · rw [if_pos hm, hm, beq_self_eq_true, if_pos rfl]
      rfl
    · have hfirst : (m ptr == c) = false := beq_eq_false_iff_ne.mpr hm
      rw [if_neg hm, hfirst, if_neg Bool.false_ne_true]
      cases n with
      | zero => rfl
      | succ n =>
        rw [ih (st - 1) (by omega), show ptr - 1 + 1 - (n + 1) = ptr - (n + 1) by omega]
        cases (segment m (ptr - (n + 1)) (n + 1)).reverse.findIdx? (· == c) with
        | none =>
          show (false, _) = (false, _)
          congr 1
          omega
        | some i =>
          show (true, _) = (true, st - (i + 1) - 1)
          congr 1
          omega

/-! ## What a round does -/

/-- A round forward goes over a piece of the text up to `e` in which the character does not
stand, or stands at the end. -/
def RoundForward (b : SearchBuffer) (target : Emchar) (e s : Nat) (n : ℤ) (t : Nat × ℤ) :
    Prop :=
  ∃ m, s < m ∧ m ≤ e ∧
    ((target ∉ between b.chars s m ∧ t = (bytind b.chars m, n)) ∨
      ∃ l, between b.chars s m = l ++ [target] ∧ target ∉ l ∧ t = (bytind b.chars m, n - 1))

/-- A round backward goes over a piece down to `e`. -/
def RoundBackward (b : SearchBuffer) (target : Emchar) (e s : Nat) (n : ℤ) (t : Nat × ℤ) :
    Prop :=
  ∃ m, e ≤ m ∧ m < s ∧
    ((target ∉ between b.chars m s ∧ t = (bytind b.chars m, n)) ∨
      ∃ l, between b.chars m s = target :: l ∧ target ∉ l ∧ t = (bytind b.chars m, n + 1))

theorem forwardChar_round {e s : Nat} (n : ℤ) (hs : 1 ≤ s) (hse : s < e)
    (he : e ≤ b.chars.length + 1) :
    b.RoundForward target e s n (b.forwardChar target (bytind b.chars s, n)) := by
  have hlt : s - 1 < b.chars.length := by omega
  have hone : between b.chars s (s + 1) = [b.chars[s - 1]] :=
    between_succ (getElem?_eq_getElem hlt)
  refine ⟨s + 1, Nat.lt_succ_self s, hse, ?_⟩
  rw [forwardChar, fetchChar_bytind hs hlt, incBytind_bytind hs (by omega), hone]
  by_cases hc : b.chars[s - 1] = target
  · exact .inr ⟨[], by rw [hc]; rfl, not_mem_nil, by rw [hc, if_pos rfl]⟩
  · refine .inl ⟨mt List.mem_singleton.mp (Ne.symm hc), ?_⟩
    rw [if_neg (mt Emchar.bytes_inj.mp hc)]

theorem exists_ceiling {e s : Nat} (hse : s < e) (he : e ≤ b.zv) :
    ∃ m, s < m ∧ m ≤ e ∧ min (bytind b.chars e) (b.ceilingOf (bytind b.chars s)) = bytind b.chars m ∧
      (bytind b.chars s < b.gpt → bytind b.chars m ≤ b.gpt) := by
  have hzv : bytind b.chars e ≤ b.biZv := bytePos_mono _ he
  rw [ceilingOf]
  split_ifs with h
  · obtain ⟨g, hg, hg', hgpt⟩ := b.gpt_between
    have hsg : s < g := by
      refine Nat.lt_of_not_le fun hle => ?_
      have : bytind b.chars g ≤ bytind b.chars s := bytePos_mono _ hle
      omega
    rcases Nat.le_total g e with hge | hge
    · have : bytind b.chars g ≤ bytind b.chars e := bytePos_mono _ hge
      exact ⟨g, hsg, hge, by omega, fun _ => Nat.le_of_eq hgpt.symm⟩
    · have : bytind b.chars e ≤ bytind b.chars g := bytePos_mono _ hge
      exact ⟨e, hse, Nat.le_refl e, by omega, fun _ => by omega⟩
  · exact ⟨e, hse, Nat.le_refl e, by omega, fun hlt => by omega⟩

theorem exists_floor {e s : Nat} (hbegv : b.begv ≤ e) (hse : e < s) :
    ∃ m, e ≤ m ∧ m < s ∧ max (bytind b.chars e) (b.floorOf (bytind b.chars s)) = bytind b.chars m ∧
      (bytind b.chars m < b.gpt → bytind b.chars s ≤ b.gpt) := by
  have hbeg : b.biBegv ≤ bytind b.chars e := bytePos_mono _ hbegv
  rw [floorOf]
  split_ifs with h
  · obtain ⟨g, hg, hg', hgpt⟩ := b.gpt_between
    have hsg : g < s := by
      refine Nat.lt_of_not_le fun hle => ?_
      have : bytind b.chars s ≤ bytind b.chars g := bytePos_mono _ hle
      omega
    rcases Nat.le_total e g with hge | hge
    · have : bytind b.chars e ≤ bytind b.chars g := bytePos_mono _ hge
      exact ⟨g, hge, hsg, by omega, fun _ => by omega⟩
    · have : bytind b.chars g ≤ bytind b.chars e := bytePos_mono _ hge
      exact ⟨e, Nat.le_refl e, hse, by omega, fun _ => by omega⟩
  · exact ⟨e, Nat.le_refl e, hse, by omega, fun hlt => by omega⟩

theorem ptrBytePos_address {p k : Nat} (h : p < b.gpt → p + k < b.gpt) :
    b.ptrBytePos (b.byteAddress p + k) = p + k := by
  have := b.one_le_gapSize
  rw [ptrBytePos, Gap.BufferText.byteAddress]
  split_ifs <;> omega

theorem forwardBytes_round {e s : Nat} (n : ℤ) (h : target.first < 0x80) (hs : 1 ≤ s)
    (hse : s < e) (he : e ≤ b.zv) :
    b.RoundForward target e s n
      (b.forwardBytes target (bytind b.chars e) (bytind b.chars s, n)) := by
  have hzv := b.zv_le
  obtain ⟨m, hsm, hme, hceil, hside⟩ := exists_ceiling hse he
  have hpiece := segment_between hs (Nat.le_of_lt hsm) (by omega) hside
  rw [forwardBytes]
  simp only [hceil, hpiece]
  by_cases hmem : target ∈ between b.chars s m
  · -- the piece is scanned up to the character
    obtain ⟨l, l', hl, hnot⟩ := eq_append_cons_of_mem hmem
    obtain ⟨hpre, hone, -, hlt⟩ := between_split (by omega) hl
    have hbytes : textBytes (between b.chars s m)
        = textBytes l ++ target.first :: textBytes l' := by
      rw [hl, textBytes, flatMap_append, flatMap_cons, bytes_ascii h]
      rfl
    have hx : bytind b.chars (s + l.length) = bytind b.chars s + (textBytes l).length := by
      have hadd : bytind b.chars (s + l.length) = bytind b.chars s
          + byteLength Emchar.width (between b.chars s (s + l.length)) :=
        bytePos_eq_add_between _ hs (Nat.le_add_right s l.length)
      rw [length_textBytes, hadd, hpre]
    have hx' : bytind b.chars (s + l.length + 1) = bytind b.chars (s + l.length) + 1 := by
      refine (bytePos_eq_add_between _ (by omega) (Nat.le_succ _)).trans ?_
      rw [hone, byteLength_cons, Emchar.width, bytes_ascii h]
      rfl
    have hxm : bytind b.chars (s + l.length) < bytind b.chars m :=
      bytePos_lt Emchar.width_pos (by omega) hlt (by omega)
    refine ⟨s + l.length + 1, by omega, by omega, .inr ⟨l, ?_, hnot, ?_⟩⟩
    · rw [between_append b.chars hs (Nat.le_add_right s l.length) (Nat.le_succ _), hpre, hone]
    · rw [hbytes, findIdx_first (first_not_mem h hnot)]
      show (b.ptrBytePos (_ + _) + 1, n - 1) = _
      rw [ptrBytePos_address (fun hlow => by have := hside hlow; omega), hx', hx]
  · refine ⟨m, hsm, hme, .inl ⟨hmem, ?_⟩⟩
    rw [findIdx_none (first_not_mem h hmem)]

theorem backwardChar_round {e s : Nat} (n : ℤ) (he : 1 ≤ e) (hse : e < s)
    (hs : s ≤ b.chars.length + 1) :
    b.RoundBackward target e s n (b.backwardChar target (bytind b.chars s, n)) := by
  obtain ⟨s, rfl⟩ : ∃ x, s = x + 1 := ⟨s - 1, by omega⟩
  have hlt : s - 1 < b.chars.length := by omega
  have hone : between b.chars s (s + 1) = [b.chars[s - 1]] :=
    between_succ (getElem?_eq_getElem hlt)
  refine ⟨s, by omega, Nat.lt_succ_self s, ?_⟩
  rw [backwardChar]
  simp only [decBytind_bytind (show 1 ≤ s by omega) (show s ≤ b.chars.length by omega),
    fetchChar_bytind (show 1 ≤ s by omega) hlt, hone]
  by_cases hc : b.chars[s - 1] = target
  · exact .inr ⟨[], by rw [hc], not_mem_nil, by rw [hc, if_pos rfl]⟩
  · refine .inl ⟨mt List.mem_singleton.mp (Ne.symm hc), ?_⟩
    rw [if_neg (mt Emchar.bytes_inj.mp hc)]

theorem backwardBytes_round {e s : Nat} (n : ℤ) (h : target.first < 0x80) (hbegv : b.begv ≤ e)
    (hse : e < s) (hs : s ≤ b.chars.length + 1) :
    b.RoundBackward target e s n
      (b.backwardBytes target (bytind b.chars e) (bytind b.chars s, n)) := by
  have he := Nat.le_trans b.one_le_begv hbegv
  obtain ⟨m, hem, hms, hfloor, hside⟩ := exists_floor hbegv hse
  have hlt : bytind b.chars m < bytind b.chars s :=
    bytePos_lt Emchar.width_pos (by omega) hms hs
  have hm1 : 1 ≤ bytind b.chars m := one_le_bytePos _ _
  have hpiece := segment_between (by omega) (Nat.le_of_lt hms) hs hside
  -- the pointers are as far apart as the positions
  have hptr : b.byteAddressBefore (bytind b.chars s) + 1
      = b.byteAddress (bytind b.chars m) + (bytind b.chars s - bytind b.chars m) := by
    rw [byteAddressBefore, Gap.BufferText.byteAddress]
    split_ifs <;> omega
  have hcount : b.byteAddressBefore (bytind b.chars s) + 1 - b.byteAddress (bytind b.chars m)
      = bytind b.chars s - bytind b.chars m := by omega
  rw [backwardBytes]
  simp only [hfloor, hcount]
  rw [backScan_eq _ _ _ (by omega), show b.byteAddressBefore (bytind b.chars s) + 1
    - (bytind b.chars s - bytind b.chars m) = b.byteAddress (bytind b.chars m) by omega, hpiece]
  by_cases hmem : target ∈ between b.chars m s
  · -- the piece is scanned back to the character
    obtain ⟨r, r', hr, hnot⟩ := eq_append_cons_of_mem (List.mem_reverse.mpr hmem)
    have hl : between b.chars m s = r'.reverse ++ target :: r.reverse := by
      rw [← List.reverse_reverse (between b.chars m s), hr]
      simp
    obtain ⟨hpre, hone, hpost, hlt'⟩ := between_split (by omega) hl
    have hnot' : target ∉ r.reverse := mt List.mem_reverse.mp hnot
    have hbytes : (textBytes (between b.chars m s)).reverse
        = (textBytes r.reverse).reverse ++ target.first :: (textBytes r'.reverse).reverse := by
      rw [hl, textBytes, flatMap_append, flatMap_cons, bytes_ascii h]
      simp [textBytes]
    have hx : bytind b.chars s
        = bytind b.chars (m + r'.reverse.length) + (1 + (textBytes r.reverse).length) := by
      refine (bytePos_eq_add_between _ (by omega) (Nat.le_of_lt hlt')).trans ?_
      rw [between_append b.chars (by omega) (Nat.le_succ _) hlt', hone, hpost,
        singleton_append, byteLength_cons, Emchar.width, bytes_ascii h, length_textBytes]
      rfl
    refine ⟨m + r'.reverse.length, by omega, hlt', .inr ⟨r.reverse, ?_, hnot', ?_⟩⟩
    · rw [between_append b.chars (by omega) (Nat.le_succ _) hlt', hone, hpost,
        singleton_append]
    · rw [hbytes, findIdx_first (mt List.mem_reverse.mp (first_not_mem h hnot'))]
      show (_ - _ - 1, n + 1) = _
      rw [length_reverse, Prod.mk.injEq]
      exact ⟨by omega, rfl⟩
  · refine ⟨m, hem, hms, .inl ⟨hmem, ?_⟩⟩
    rw [findIdx_none (mt List.mem_reverse.mp (first_not_mem h hmem))]
    show (_ - _, n) = _
    rw [Nat.sub_sub_self (Nat.le_of_lt hlt)]

/-! ## The loops -/

theorem forward_ends {last : Nat × ℤ → Nat × ℤ} {body : Nat × ℤ → Nat × ℤ} {e : Nat}
    (he : e ≤ b.chars.length + 1)
    (hbody : ∀ s n, 1 ≤ s → s < e →
      b.RoundForward target e s n (body (bytind b.chars s, n))) {s : Nat} (n : Nat)
    (hs : 1 ≤ s) (hse : s ≤ e) :
    Ends (whileDo (ε := Empty) (fun s => s.1 < bytind b.chars e && 0 < s.2) body last)
      (bytind b.chars s, (n : ℤ))
      (last (bytind b.chars (s + (pass target n (between b.chars s e)).1),
        ((pass target n (between b.chars s e)).2 : ℤ))) := by
  induction hd : e - s using Nat.strongRecOn generalizing s n with
  | ind d ih =>
  subst hd
  rcases Nat.eq_zero_or_pos n with rfl | hn
  · rw [pass_zero]
    exact Ends.whileDo_done (by simp)
  rcases Nat.eq_or_lt_of_le hse with rfl | hlt
  · rw [between_self, pass_nil]
    exact Ends.whileDo_done (by simp)
  have hpos : bytind b.chars s < bytind b.chars e := bytePos_lt Emchar.width_pos hs hlt he
  refine Ends.whileDo_next (by simp [hpos, hn]) ?_
  obtain ⟨m, hsm, hme, hround⟩ := hbody s n hs hlt
  have hlen : (between b.chars s m).length = m - s := length_between hs (by omega)
  rw [between_append b.chars hs (Nat.le_of_lt hsm) hme]
  rcases hround with ⟨hnot, hstep⟩ | ⟨l, hl, hnot, hstep⟩
  · have hrest := ih (e - m) (by omega) n (by omega : 1 ≤ m) hme rfl
    rw [hstep, pass_append hnot _ hn, hlen, ← Nat.add_assoc, Nat.add_sub_cancel' (by omega)]
    exact hrest
  · obtain ⟨n, rfl⟩ : ∃ k, n = k + 1 := ⟨n - 1, by omega⟩
    have hrest := ih (e - m) (by omega) n (by omega : 1 ≤ m) hme rfl
    have hl' : l.length + 1 = m - s := by
      rw [hl, length_append] at hlen
      exact hlen
    rw [hstep, hl, append_assoc, singleton_append, pass_found hnot, hl',
      ← Nat.add_assoc, Nat.add_sub_cancel' (by omega), Nat.cast_add_one, add_sub_cancel_right]
    exact hrest

theorem backward_ends {last : Nat × ℤ → Nat × ℤ} {body : Nat × ℤ → Nat × ℤ} {e : Nat}
    (he : 1 ≤ e)
    (hbody : ∀ s n, e < s → s ≤ b.chars.length + 1 →
      b.RoundBackward target e s n (body (bytind b.chars s, n))) {s : Nat} (n : Nat)
    (hs : s ≤ b.chars.length + 1) (hse : e ≤ s) :
    Ends (whileDo (ε := Empty) (fun s => bytind b.chars e < s.1 && s.2 < 0) body last)
      (bytind b.chars s, -(n : ℤ))
      (last (bytind b.chars (s - (pass target n (between b.chars e s).reverse).1),
        -((pass target n (between b.chars e s).reverse).2 : ℤ))) := by
  induction hd : s - e using Nat.strongRecOn generalizing s n with
  | ind d ih =>
  subst hd
  rcases Nat.eq_zero_or_pos n with rfl | hn
  · rw [pass_zero]
    exact Ends.whileDo_done (by simp)
  rcases Nat.eq_or_lt_of_le hse with rfl | hlt
  · rw [between_self, reverse_nil, pass_nil]
    exact Ends.whileDo_done (by simp)
  have hpos : bytind b.chars e < bytind b.chars s := bytePos_lt Emchar.width_pos he hlt hs
  refine Ends.whileDo_next (by simp [hpos, hn]) ?_
  obtain ⟨m, hem, hms, hround⟩ := hbody s (-n) hlt hs
  have hlen : (between b.chars m s).reverse.length = s - m := by
    rw [length_reverse]
    exact length_between (by omega) hs
  rw [between_append b.chars he hem (Nat.le_of_lt hms), reverse_append]
  rcases hround with ⟨hnot, hstep⟩ | ⟨l, hl, hnot, hstep⟩
  · have hrest := ih (m - e) (by omega) n (by omega : m ≤ _) hem rfl
    rw [hstep, pass_append (mt List.mem_reverse.mp hnot) _ hn, hlen, ← Nat.sub_sub,
      Nat.sub_sub_self (by omega)]
    exact hrest
  · obtain ⟨n, rfl⟩ : ∃ k, n = k + 1 := ⟨n - 1, by omega⟩
    have hrest := ih (m - e) (by omega) n (by omega : m ≤ _) hem rfl
    have hl' : l.reverse.length + 1 = s - m := by
      rw [hl, reverse_cons, length_append] at hlen
      exact hlen
    rw [hstep, hl, reverse_cons, append_assoc, singleton_append,
      pass_found (mt List.mem_reverse.mp hnot), hl', ← Nat.sub_sub,
      Nat.sub_sub_self (by omega), Nat.cast_add_one, neg_add, neg_add_cancel_right]
    exact hrest

/-! ## What is found -/

theorem occurrences_eq {s e : Nat} (hs : 1 ≤ s) (he : e ≤ b.chars.length + 1) :
    b.occurrences target s e = (places target (between b.chars s e)).map (s + ·) := by
  rw [occurrences, range'_eq_map_range, filter_map, places, length_between hs he]
  refine congrArg _ (filter_congr fun i hi => ?_)
  have hlt := List.mem_range.mp hi
  simp only [Function.comp_apply, between, getElem?_take, getElem?_drop, hlt, if_true]
  rw [show s - 1 + i = s + i - 1 by omega]

theorem pass_forward {s e n : Nat} (hs : 1 ≤ s) (hse : s ≤ e) (he : e ≤ b.chars.length + 1)
    (hn : 1 ≤ n) :
    (bytind b.chars (s + (pass target n (between b.chars s e)).1),
        ((pass target n (between b.chars s e)).2 : ℤ))
      = b.scanned target s e n := by
  rw [scanned, if_pos (by omega), Int.natAbs_natCast, occurrences_eq hs he, pass_eq hn]
  simp only [getElem?_map, length_map]
  cases (places target (between b.chars s e))[n - 1]? with
  | some i => rfl
  | none =>
    show (bytind b.chars (s + (between b.chars s e).length), _) = _
    rw [length_between hs he, Nat.add_sub_cancel' hse]
    rfl

theorem pass_backward {s e n : Nat} (he : 1 ≤ e) (hse : e ≤ s) (hs : s ≤ b.chars.length + 1)
    (hn : 1 ≤ n) :
    let r := pass target n (between b.chars e s).reverse
    (if -(r.2 : ℤ) ≠ 0 then bytind b.chars (s - r.1)
        else b.incBytind (bytind b.chars (s - r.1)), - -(r.2 : ℤ))
      = b.scanned target s e (-n) := by
  intro r
  have hlen := length_between (l := b.chars) he hs
  have hneg : ¬0 < -(n : ℤ) := by omega
  rw [scanned, if_neg hneg, Int.natAbs_neg, Int.natAbs_natCast, occurrences_eq he hs]
  have hr : r = match ((places target (between b.chars e s)).reverse.map
      ((between b.chars e s).length - 1 - ·))[n - 1]? with
      | some i => (i + 1, 0)
      | none => (s - e, n - (places target (between b.chars e s)).length) := by
    have hpass := pass_eq (t := target) (l := (between b.chars e s).reverse) hn
    rw [places_reverse, length_map, length_reverse, length_reverse, hlen] at hpass
    rw [hlen]
    exact hpass
  simp only [getElem?_map, ← map_reverse, length_map, length_reverse,
    hlen] at hr ⊢
  cases hk : (places target (between b.chars e s)).reverse[n - 1]? with
  | some i =>
    have hi : i < s - e := by
      rw [← hlen]
      exact List.mem_range.mp (List.mem_filter.mp
        (List.mem_reverse.mp (mem_of_getElem? hk))).1
    rw [hk] at hr
    replace hr : r = (s - e - 1 - i + 1, 0) := hr
    rw [hr, if_neg (by simp), show s - (s - e - 1 - i + 1) = e + i by omega,
      incBytind_bytind (by omega) (by omega)]
    rfl
  | none =>
    have hfew := List.getElem?_eq_none_iff.mp hk
    rw [length_reverse] at hfew
    rw [hk] at hr
    replace hr : r = (s - e, n - (places target (between b.chars e s)).length) := hr
    have hleft : -((n - (places target (between b.chars e s)).length : Nat) : ℤ) ≠ 0 := by omega
    rw [hr, if_pos hleft, Nat.sub_sub_self hse, neg_neg]
    rfl

/-- `bi_scan_buffer` returns just what the occurrences say, for each gap, each kind of
character and both directions. -/
theorem biScanBuffer_iff (target : Emchar) {s e en : Nat} {count : ℤ} (hcount : count ≠ 0)
    (hen : b.scanLimit en count = bytind b.chars e) (hreach : b.InReach s e count)
    (r : Nat × ℤ) :
    b.BiScanBuffer target (bytind b.chars s) en count r ↔ r = b.scanned target s e count := by
  suffices hends : b.BiScanBuffer target (bytind b.chars s) en count
      (b.scanned target s e count) by
    exact ⟨fun h => Ends.unique h hends, fun h => h ▸ hends⟩
  have hzv := b.zv_le
  have hbegv := b.one_le_begv
  rw [BiScanBuffer, hen, biScanLoop]
  rw [InReach] at hreach
  split_ifs at hreach ⊢ with hpos hhigh hhigh
  · obtain ⟨n, rfl⟩ := Int.eq_ofNat_of_zero_le (Int.le_of_lt hpos)
    obtain ⟨hs, hse, he⟩ := hreach
    rw [← pass_forward hs hse (by omega) (by omega)]
    exact forward_ends (by omega) (fun s n hs hse => forwardChar_round n hs hse (by omega)) n hs hse
  · obtain ⟨n, rfl⟩ := Int.eq_ofNat_of_zero_le (Int.le_of_lt hpos)
    obtain ⟨hs, hse, he⟩ := hreach
    rw [← pass_forward hs hse (by omega) (by omega)]
    exact forward_ends (by omega) (fun s n hs hse =>
      forwardBytes_round n (UInt8.not_le.mp hhigh) hs hse he) n hs hse
  · obtain ⟨n, rfl⟩ : ∃ n : Nat, count = -n := ⟨count.natAbs, by omega⟩
    obtain ⟨he, hse, hs⟩ := hreach
    rw [← pass_backward (by omega) hse hs (by omega)]
    exact backward_ends (by omega) (fun s n hse hs =>
      backwardChar_round n (by omega) hse hs) n hs hse
  · obtain ⟨n, rfl⟩ : ∃ n : Nat, count = -n := ⟨count.natAbs, by omega⟩
    obtain ⟨he, hse, hs⟩ := hreach
    rw [← pass_backward (by omega) hse hs (by omega)]
    exact backward_ends (by omega) (fun s n hse hs =>
      backwardBytes_round n (UInt8.not_le.mp hhigh) he hse hs) n hs hse

theorem linesBuffer_one_le_gapSize : 1 ≤ 2 := by decide

/-- A newline, a letter and two newlines with the gap before the last. -/
def linesBuffer : SearchBuffer where
  beg := fun a => [0, 0x0A, 0x61, 0x0A, 0, 0, 0x0A, 0].getD a 0
  gpt := 4
  z := 5
  bufz := 5
  gapSize := 2
  endGapSize := 0
  one_le_gpt := by decide
  gpt_le_z := by decide
  one_le_gapSize := linesBuffer_one_le_gapSize
  chars := [newlineChar, letterA, newlineChar, newlineChar]
  begv := 1
  zv := 5
  contents_chars := by decide
  gpt_between := ⟨4, by decide⟩
  one_le_begv := Nat.one_pos
  begv_le_zv := by decide
  zv_le := by decide

/-- The second newline from the end, searched for backwards over the gap. -/
theorem biScanBuffer_linesBuffer : linesBuffer.BiScanBuffer newlineChar 5 0 (-2) (4, 0) :=
  (biScanBuffer_iff newlineChar (s := 5) (e := 1) (by decide) rfl
    ((if_neg (by decide)).mpr (by decide)) _).mpr (by decide)

end SearchBuffer

end XEmacs.TextSearch
