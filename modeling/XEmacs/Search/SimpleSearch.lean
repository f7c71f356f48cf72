import XEmacs.Lib.NaiveSearch
import XEmacs.Search.Buffers

/-!
# Simple searches for a string (search.c)

`search_buffer` translates the pattern of a literal search, and falls back to `simple_search`
where characters of two rows of a charset need translation, or where translation changes the
number of bytes.
-/

namespace XEmacs.TextSearch

open BytePositions Buffer Machines NaiveSearch List

/-! ## The pattern -/

def backslash : Emchar where
  first := 0x5C
  rest := []
  first_firstByteP := by decide
  rest_firstByteP := letterA.rest_firstByteP
  length_rest := by decide

/-- The characters of the pattern; in a regexp, which is trivial then, a backslash quotes the
next one. -/
def literalChars : Bool → List Emchar → List Emchar
  | _, [] => []
  | _, [c] => [c]
  | re, c :: d :: l =>
    if re && c = backslash then d :: literalChars re l else c :: literalChars re (d :: l)

/-- The loop of `search_buffer` over the pattern: what is translated of it, the row of the
characters that need translation, and whether a Boyer-Moore search will do. -/
structure LiteralPattern where
  pat : List Emchar
  charsetBase : Option (List Bufbyte)
  boyerMooreOk : Bool

/-- `c & ~CHAR_FIELD3_MASK`: the row of a character is in all of its bytes but the last. -/
def charsetBaseCode (c : Emchar) : List Bufbyte := c.bytes.dropLast

/-- The body of the loop. -/
def LiteralPattern.add (trt inverseTrt : Emchar → Emchar) (s : LiteralPattern) (c : Emchar) :
    LiteralPattern :=
  let translated := trt c
  let inverse := inverseTrt c
  let ok := s.boyerMooreOk && translated.width = c.width && inverse.width = c.width
  let pat := s.pat ++ [translated]
  if translated ≠ c ∨ inverse ≠ c then
    match s.charsetBase with
    | none => ⟨pat, some (charsetBaseCode c), ok⟩
    | some base => ⟨pat, some base, ok && base = charsetBaseCode c⟩
  else ⟨pat, s.charsetBase, ok⟩

/-- The pattern that `search_buffer` searches for, by `boyer_moore` if that will do and else by
`simple_search`. -/
def literalPattern (re : Bool) (trt inverseTrt : Emchar → Emchar) (string : List Emchar) :
    LiteralPattern :=
  (literalChars re string).foldl (LiteralPattern.add trt inverseTrt) ⟨[], none, true⟩

theorem add_pat (trt inverseTrt : Emchar → Emchar) (s : LiteralPattern) (c : Emchar) :
    (s.add trt inverseTrt c).pat = s.pat ++ [trt c] := by
  rw [LiteralPattern.add]
  split_ifs
  · cases s.charsetBase <;> rfl
  · rfl

theorem pat_ne_nil (re : Bool) (trt inverseTrt : Emchar → Emchar) {string : List Emchar}
    (h : string ≠ []) : (literalPattern re trt inverseTrt string).pat ≠ [] := by
  have hfold : ∀ (l : List Emchar) (s : LiteralPattern), s.pat ≠ [] →
      (l.foldl (LiteralPattern.add trt inverseTrt) s).pat ≠ [] := by
    intro l
    induction l with
    | nil => exact fun s hs => hs
    | cons c l ih => exact fun s hs => ih _ (by rw [add_pat]; simp)
  have hchars : literalChars re string ≠ [] := by
    cases string with
    | nil => exact absurd rfl h
    | cons c l =>
      cases l with
      | nil => exact cons_ne_nil _ _
      | cons d l =>
        rw [literalChars]
        split_ifs <;> exact cons_ne_nil _ _
  obtain ⟨c, l, hl⟩ := exists_cons_of_ne_nil hchars
  rw [literalPattern, hl]
  exact hfold l _ (by rw [add_pat]; simp)

/-! ## The search -/

theorem firstByteP_of_all {r : List Bufbyte} (h : r.all (!bufbyteFirstByteP ·) = true) :
    ∀ a ∈ r, bufbyteFirstByteP a = false :=
  fun a ha => (Bool.not_eq_true' _).mp (List.all_eq_true.mp h a ha)

/-- The character that some bytes are. -/
def emcharOf : List Bufbyte → Option Emchar
  | [] => none
  | f :: r =>
    if h : bufbyteFirstByteP f = true ∧ r.all (!bufbyteFirstByteP ·) = true ∧
        r.length + 1 = repBytesByFirstByte f then
      some ⟨f, r, h.1, firstByteP_of_all h.2.1, h.2.2⟩
    else none

theorem emcharOf_bytes (c : Emchar) : emcharOf c.bytes = some c := by
  have hrest : c.rest.all (!bufbyteFirstByteP ·) = true :=
    List.all_eq_true.mpr fun a ha => (Bool.not_eq_true' _).mpr (c.rest_firstByteP a ha)
  rw [Emchar.bytes, emcharOf, dif_pos ⟨c.first_firstByteP, hrest, c.length_rest⟩]

/-- What `simple_search` comes to: the bounds given to `set_search_regs`, the value returned,
and the positions of the characters fetched. -/
structure SearchEnd where
  found : Option (Nat × Nat)
  value : ℤ
  examined : List Nat

namespace SearchBuffer

/-- The character fetched at a position, translated. -/
def translatedChar (b : SearchBuffer) (trt : Emchar → Emchar) (pos : Nat) : Option Emchar :=
  (emcharOf (b.fetchChar pos)).map trt

/-- How the forward loops move. -/
def forwardCursor (b : SearchBuffer) (trt : Emchar → Emchar) (lim : Nat) : Cursor Nat Emchar where
  more idx := idx < lim
  visit idx := (idx, b.incBytind idx)
  read := b.translatedChar trt

/-- How the backward loops move. -/
def backwardCursor (b : SearchBuffer) (trt : Emchar → Emchar) (lim : Nat) :
    Cursor Nat Emchar where
  more idx := lim < idx
  visit idx := (b.decBytind idx, b.decBytind idx)
  read := b.translatedChar trt

/-- The end of a forward search; the last match began `buf_len` bytes before `idx`. -/
def forwardEnd (s : State Nat) : SearchEnd :=
  if s.left = 0 then ⟨some (s.start, s.idx), s.idx, s.seen⟩ else ⟨none, -s.left, s.seen⟩

/-- The end of a backward search. -/
def backwardEnd (s : State Nat) : SearchEnd :=
  if s.left = 0 then ⟨some (s.idx, s.start), s.idx, s.seen⟩ else ⟨none, -s.left, s.seen⟩

/-- `simple_search`. A loop for the other direction is not entered. -/
def SimpleSearch (b : SearchBuffer) (pat : List Emchar) (trt : Emchar → Emchar)
    (idx lim : Nat) (n : ℤ) (r : SearchEnd) : Prop :=
  if idx < lim then
    if 0 < n then
      ∃ s, Ends ((b.forwardCursor trt lim).search pat) ⟨idx, n.natAbs, idx, []⟩ s ∧
        r = forwardEnd s
    else r = ⟨none, n, []⟩
  else if n < 0 then
    -- the pattern is gone through from its end
    ∃ s, Ends ((b.backwardCursor trt lim).search pat.reverse) ⟨idx, n.natAbs, idx, []⟩ s ∧
      r = backwardEnd s
  else r = ⟨none, -n, []⟩

/-! ## What it is for -/

/-- The search keeps in a region: no character outside is fetched, a match is inside, and the
position returned is accessible, as `search_command` asks. -/
def KeepsIn (b : SearchBuffer) (lo hi : Nat) (r : SearchEnd) : Prop :=
  (∀ p ∈ r.examined, lo ≤ p ∧ p < hi) ∧
    ∀ beg stop, r.found = some (beg, stop) →
      lo ≤ beg ∧ stop ≤ hi ∧ (b.biBegv ≤ r.value ∧ r.value ≤ b.biZv)

/-- The search keeps between where it starts and its limit. -/
def KeepsLimit (b : SearchBuffer) (start lim : Nat) (r : SearchEnd) : Prop :=
  b.KeepsIn (min start lim) (max start lim) r

/-- The characters from `start` up to the limit, translated and in the direction of the
search. -/
def ahead (b : SearchBuffer) (trt : Emchar → Emchar) (start lim : Nat) : List Emchar :=
  if start < lim then (between b.chars start lim).map trt
  else ((between b.chars lim start).map trt).reverse

/-- At none of the places that are tried the pattern begins with all that is left before the
limit and goes on. -/
def Unstraddled (b : SearchBuffer) (pat : List Emchar) (trt : Emchar → Emchar)
    (start lim : Nat) (n : ℤ) : Prop :=
  Clear (if start < lim then pat else pat.reverse) n.natAbs 0 (b.ahead trt start lim)

variable {b : SearchBuffer} {trt : Emchar → Emchar}

theorem decBytind_lt {x : Nat} (hx : 1 ≤ x) : b.decBytind x < x := by
  have hle : ∀ (l : List Bufbyte) (y : Nat), validateBackward l y ≤ y := by
    intro l
    induction l with
    | nil => exact fun y => Nat.le_refl y
    | cons a l ih =>
      intro y
      rw [validateBackward]
      split_ifs
      · exact Nat.le_refl y
      · exact Nat.le_trans (ih _) (Nat.sub_le _ _)
  have := hle (b.runBack (x - 1)) (x - 1)
  rw [decBytind]
  omega

theorem translatedChar_bytind {x : Nat} (hx : 1 ≤ x) (hx' : x - 1 < b.chars.length) :
    b.translatedChar trt (bytind b.chars x) = some (trt b.chars[x - 1]) := by
  rw [translatedChar, fetchChar_bytind hx hx', emcharOf_bytes]
  rfl

theorem forward_walk {start x lim : Nat} (hx : 1 ≤ x) (hstart : start ≤ x) (hlim : x ≤ lim)
    (hend : lim ≤ b.chars.length + 1) :
    Walk (b.forwardCursor trt (bytind b.chars lim))
      (fun p => bytind b.chars start ≤ p ∧ p < bytind b.chars lim)
      (fun i => bytind b.chars start ≤ i ∧ i ≤ bytind b.chars lim)
      ((between b.chars x lim).map trt) (bytind b.chars x) := by
  have hle : bytind b.chars start ≤ bytind b.chars x := bytePos_mono _ hstart
  induction hd : lim - x generalizing x with
  | zero =>
    obtain rfl : x = lim := by omega
    rw [between_self]
    exact .done ⟨hle, Nat.le_refl _⟩ (decide_eq_false (Nat.lt_irrefl _))
      fun h => absurd h.2 (Nat.lt_irrefl _)
  | succ d ih =>
    have hlt : x - 1 < b.chars.length := by omega
    have hpos : bytind b.chars x < bytind b.chars lim :=
      bytePos_lt Emchar.width_pos hx (by omega) hend
    have hnext : b.incBytind (bytind b.chars x) = bytind b.chars (x + 1) :=
      incBytind_bytind hx (by omega)
    rw [between_append b.chars hx (Nat.le_succ x) (by omega),
      between_succ (getElem?_eq_getElem hlt)]
    refine .next ⟨hle, Nat.le_of_lt hpos⟩ (decide_eq_true hpos) ⟨hle, hpos⟩
      (translatedChar_bytind hx hlt) ?_
    show Walk _ _ _ _ (b.incBytind (bytind b.chars x))
    rw [hnext]
    exact ih (by omega) (by omega) (by omega)
      (Nat.le_trans hle (bytePos_mono _ (Nat.le_succ x))) (by omega)

theorem backward_walk {start x lim : Nat} (hlim : 1 ≤ lim) (hx : lim ≤ x) (hstart : x ≤ start)
    (hend : start ≤ b.chars.length + 1) :
    Walk (b.backwardCursor trt (bytind b.chars lim))
      (fun p => bytind b.chars lim ≤ p ∧ p < bytind b.chars start)
      (fun i => bytind b.chars lim ≤ i ∧ i ≤ bytind b.chars start)
      ((between b.chars lim x).map trt).reverse (bytind b.chars x) := by
  have hle : bytind b.chars x ≤ bytind b.chars start := bytePos_mono _ hstart
  induction hd : x - lim generalizing x with
  | zero =>
    obtain rfl : x = lim := by omega
    rw [between_self]
    refine .done ⟨Nat.le_refl _, hle⟩ (decide_eq_false (Nat.lt_irrefl _)) fun h => ?_
    exact absurd h.1 (Nat.not_le.mpr (decBytind_lt (one_le_bytePos _ _)))
  | succ d ih =>
    obtain ⟨x, rfl⟩ : ∃ y, x = y + 1 := ⟨x - 1, by omega⟩
    have hlt : x - 1 < b.chars.length := by omega
    have hpos : bytind b.chars x < bytind b.chars (x + 1) :=
      bytePos_lt Emchar.width_pos (by omega) (Nat.lt_succ_self x) (by omega)
    have hlow : bytind b.chars lim ≤ bytind b.chars x := bytePos_mono _ (by omega)
    have hprev : b.decBytind (bytind b.chars (x + 1)) = bytind b.chars x :=
      decBytind_bytind (by omega) (by omega)
    rw [between_append b.chars hlim (by omega : lim ≤ x) (Nat.le_succ x),
      between_succ (getElem?_eq_getElem hlt), map_append, reverse_append]
    refine .next ⟨by omega, hle⟩ (decide_eq_true (by omega)) ?_ ?_ ?_
    · show _ ≤ b.decBytind _ ∧ b.decBytind _ < _
      rw [hprev]
      exact ⟨hlow, by omega⟩
    · show b.translatedChar trt (b.decBytind _) = _
      rw [hprev]
      exact translatedChar_bytind (by omega) hlt
    · show Walk _ _ _ _ (b.decBytind _)
      rw [hprev]
      exact ih (by omega) (by omega) (by omega) (by omega)

theorem clear_nil (pat : List Emchar) (n : Nat) : Clear pat n 0 [] := by
  cases n <;> exact trivial

theorem forwardEnd_examined (s : State Nat) : (forwardEnd s).examined = s.seen := by
  rw [forwardEnd]
  split_ifs <;> rfl

theorem backwardEnd_examined (s : State Nat) : (backwardEnd s).examined = s.seen := by
  rw [backwardEnd]
  split_ifs <;> rfl

section Region

variable {lo hi : Nat} {s : State Nat}

theorem forwardEnd_keepsIn (hlo : b.biBegv ≤ lo) (hhi : hi ≤ b.biZv)
    (hseen : ∀ p ∈ s.seen, lo ≤ p ∧ p < hi) (hstart : lo ≤ s.start ∧ s.start ≤ hi)
    (hidx : lo ≤ s.idx ∧ s.idx ≤ hi) : b.KeepsIn lo hi (forwardEnd s) := by
  refine ⟨by rwa [forwardEnd_examined], fun beg stop hfound => ?_⟩
  rw [forwardEnd] at hfound ⊢
  split_ifs at hfound ⊢ with hleft
  cases hfound
  exact ⟨hstart.1, hidx.2, Int.ofNat_le.mpr (Nat.le_trans hlo hidx.1),
    Int.ofNat_le.mpr (Nat.le_trans hidx.2 hhi)⟩

theorem backwardEnd_keepsIn (hlo : b.biBegv ≤ lo) (hhi : hi ≤ b.biZv)
    (hseen : ∀ p ∈ s.seen, lo ≤ p ∧ p < hi) (hstart : lo ≤ s.start ∧ s.start ≤ hi)
    (hidx : lo ≤ s.idx ∧ s.idx ≤ hi) : b.KeepsIn lo hi (backwardEnd s) := by
  refine ⟨by rwa [backwardEnd_examined], fun beg stop hfound => ?_⟩
  rw [backwardEnd] at hfound ⊢
  split_ifs at hfound ⊢ with hleft
  cases hfound
  exact ⟨hidx.1, hstart.2, Int.ofNat_le.mpr (Nat.le_trans hlo hidx.1),
    Int.ofNat_le.mpr (Nat.le_trans hidx.2 hhi)⟩

theorem search_keepsIn_iff {c : Cursor Nat Emchar} {pat l : List Emchar} {idx n : Nat}
    {last : State Nat → SearchEnd} (hpat : pat ≠ [])
    (hwalk : Walk c (fun p => lo ≤ p ∧ p < hi) (fun i => lo ≤ i ∧ i ≤ hi) l idx)
    (hlast : ∀ s, (last s).examined = s.seen)
    (hkeeps : ∀ s : State Nat, (∀ p ∈ s.seen, lo ≤ p ∧ p < hi) → lo ≤ s.start ∧ s.start ≤ hi →
      lo ≤ s.idx ∧ s.idx ≤ hi → b.KeepsIn lo hi (last s)) :
    (∃ r, (∃ s, Ends (c.search pat) ⟨idx, n, idx, []⟩ s ∧ r = last s) ∧ b.KeepsIn lo hi r) ↔
      Clear pat n 0 l := by
  constructor
  · rintro ⟨_, ⟨s, hends, rfl⟩, hseen, -⟩
    refine clear_of_seen hpat (s := ⟨idx, n, idx, []⟩) hwalk hends ?_
    rwa [hlast] at hseen
  · intro hclear
    obtain ⟨s, hends, hseen, hstart, hidx⟩ := search_clear hpat (s := ⟨idx, n, idx, []⟩) hwalk
      hclear hwalk.within_self fun _ hp => absurd hp not_mem_nil
    exact ⟨_, ⟨s, hends, rfl⟩, hkeeps s hseen hstart hidx⟩

end Region

theorem simpleSearch_empty (b : SearchBuffer) (pat : List Emchar) {start : Nat} {n : ℤ}
    (hn : n ≠ 0) :
    ∃ r, b.SimpleSearch pat trt start start n r ∧ b.KeepsLimit start start r := by
  by_cases hn' : n < 0
  · have hstop : Ends ((b.backwardCursor trt start).search pat.reverse)
        ⟨start, n.natAbs, start, []⟩ _ :=
      Ends.whileDo_done (by simp [backwardCursor])
    refine ⟨backwardEnd ⟨start, n.natAbs, start, []⟩, ?_, ?_⟩
    · rw [SimpleSearch, if_neg (Nat.lt_irrefl _), if_pos hn']
      exact ⟨_, hstop, rfl⟩
    · rw [backwardEnd, if_neg (by simpa using hn)]
      exact ⟨fun _ hp => absurd hp not_mem_nil, fun _ _ h => by cases h⟩
  · refine ⟨⟨none, -n, []⟩, ?_, fun _ hp => absurd hp not_mem_nil, fun _ _ h => by cases h⟩
    rw [SimpleSearch, if_neg (Nat.lt_irrefl _), if_neg hn']

/-- A literal search keeps within its limit exactly if no place is straddled. -/
theorem simpleSearch_keepsLimit_iff (re : Bool) (inverseTrt : Emchar → Emchar)
    {string : List Emchar} {start lim : Nat} {n : ℤ} (hstring : string ≠ []) (hn : n ≠ 0)
    (hstart : b.begv ≤ start ∧ start ≤ b.zv) (hlim : b.begv ≤ lim ∧ lim ≤ b.zv)
    (hside : if 0 < n then start ≤ lim else lim ≤ start) :
    (∃ r, b.SimpleSearch (literalPattern re trt inverseTrt string).pat trt
        (bytind b.chars start) (bytind b.chars lim) n r ∧
      b.KeepsLimit (bytind b.chars start) (bytind b.chars lim) r) ↔
    b.Unstraddled (literalPattern re trt inverseTrt string).pat trt start lim n := by
  have hpat := pat_ne_nil re trt inverseTrt hstring
  revert hpat
  generalize (literalPattern re trt inverseTrt string).pat = pat
  intro hpat
  have hzv := b.zv_le
  have hbegv := b.one_le_begv
  have hlow : ∀ {x}, b.begv ≤ x → b.biBegv ≤ bytind b.chars x := fun h => bytePos_mono _ h
  have hhigh : ∀ {x}, x ≤ b.zv → bytind b.chars x ≤ b.biZv := fun h => bytePos_mono _ h
  rw [Unstraddled, ahead]
  rcases Nat.lt_trichotomy start lim with hlt | rfl | hlt
  · -- forward
    have hpos : bytind b.chars start < bytind b.chars lim :=
      bytePos_lt Emchar.width_pos (by omega) hlt (by omega)
    have hn' : 0 < n := by
      by_contra h
      rw [if_neg h] at hside
      omega
    simp only [SimpleSearch, if_pos hpos, if_pos hn', if_pos hlt, KeepsLimit,
      Nat.min_eq_left (Nat.le_of_lt hpos), Nat.max_eq_right (Nat.le_of_lt hpos)]
    exact search_keepsIn_iff hpat
      (forward_walk (by omega) (Nat.le_refl start) (Nat.le_of_lt hlt) (by omega))
      forwardEnd_examined fun s => forwardEnd_keepsIn (hlow hstart.1) (hhigh hlim.2)
  · -- there is nothing to search
    refine iff_of_true (simpleSearch_empty b pat hn) ?_
    rw [between_self, if_neg (Nat.lt_irrefl _), if_neg (Nat.lt_irrefl _)]
    exact clear_nil _ _
  · -- backward
    have hpos : bytind b.chars lim < bytind b.chars start :=
      bytePos_lt Emchar.width_pos (by omega) hlt (by omega)
    have hn' : n < 0 := by
      by_contra h
      rw [if_pos (by omega)] at hside
      omega
    simp only [SimpleSearch, if_neg (Nat.lt_asymm hpos), if_pos hn', if_neg (Nat.lt_asymm hlt),
      KeepsLimit, Nat.min_eq_right (Nat.le_of_lt hpos), Nat.max_eq_left (Nat.le_of_lt hpos)]
    exact search_keepsIn_iff (mt List.reverse_eq_nil_iff.mp hpat)
      (backward_walk (by omega) (Nat.le_of_lt hlt) (Nat.le_refl start) (by omega))
      backwardEnd_examined fun s => backwardEnd_keepsIn (hlow hlim.1) (hhigh hstart.2)

/-! ## A match behind the accessible portion -/

/-- A letter of a charset of one byte besides the leading one. -/
def letter (leading position : Bufbyte) (h : 0x80 ≤ leading ∧ leading < 0x90 := by decide)
    (h' : 0xA0 ≤ position := by decide) : Emchar where
  first := leading
  rest := [position]
  first_firstByteP := decide_eq_true (UInt8.lt_trans h.2 (by decide))
  rest_firstByteP := List.forall_mem_singleton.mpr (decide_eq_false (UInt8.not_lt.mpr h'))
  length_rest := by
    rw [repBytesByFirstByte, if_neg (UInt8.not_lt.mpr h.1), if_pos h.2]
    rfl

/-- The letter e with an acute accent, of Latin-1, and the capital one. -/
def eAcute : Emchar := letter 0x81 0xE9

def capitalEAcute : Emchar := letter 0x81 0xC9

/-- The Greek letter alpha, and the capital one. -/
def alpha : Emchar := letter 0x86 0xE1

def capitalAlpha : Emchar := letter 0x86 0xC1

/-- The canonicalize map of the standard case table, for these letters. -/
def canon (c : Emchar) : Emchar :=
  if c = capitalEAcute then eAcute else if c = capitalAlpha then alpha else c

/-- The equivalence map, for these letters. -/
def eqv (c : Emchar) : Emchar :=
  if c = eAcute then capitalEAcute
  else if c = capitalEAcute then eAcute
  else if c = alpha then capitalAlpha
  else if c = capitalAlpha then alpha
  else c

theorem narrowedBuffer_one_le_gpt : 1 ≤ 5 := by decide

theorem narrowedBuffer_begv_le_zv : 1 ≤ 2 := by decide

/-- A buffer with the two capital letters that is narrowed to the first of them. -/
def narrowedBuffer : SearchBuffer where
  beg := fun a => [0, 0x81, 0xC9, 0x86, 0xC1, 0, 0].getD a 0
  gpt := 5
  z := 5
  bufz := 3
  gapSize := 1
  endGapSize := 0
  one_le_gpt := narrowedBuffer_one_le_gpt
  gpt_le_z := by decide
  one_le_gapSize := Nat.one_pos
  chars := [capitalEAcute, capitalAlpha]
  begv := 1
  zv := 2
  contents_chars := by decide
  gpt_between := ⟨3, by decide⟩
  one_le_begv := Nat.one_pos
  begv_le_zv := narrowedBuffer_begv_le_zv
  zv_le := by decide

/-- The search for the two small letters falls back to `simple_search`, which finds a match that
ends behind the accessible portion. -/
theorem simpleSearch_narrowedBuffer :
    (literalPattern false canon eqv [eAcute, alpha]).boyerMooreOk = false ∧
      ∃ r, narrowedBuffer.SimpleSearch (literalPattern false canon eqv [eAcute, alpha]).pat canon
          1 narrowedBuffer.biZv 1 r ∧
        r.found = some (1, 5) ∧ r.value = 5 ∧ narrowedBuffer.biZv = 3 ∧
        ¬narrowedBuffer.KeepsLimit 1 narrowedBuffer.biZv r := by
  have hends : Ends ((narrowedBuffer.forwardCursor canon narrowedBuffer.biZv).search
      (literalPattern false canon eqv [eAcute, alpha]).pat) ⟨1, 1, 1, []⟩
      ⟨5, 0, 1, [1, 3]⟩ := Ends.of_runFor (n := 2) rfl
  refine ⟨rfl, forwardEnd ⟨5, 0, 1, [1, 3]⟩, ?_, rfl, rfl, rfl, fun h => ?_⟩
  · rw [SimpleSearch, if_pos (by decide), if_pos (by decide)]
    exact ⟨_, hends, rfl⟩
  · have := (h.2 1 5 rfl).2.1
    exact absurd this (by decide)

/-- The search for the second letter alone keeps within the limit. -/
theorem simpleSearch_keepsLimit_letter :
    ∃ r, narrowedBuffer.SimpleSearch (literalPattern false canon eqv [alpha]).pat canon
        (bytind narrowedBuffer.chars 1) (bytind narrowedBuffer.chars 2) 1 r ∧
      narrowedBuffer.KeepsLimit (bytind narrowedBuffer.chars 1)
        (bytind narrowedBuffer.chars 2) r := by
  refine (simpleSearch_keepsLimit_iff false eqv (by decide) (by decide) (by decide)
    (by decide) (by decide)).mpr ?_
  rw [Unstraddled, show narrowedBuffer.ahead canon 1 2 = [eAcute] from rfl,
    show (literalPattern false canon eqv [alpha]).pat = [alpha] from rfl]
  exact (if_neg (by decide)).mpr ⟨by decide, trivial⟩

end SearchBuffer

end XEmacs.TextSearch
