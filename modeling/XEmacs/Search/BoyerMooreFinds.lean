import XEmacs.Search.BoyerMooreLoops
import XEmacs.Search.ScanBuffer

/-!
# What a Boyer-Moore search finds (search.c)

`naiveSearch` takes the nearest occurrence of the pattern between the start and the limit, again
and again, by the characters of the buffer. `boyer_moore` comes to just the same, wherever the
gap is (`boyerMoore_iff`).
-/

namespace XEmacs.TextSearch

open BoyerMoore BytePositions ByteMemory Buffer Machines List Option

/-! ## The bytes of a pattern -/

theorem bytes_append_inj {c d : Emchar} {l l' : List Bufbyte}
    (h : c.bytes ++ l = d.bytes ++ l') : c = d ∧ l = l' := by
  have hfirst : c.first = d.first := (List.cons.inj h).1
  have hlength : c.bytes.length = d.bytes.length := by
    rw [Emchar.bytes, Emchar.bytes, length_cons, length_cons, c.length_rest,
      d.length_rest, hfirst]
  obtain ⟨hbytes, hl⟩ := append_inj h hlength
  exact ⟨Emchar.bytes_inj.mp hbytes, hl⟩

theorem exists_append_of_textBytes {pat l : List Emchar} {rest : List Bufbyte}
    (h : textBytes l = textBytes pat ++ rest) : ∃ post, l = pat ++ post := by
  induction pat generalizing l with
  | nil => exact ⟨l, rfl⟩
  | cons c pat ih =>
    cases l with
    | nil => cases h
    | cons d l =>
      have h' : d.bytes ++ textBytes l = c.bytes ++ (textBytes pat ++ rest) := by
        rw [← append_assoc]
        exact h
      obtain ⟨rfl, htail⟩ := bytes_append_inj h'
      obtain ⟨post, rfl⟩ := ih htail
      exact ⟨post, rfl⟩

theorem exists_split_of_textBytes {pat l : List Emchar} (hpat : pat ≠ []) {front rest : List Bufbyte}
    (h : textBytes l = front ++ (textBytes pat ++ rest)) :
    ∃ pre post, l = pre ++ (pat ++ post) ∧ front = textBytes pre := by
  obtain ⟨p, pat', rfl⟩ := exists_cons_of_ne_nil hpat
  induction l generalizing front with
  | nil =>
    have := congrArg List.length h
    simp [textBytes, Emchar.bytes] at this
  | cons c l ih =>
    rcases Nat.lt_or_ge front.length c.bytes.length with hlt | hge
    · -- a byte of the character that is a first byte is the first one
      cases front with
      | nil =>
        obtain ⟨post, hpost⟩ := exists_append_of_textBytes h
        exact ⟨[], post, hpost, rfl⟩
      | cons a front =>
        exfalso
        have htail : c.rest ++ textBytes l
            = front ++ (p.first :: (p.rest ++ textBytes pat' ++ rest)) := (List.cons.inj h).2
        have hlt' : front.length < c.rest.length := Nat.lt_of_succ_lt_succ hlt
        have hget := congrArg (·[front.length]?) htail
        simp only [getElem?_append_left hlt', getElem?_append_right (Nat.le_refl _),
          Nat.sub_self, getElem?_cons_zero] at hget
        have hmem := c.rest_firstByteP _ (mem_of_getElem? hget)
        rw [p.first_firstByteP] at hmem
        cases hmem
    · obtain ⟨front', rfl⟩ : ∃ front', front = c.bytes ++ front' := by
        have htake := congrArg (List.take c.bytes.length) h
        rw [show textBytes (c :: l) = c.bytes ++ textBytes l from rfl, take_left,
          take_append_of_le_length hge] at htake
        exact ⟨front.drop c.bytes.length, by
          conv_lhs => rw [← take_append_drop c.bytes.length front, ← htake]⟩
      rw [show textBytes (c :: l) = c.bytes ++ textBytes l from rfl, append_assoc] at h
      obtain ⟨pre, post, rfl, rfl⟩ := ih (append_cancel_left h)
      exact ⟨c :: pre, post, rfl, rfl⟩

theorem between_of_append {α : Type*} {l pre mid post : List α} {a e : Nat} (ha : 1 ≤ a)
    (hae : a ≤ e) (h : between l a e = pre ++ (mid ++ post)) :
    between l a (a + pre.length) = pre ∧
      between l (a + pre.length) (a + pre.length + mid.length) = mid ∧
        a + pre.length + mid.length ≤ e := by
  have hlength := congrArg List.length h
  simp only [between, length_take, length_append] at hlength
  have hpre : pre.length ≤ e - a := by omega
  have htake := congrArg (List.take pre.length) h
  rw [between, take_take, Nat.min_eq_left hpre, take_left] at htake
  have hmid := congrArg (fun l => (l.drop pre.length).take mid.length) h
  simp only [between, drop_take, drop_drop, take_take, drop_left,
    take_left] at hmid
  refine ⟨?_, ?_, ?_⟩
  · rw [between, Nat.add_sub_cancel_left]
    exact htake
  · rw [Nat.min_eq_left (by omega)] at hmid
    rw [between, Nat.add_sub_cancel_left,
      show a + pre.length - 1 = a - 1 + pre.length by omega]
    exact hmid
  · omega

namespace SearchBuffer

/-- The pattern is at a character. -/
def occursAt (b : SearchBuffer) (pat : List Emchar) (x : Nat) : Bool :=
  between b.chars x (x + pat.length) = pat

/-- The places for an occurrence between the start and the limit, the nearest first. -/
def placesAhead (forward : Bool) (pat : List Emchar) (start lim : Nat) : List Nat :=
  if forward then List.range' start (lim + 1 - pat.length - start)
  else (List.range' lim (start + 1 - pat.length - lim)).reverse

/-- The occurrences taken in the search for `n` of them: each is the nearest, and the search
goes on from its end, or backward from its start. -/
def takeNearest (b : SearchBuffer) (forward : Bool) (pat : List Emchar) (lim : Nat) :
    Nat → Nat → List Nat
  | 0, _ => []
  | n + 1, start =>
    match (placesAhead forward pat start lim).find? (b.occursAt pat) with
    | some x => x :: takeNearest b forward pat lim n (if forward then x + pat.length else x)
    | none => []

/-- What the naive search comes to: the end of the last occurrence, or its start backward, or
how many are missing; and the bounds of the last one taken. -/
def naiveSearch (b : SearchBuffer) (pat : List Emchar) (start lim : Nat) (n : ℤ) : Found :=
  let taken := b.takeNearest (0 < n) pat lim n.natAbs start
  { value :=
      if taken.length = n.natAbs then
        match taken.getLast? with
        | some x => if 0 < n then (x + pat.length : Nat) else x
        | none => start
      else -(n.natAbs - taken.length : Nat)
    regs := taken.getLast?.map fun x => (x, x + pat.length) }

variable {b : SearchBuffer} {pat : List Emchar}

theorem bytind_add_length {x : Nat} (hx : 1 ≤ x) (h : b.occursAt pat x = true) :
    bytind b.chars (x + pat.length) = bytind b.chars x + (textBytes pat).length := by
  have hadd : bytind b.chars (x + pat.length) = bytind b.chars x
      + byteLength Emchar.width (between b.chars x (x + pat.length)) :=
    bytePos_eq_add_between _ hx (Nat.le_add_right x _)
  rw [hadd, of_decide_eq_true h, length_textBytes]

theorem segment_eq_iff_occursAt (hpat : pat ≠ []) (lo hi p : Nat) (hlo : 1 ≤ lo) (hle : lo ≤ hi)
    (hhi : hi ≤ b.chars.length + 1) (hp : bytind b.chars lo ≤ p)
    (hp' : p + (textBytes pat).length ≤ bytind b.chars hi) :
    segment b.byteAt p (textBytes pat).length = textBytes pat ↔
      ∃ x, lo ≤ x ∧ x + pat.length ≤ hi ∧ p = bytind b.chars x ∧ b.occursAt pat x = true := by
  have hbytes := segment_byteAt (b := b) hlo hle hhi
  constructor
  · intro h
    obtain ⟨k, hk⟩ : ∃ k, bytind b.chars hi - bytind b.chars lo
        = (p - bytind b.chars lo) + ((textBytes pat).length + k) :=
      ⟨bytind b.chars hi - (p + (textBytes pat).length), by omega⟩
    rw [hk, segment_add, segment_add, Nat.add_sub_cancel' hp, h] at hbytes
    obtain ⟨pre, post, hsplit, hpre⟩ := exists_split_of_textBytes hpat hbytes.symm
    obtain ⟨hbefore, hhere, hend⟩ := between_of_append hlo hle hsplit
    have hx : p = bytind b.chars (lo + pre.length) := by
      have hadd : bytind b.chars (lo + pre.length) = bytind b.chars lo
          + byteLength Emchar.width (between b.chars lo (lo + pre.length)) :=
        bytePos_eq_add_between _ hlo (Nat.le_add_right lo _)
      have hlength := congrArg List.length hpre
      rw [length_segment] at hlength
      rw [hadd, hbefore, ← length_textBytes, ← hlength]
      omega
    exact ⟨lo + pre.length, Nat.le_add_right _ _, hend, hx, decide_eq_true hhere⟩
  · rintro ⟨x, hlox, hxhi, rfl, hoccurs⟩
    have hx : 1 ≤ x := by omega
    have hseg := segment_byteAt (b := b) hx (Nat.le_add_right x pat.length) (by omega)
    rwa [bytind_add_length hx hoccurs, Nat.add_sub_cancel_left, of_decide_eq_true hoccurs] at hseg

theorem bytindToBufpos_bytind {x : Nat} (hx : 1 ≤ x) (hx' : x ≤ b.chars.length + 1) :
    b.bytindToBufpos (bytind b.chars x) = x := by
  rw [bytindToBufpos]
  cases hfind : (List.range' 1 (b.chars.length + 1)).find?
      (bytind b.chars · = bytind b.chars x) with
  | none =>
    have := List.find?_eq_none.mp hfind x (mem_range'_1.mpr ⟨hx, by omega⟩)
    simp at this
  | some y =>
    have hy := mem_range'_1.mp (mem_of_find?_eq_some hfind)
    have heq : bytind b.chars y = bytind b.chars x := by
      simpa using find?_some hfind
    rw [getD_some]
    exact bytePos_inj Emchar.width_pos hy.1 hx (by omega) hx' heq

/-! ## The matches -/

theorem segment_eq_list_iff {m : Nat → Bufbyte} {p : Nat} {l : List Bufbyte} :
    segment m p l.length = l ↔ ∀ k (hk : k < l.length), m (p + k) = l[k] := by
  constructor
  · intro h k hk
    have hget := getElem?_segment m p hk
    rw [h, getElem?_eq_getElem hk] at hget
    exact (Option.some.inj hget).symm
  · intro h
    refine ext_getElem (length_segment _ _ _) fun k hk hk' => ?_
    have hget := getElem?_segment m p hk'
    rw [getElem?_eq_getElem hk] at hget
    rw [Option.some.inj hget, h k hk']

section Matches

variable {s e : Nat}

theorem isHit_forward_iff (hpat : pat ≠ []) (hs : 1 ≤ s) (he : e ≤ b.chars.length + 1) (c : Nat) :
    IsHit (textBytes pat) (fun c => b.byteAt (bytind b.chars s + c))
        (bytind b.chars e - bytind b.chars s) c ↔
      ∃ x, s ≤ x ∧ x + pat.length ≤ e ∧ b.occursAt pat x = true ∧
        bytind b.chars s + c + 1 = bytind b.chars x + (textBytes pat).length := by
  have hiff := fun hle hp hp' => segment_eq_iff_occursAt (b := b) hpat s e
    (bytind b.chars s + c + 1 - (textBytes pat).length) hs hle he hp hp'
  constructor
  · rintro ⟨hcount, hlen, hends⟩
    have hle : s ≤ e := by
      refine Nat.le_of_not_lt fun hlt => ?_
      have : bytind b.chars e ≤ bytind b.chars s := bytePos_mono _ (Nat.le_of_lt hlt)
      omega
    obtain ⟨x, hx, hx', hp, hoccurs⟩ := (hiff hle (by omega) (by omega)).mp
      (segment_eq_list_iff.mpr fun k hk => by
        rw [← hends k hk]
        congr 1
        omega)
    exact ⟨x, hx, hx', hoccurs, by omega⟩
  · rintro ⟨x, hx, hx', hoccurs, hc⟩
    have hle : s ≤ e := by omega
    have hend := bytind_add_length (show 1 ≤ x by omega) hoccurs
    have hsx : bytind b.chars s ≤ bytind b.chars x := bytePos_mono _ hx
    have hxe : bytind b.chars (x + pat.length) ≤ bytind b.chars e := bytePos_mono _ hx'
    have hseg := (hiff hle (by omega) (by omega)).mpr ⟨x, hx, hx', by omega, hoccurs⟩
    have hbytes := segment_eq_list_iff.mp hseg
    refine ⟨by omega, by omega, fun k hk => ?_⟩
    rw [← hbytes k hk]
    show b.byteAt _ = b.byteAt _
    congr 1
    omega

theorem isHit_backward_iff (hpat : pat ≠ []) (he : 1 ≤ e) (hs : s ≤ b.chars.length + 1) (c : Nat) :
    IsHit (textBytes pat).reverse (fun c => b.byteAt (bytind b.chars s - 1 - c : ℤ).toNat)
        (bytind b.chars s - bytind b.chars e) c ↔
      ∃ x, e ≤ x ∧ x + pat.length ≤ s ∧ b.occursAt pat x = true ∧
        bytind b.chars x + c + 1 = bytind b.chars s := by
  have hiff := fun hle hp hp' => segment_eq_iff_occursAt (b := b) hpat e s
    (bytind b.chars s - 1 - c) he hle hs hp hp'
  have hone : 1 ≤ bytind b.chars e := one_le_bytePos _ _
  -- the bytes of the pattern, counted from its other end
  have hends : (textBytes pat).length ≤ c + 1 → c + 1 ≤ bytind b.chars s →
      (EndsAt (fun c => b.byteAt (bytind b.chars s - 1 - c : ℤ).toNat) (textBytes pat).reverse c ↔
        segment b.byteAt (bytind b.chars s - 1 - c) (textBytes pat).length = textBytes pat) := by
    intro hlen hc
    rw [segment_eq_list_iff]
    refine endsAt_reverse_iff hlen fun k hk => ?_
    congr 1
    omega
  constructor
  · rintro ⟨hcount, hend⟩
    have hlen := hend.1
    rw [length_reverse] at hlen
    have hle : e ≤ s := by
      refine Nat.le_of_not_lt fun hlt => ?_
      have : bytind b.chars s ≤ bytind b.chars e := bytePos_mono _ (Nat.le_of_lt hlt)
      omega
    obtain ⟨x, hx, hx', hp, hoccurs⟩ := (hiff hle (by omega) (by omega)).mp
      ((hends hlen (by omega)).mp hend)
    exact ⟨x, hx, hx', hoccurs, by omega⟩
  · rintro ⟨x, hx, hx', hoccurs, hc⟩
    have hle : e ≤ s := by omega
    have hend := bytind_add_length (show 1 ≤ x by omega) hoccurs
    have hex : bytind b.chars e ≤ bytind b.chars x := bytePos_mono _ hx
    have hxs : bytind b.chars (x + pat.length) ≤ bytind b.chars s := bytePos_mono _ hx'
    have hlen : (textBytes pat).length ≤ c + 1 := by omega
    refine ⟨by omega, (hends hlen (by omega)).mpr ?_⟩
    exact (hiff hle (by omega) (by omega)).mpr ⟨x, hx, hx', by omega, hoccurs⟩

end Matches

/-! ## What is taken -/

theorem find?_first {α : Type*} {r : α → α → Prop} {l : List α} (hl : l.Pairwise r) {p : α → Bool}
    {x : α} (h : l.find? p = some x) : ∀ y ∈ l, p y = true → y = x ∨ r x y := by
  obtain ⟨-, pre, post, rfl, hpre⟩ := List.find?_eq_some_iff_append.mp h
  intro y hy hpy
  obtain hy | hy := List.mem_append.mp hy
  · have := hpre y hy
    rw [hpy] at this
    cases this
  · obtain rfl | hy := List.mem_cons.mp hy
    · exact .inl rfl
    · exact .inr ((List.pairwise_cons.mp (List.pairwise_append.mp hl).2.1).1 y hy)

section Taken

variable {forward : Bool} {lim : Nat}

theorem taken_takeNearest (hit ok : Nat → Prop) (first candidate : Nat → Nat) (len : Nat)
    (hhit : ∀ start, ok start → ∀ c, first start ≤ c →
      (hit c ↔ ∃ x ∈ placesAhead forward pat start lim, b.occursAt pat x = true ∧ c = candidate x))
    (hfrom : ∀ start, ok start → ∀ x ∈ placesAhead forward pat start lim, b.occursAt pat x = true →
      first start ≤ candidate x)
    (horder : ∀ start, ok start →
      (placesAhead forward pat start lim).Pairwise (candidate · < candidate ·))
    (hafter : ∀ start, ok start → ∀ x ∈ placesAhead forward pat start lim, b.occursAt pat x = true →
      ok (if forward then x + pat.length else x) ∧
        first (if forward then x + pat.length else x) = candidate x + len)
    (n : Nat) {start : Nat} (hok : ok start) :
    Taken hit len (first start) n ((b.takeNearest forward pat lim n start).map candidate) ∧
      ∀ x ∈ b.takeNearest forward pat lim n start, ∃ start, ok start ∧
        x ∈ placesAhead forward pat start lim ∧ b.occursAt pat x = true := by
  induction n generalizing start with
  | zero => exact ⟨.enough, fun x hx => by cases hx⟩
  | succ n ih =>
    rw [takeNearest]
    cases hfind : (placesAhead forward pat start lim).find? (b.occursAt pat) with
    | none =>
      refine ⟨.fewer fun c hc hit => ?_, fun x hx => by cases hx⟩
      obtain ⟨x, hx, hoccurs, -⟩ := (hhit start hok c hc).mp hit
      exact List.find?_eq_none.mp hfind x hx hoccurs
    | some x =>
      have hx := mem_of_find?_eq_some hfind
      have hoccurs := find?_some hfind
      obtain ⟨hok', hnext⟩ := hafter start hok x hx hoccurs
      obtain ⟨htaken, hall⟩ := ih hok'
      rw [hnext] at htaken
      constructor
      · have hle := hfrom start hok x hx hoccurs
        refine .take hle ((hhit start hok _ hle).mpr ⟨x, hx, hoccurs, rfl⟩) ?_ htaken
        intro e he hlt hit
        obtain ⟨y, hy, hoccurs', rfl⟩ := (hhit start hok e he).mp hit
        obtain rfl | hlt' := find?_first (horder start hok) hfind y hy hoccurs'
        · exact Nat.lt_irrefl _ hlt
        · exact Nat.lt_asymm hlt hlt'
      · intro y hy
        obtain rfl | hy := List.mem_cons.mp hy
        · exact ⟨start, hok, hx, hoccurs⟩
        · exact hall y hy

theorem length_takeNearest (n start : Nat) :
    (b.takeNearest forward pat lim n start).length ≤ n := by
  induction n generalizing start with
  | zero => exact Nat.le_refl 0
  | succ n ih =>
    rw [takeNearest]
    cases (placesAhead forward pat start lim).find? (b.occursAt pat) with
    | none => exact Nat.zero_le _
    | some x => exact Nat.succ_le_succ (ih _)

end Taken

theorem tally_eq {call : BmCall} {place : Nat → ℤ} {n : Nat} {xs : List Nat} (start : Nat)
    (regs : Option (Nat × Nat)) (hn : 1 ≤ n) (hle : xs.length ≤ n)
    (hbounds : ∀ x ∈ xs, b.boundsAt call (place x) = (x, x + pat.length)) :
    b.tally call n (xs.map place) regs =
      { value :=
          if xs.length = n then
            match xs.getLast? with
            | some x => if 0 < call.direction then (x + pat.length : Nat) else x
            | none => start
          else -(n - xs.length : Nat)
        regs := (xs.getLast?.map fun x => (x, x + pat.length)).or regs } := by
  induction xs generalizing n regs with
  | nil =>
    rw [length_nil, if_neg (by omega)]
    rfl
  | cons x xs ih =>
    rw [length_cons] at hle ⊢
    rw [map_cons, tally, hbounds x mem_cons_self, getLast?_cons]
    by_cases hone : n = 1
    · subst hone
      obtain rfl : xs = [] := List.length_eq_zero_iff.mp (by omega)
      simp only [length_nil, Nat.zero_add, if_true, getLast?_nil, getD_none,
        map_some, some_or]
    · have hall : xs.length = n - 1 ↔ xs.length + 1 = n := by omega
      have hleft : n - 1 - xs.length = n - (xs.length + 1) := by omega
      rw [if_neg hone, ih _ (by omega) (by omega)
        fun y hy => hbounds y (mem_cons_of_mem _ hy)]
      cases hlast : xs.getLast? with
      | none =>
        obtain rfl := List.getLast?_eq_none_iff.mp hlast
        have hmissing : ¬ ([] : List Nat).length + 1 = n := fun h => hone h.symm
        simp only [hall, hleft, if_neg hmissing, map_none, Option.none_or, getD_none,
          map_some, some_or]
      | some y => simp only [hall, hleft, getD_some, map_some, some_or]

theorem boundsAt_eq {call : BmCall} {pos : ℤ} {x : Nat} (hx : 1 ≤ x)
    (hx' : x + pat.length ≤ b.chars.length + 1) (hoccurs : b.occursAt pat x = true)
    (hlen : call.len = (textBytes pat).length)
    (hpos : (pos + if 0 < call.direction then 1 - call.len else 0) = bytind b.chars x) :
    b.boundsAt call pos = (x, x + pat.length) := by
  have hend : (bytind b.chars x : ℤ) + (textBytes pat).length
      = bytind b.chars (x + pat.length) := by
    rw [bytind_add_length hx hoccurs, Nat.cast_add]
  rw [boundsAt, hpos, hlen, hend, Int.toNat_natCast, Int.toNat_natCast,
    bytindToBufpos_bytind hx (by omega), bytindToBufpos_bytind (by omega) hx']

theorem mem_placesAhead_true {start lim x : Nat} :
    x ∈ placesAhead true pat start lim ↔ start ≤ x ∧ x + pat.length ≤ lim := by
  rw [placesAhead, if_pos rfl, mem_range'_1]
  omega

theorem mem_placesAhead_false {start lim x : Nat} :
    x ∈ placesAhead false pat start lim ↔ lim ≤ x ∧ x + pat.length ≤ start := by
  rw [placesAhead, if_neg Bool.false_ne_true, mem_reverse, mem_range'_1]
  omega

theorem textBytes_ne_nil (hpat : pat ≠ []) : textBytes pat ≠ [] := by
  obtain ⟨c, l, rfl⟩ := exists_cons_of_ne_nil hpat
  exact cons_ne_nil c.first _

section Ends

variable {start lim : Nat} {n : ℤ}

theorem taken_forward (hpat : pat ≠ []) (hstart : 1 ≤ start) (hstart' : start ≤ b.chars.length + 1)
    (hlim : lim ≤ b.chars.length + 1) (n : Nat) :
    Taken (IsHit (textBytes pat) (fun c => b.byteAt (bytind b.chars start + c))
        (bytind b.chars lim - bytind b.chars start)) (textBytes pat).length
      ((textBytes pat).length - 1) n
      ((b.takeNearest true pat lim n start).map fun x =>
        bytind b.chars x + (textBytes pat).length - 1 - bytind b.chars start) ∧
      ∀ x ∈ b.takeNearest true pat lim n start,
        start ≤ x ∧ x + pat.length ≤ lim ∧ b.occursAt pat x = true := by
  have hpos := List.length_pos_iff.mpr (textBytes_ne_nil hpat)
  have hmono : ∀ {x y}, x ≤ y → bytind b.chars x ≤ bytind b.chars y := fun h => bytePos_mono _ h
  obtain ⟨htaken, hall⟩ := taken_takeNearest (b := b) (IsHit (textBytes pat)
      (fun c => b.byteAt (bytind b.chars start + c)) (bytind b.chars lim - bytind b.chars start))
    (fun s => start ≤ s ∧ s ≤ b.chars.length + 1)
    (fun s => bytind b.chars s + (textBytes pat).length - 1 - bytind b.chars start)
    (fun x => bytind b.chars x + (textBytes pat).length - 1 - bytind b.chars start)
    (textBytes pat).length
    (fun s hs c hc => by
      have hss := hmono hs.1
      rw [isHit_forward_iff hpat hstart hlim]
      constructor
      · rintro ⟨x, hx, hx', hoccurs, heq⟩
        have hsx := hmono hx
        refine ⟨x, mem_placesAhead_true.mpr ⟨?_, hx'⟩, hoccurs, by omega⟩
        exact le_of_bytePos_le Emchar.width_pos (by omega) hs.2
          (show bytind b.chars s ≤ bytind b.chars x by omega)
      · rintro ⟨x, hx, hoccurs, rfl⟩
        obtain ⟨hx, hx'⟩ := mem_placesAhead_true.mp hx
        have hsx := hmono hx
        exact ⟨x, by omega, hx', hoccurs, by omega⟩)
    (fun s hs x hx _ => by
      have := hmono (mem_placesAhead_true.mp hx).1
      omega)
    (fun s hs => by
      refine List.Pairwise.imp_of_mem (fun {x y} hx hy hxy => ?_) (pairwise_lt_range' ..)
      have hx' := (mem_placesAhead_true.mp hx).1
      have hy' := (mem_placesAhead_true.mp hy).2
      have hsx := hmono (show start ≤ x by omega)
      have hlt : bytind b.chars x < bytind b.chars y :=
        bytePos_lt Emchar.width_pos (by omega) hxy (by omega)
      omega)
    (fun s hs x hx hoccurs => by
      obtain ⟨hx, hx'⟩ := mem_placesAhead_true.mp hx
      have hsx := hmono (show start ≤ x by omega)
      have hend := bytind_add_length (show 1 ≤ x by omega) hoccurs
      rw [if_pos rfl]
      exact ⟨⟨by omega, by omega⟩, by omega⟩)
    n ⟨Nat.le_refl start, hstart'⟩
  refine ⟨?_, fun x hx => ?_⟩
  · rwa [show bytind b.chars start + (textBytes pat).length - 1 - bytind b.chars start
      = (textBytes pat).length - 1 by omega] at htaken
  · obtain ⟨s, hs, hmem, hoccurs⟩ := hall x hx
    obtain ⟨hx, hx'⟩ := mem_placesAhead_true.mp hmem
    exact ⟨by omega, hx', hoccurs⟩

theorem taken_backward (hpat : pat ≠ []) (hstart : 1 ≤ start)
    (hstart' : start ≤ b.chars.length + 1) (hlim : 1 ≤ lim) (n : Nat) :
    Taken (IsHit (textBytes pat).reverse
        (fun c => b.byteAt (bytind b.chars start - 1 - c : ℤ).toNat)
        (bytind b.chars start - bytind b.chars lim)) (textBytes pat).length
      ((textBytes pat).length - 1) n
      ((b.takeNearest false pat lim n start).map fun x =>
        bytind b.chars start - 1 - bytind b.chars x) ∧
      ∀ x ∈ b.takeNearest false pat lim n start,
        lim ≤ x ∧ x + pat.length ≤ start ∧ b.occursAt pat x = true := by
  have hpos := List.length_pos_iff.mpr (textBytes_ne_nil hpat)
  have hpos' := List.length_pos_iff.mpr hpat
  have hmono : ∀ {x y}, x ≤ y → bytind b.chars x ≤ bytind b.chars y := fun h => bytePos_mono _ h
  obtain ⟨htaken, hall⟩ := taken_takeNearest (b := b) (IsHit (textBytes pat).reverse
      (fun c => b.byteAt (bytind b.chars start - 1 - c : ℤ).toNat)
      (bytind b.chars start - bytind b.chars lim))
    (fun s => 1 ≤ s ∧ s ≤ start)
    (fun s => bytind b.chars start - bytind b.chars s + (textBytes pat).length - 1)
    (fun x => bytind b.chars start - 1 - bytind b.chars x)
    (textBytes pat).length
    (fun s hs c hc => by
      have hss := hmono hs.2
      rw [isHit_backward_iff hpat hlim hstart']
      constructor
      · rintro ⟨x, hx, hx', hoccurs, heq⟩
        have hend := bytind_add_length (show 1 ≤ x by omega) hoccurs
        refine ⟨x, mem_placesAhead_false.mpr ⟨hx, ?_⟩, hoccurs, by omega⟩
        exact le_of_bytePos_le Emchar.width_pos hs.1 (by omega)
          (show bytind b.chars (x + pat.length) ≤ bytind b.chars s by omega)
      · rintro ⟨x, hx, hoccurs, rfl⟩
        obtain ⟨hx, hx'⟩ := mem_placesAhead_false.mp hx
        have hend := bytind_add_length (show 1 ≤ x by omega) hoccurs
        have hxs := hmono hx'
        exact ⟨x, hx, by omega, hoccurs, by omega⟩)
    (fun s hs x hx hoccurs => by
      obtain ⟨hx, hx'⟩ := mem_placesAhead_false.mp hx
      have hend := bytind_add_length (show 1 ≤ x by omega) hoccurs
      have hxs := hmono hx'
      have hss := hmono hs.2
      omega)
    (fun s hs => by
      refine List.Pairwise.imp_of_mem (fun {x y} hx hy hxy => ?_)
        (List.pairwise_reverse.mpr (pairwise_lt_range' ..))
      have hx' := (mem_placesAhead_false.mp hx).2
      have hy' := (mem_placesAhead_false.mp hy).1
      have hlt : bytind b.chars y < bytind b.chars x :=
        bytePos_lt Emchar.width_pos (by omega) hxy (by omega)
      have hlt' : bytind b.chars x < bytind b.chars start :=
        bytePos_lt Emchar.width_pos (by omega) (by omega) hstart'
      omega)
    (fun s hs x hx hoccurs => by
      obtain ⟨hx, hx'⟩ := mem_placesAhead_false.mp hx
      have hend := bytind_add_length (show 1 ≤ x by omega) hoccurs
      have hxs := hmono (show x + pat.length ≤ start by omega)
      rw [if_neg Bool.false_ne_true]
      exact ⟨⟨by omega, by omega⟩, by omega⟩)
    n ⟨hstart, Nat.le_refl start⟩
  refine ⟨?_, fun x hx => ?_⟩
  · rwa [Nat.sub_self, Nat.zero_add] at htaken
  · obtain ⟨s, hs, hmem, hoccurs⟩ := hall x hx
    obtain ⟨hx, hx'⟩ := mem_placesAhead_false.mp hmem
    exact ⟨hx, by omega, hoccurs⟩

end Ends

/-- `boyer_moore` finds what the naive search finds, for each gap and both directions. -/
theorem boyerMoore_iff (hpat : pat ≠ []) (start lim : Nat) {n : ℤ} (hn : n ≠ 0)
    (hstart : b.begv ≤ start ∧ start ≤ b.zv) (hlim : b.begv ≤ lim ∧ lim ≤ b.zv) (r : Found) :
    b.BoyerMoore (textBytes pat) (bytind b.chars start) (bytind b.chars lim) n r ↔
      r = b.naiveSearch pat start lim n := by
  suffices hends : b.BoyerMoore (textBytes pat) (bytind b.chars start) (bytind b.chars lim) n
      (b.naiveSearch pat start lim n) by
    exact ⟨fun h => Ends.unique h hends, fun h => h ▸ hends⟩
  have hzv := b.zv_le
  have hbegv := b.one_le_begv
  have hbytes := textBytes_ne_nil hpat
  have hlen := List.length_pos_iff.mpr hbytes
  have hone : 1 ≤ bytind b.chars start := one_le_bytePos _ _
  have hlength : (bmCall (textBytes pat) (bytind b.chars start) (bytind b.chars lim) n).len
    = (textBytes pat).length := rfl
  have hk : 1 ≤ n.natAbs := by omega
  rw [BoyerMoore, naiveSearch]
  rcases Int.lt_or_gt_of_ne hn with hneg | hpos
  · have hd : (bmCall (textBytes pat) (bytind b.chars start) (bytind b.chars lim) n).direction
        = -1 := if_neg (by omega)
    have hd' : ¬ (0 : ℤ) < -1 := by decide
    have hn' : ¬ 0 < n := by omega
    have hlow : b.biBegv ≤ bytind b.chars lim := bytePos_mono _ hlim.1
    obtain ⟨htaken, hall⟩ := taken_backward hpat (show 1 ≤ start by omega)
      (show start ≤ b.chars.length + 1 by omega) (show 1 ≤ lim by omega) n.natAbs
    rw [← List.length_reverse] at htaken
    have hends := clump_ends (scene_backward (b := b) hbytes hneg hone (one_le_bytePos _ _))
      (fun c _ hcount => beginsClump_backward hbytes hneg hlow hcount)
      none (by omega) hk htaken
    rw [List.map_map, tally_eq start none hk (length_takeNearest _ _) (fun x hx => ?_), hd,
      Option.or_none] at hends
    · have hplace : (bytind b.chars start : ℤ) + ((textBytes pat).length * -1 - 0)
          = bytind b.chars start - 1 - ((textBytes pat).length - 1 : Nat) := by omega
      simp only [BmCall.dirlen, hd, hlength, if_neg hd', if_neg hn', decide_eq_false hn', hplace]
      rw [show (n.natAbs : ℤ) * -1 = n by omega, List.length_reverse] at hends
      exact hends
    · obtain ⟨hx', hx'', hoccurs⟩ := hall x hx
      have hpat' := List.length_pos_iff.mpr hpat
      have hlt : bytind b.chars x < bytind b.chars start :=
        bytePos_lt Emchar.width_pos (by omega) (by omega) (by omega)
      refine boundsAt_eq (by omega) (by omega) hoccurs hlength ?_
      rw [hd, if_neg hd', Function.comp_apply]
      omega
  · have hd : (bmCall (textBytes pat) (bytind b.chars start) (bytind b.chars lim) n).direction
        = 1 := if_pos hpos
    have hd' : (0 : ℤ) < 1 := zero_lt_one
    obtain ⟨htaken, hall⟩ := taken_forward hpat (show 1 ≤ start by omega)
      (show start ≤ b.chars.length + 1 by omega) (show lim ≤ b.chars.length + 1 by omega) n.natAbs
    have hends := clump_ends (scene_forward (b := b) hbytes hpos hone)
      (fun c hc hcount => beginsClump_forward hbytes hpos hone (bytePos_mono _ hlim.2) hc hcount)
      none (by omega) hk htaken
    rw [List.map_map, tally_eq start none hk (length_takeNearest _ _) (fun x hx => ?_), hd,
      Option.or_none] at hends
    · have hplace : (bytind b.chars start : ℤ) + ((textBytes pat).length * 1 - 1)
          = (bytind b.chars start + ((textBytes pat).length - 1) : Nat) := by omega
      simp only [BmCall.dirlen, hd, hlength, if_pos hd', if_pos hpos, decide_eq_true hpos, hplace]
      rw [show (n.natAbs : ℤ) * 1 = n by omega] at hends
      exact hends
    · obtain ⟨hx', hx'', hoccurs⟩ := hall x hx
      have hle : bytind b.chars start ≤ bytind b.chars x := bytePos_mono _ hx'
      refine boundsAt_eq (by omega) (by omega) hoccurs hlength ?_
      rw [hd, if_pos hd', hlength, Function.comp_apply]
      omega

/-- Two newlines, searched for backwards over the gap. -/
theorem boyerMoore_linesBuffer :
    linesBuffer.BoyerMoore (textBytes [newlineChar, newlineChar]) (bytind linesBuffer.chars 5)
      (bytind linesBuffer.chars 1) (-1) ⟨3, some (3, 5)⟩ :=
  (boyerMoore_iff (List.cons_ne_nil _ _) 5 1 (by decide) (by decide) (by decide) _).mpr
    (by decide)

end SearchBuffer

end XEmacs.TextSearch
