import Mathlib.Data.List.TakeDrop

/-!
# Byte positions in a text of characters of different widths

A text is a list of characters, `w` gives the number of bytes of each. A position is between two
characters and counts from 1.
-/

namespace BytePositions

open List

variable {α : Type*} (w : α → Nat)

/-- The number of bytes of a text. -/
def byteLength : List α → Nat
  | [] => 0
  | a :: l => w a + byteLength l

/-- The byte position of the character position `x`. -/
def bytePos (l : List α) (x : Nat) : Nat := byteLength w (l.take (x - 1)) + 1

/-- The text after insertion of `c` at `p`. -/
def insertAt (l : List α) (p : Nat) (c : List α) : List α :=
  l.take (p - 1) ++ (c ++ l.drop (p - 1))

/-- The text after deletion from `a` up to `b`. -/
def deleteRange (l : List α) (a b : Nat) : List α :=
  l.take (a - 1) ++ l.drop (b - 1)

/-- The characters from the position `a` up to the position `b`. -/
def between (l : List α) (a b : Nat) : List α := (l.drop (a - 1)).take (b - a)

variable {w}

@[simp]
theorem byteLength_nil : byteLength w [] = 0 := rfl

@[simp]
theorem byteLength_cons (a : α) (l : List α) :
    byteLength w (a :: l) = w a + byteLength w l := rfl

@[simp]
theorem byteLength_append (l l' : List α) :
    byteLength w (l ++ l') = byteLength w l + byteLength w l' := by
  induction l with
  | nil => exact (Nat.zero_add _).symm
  | cons a l ih => rw [cons_append, byteLength_cons, byteLength_cons, ih, Nat.add_assoc]

theorem byteLength_congr {l l' : List α} (h : l.map w = l'.map w) :
    byteLength w l = byteLength w l' := by
  induction l generalizing l' with
  | nil =>
    rw [map_nil] at h
    rw [List.map_eq_nil_iff.mp h.symm]
  | cons a l ih =>
    obtain ⟨a', l₁, rfl, ha, hl⟩ := List.map_eq_cons_iff.mp h.symm
    rw [byteLength_cons, byteLength_cons, ← ha, ih hl.symm]

theorem byteLength_take_add_drop (l : List α) (n : Nat) :
    byteLength w (l.take n) + byteLength w (l.drop n) = byteLength w l := by
  rw [← byteLength_append, take_append_drop]

@[simp]
theorem bytePos_one (l : List α) : bytePos w l 1 = 1 := by
  simp [bytePos]

theorem one_le_bytePos (l : List α) (x : Nat) : 1 ≤ bytePos w l x :=
  Nat.le_add_left _ _

theorem bytePos_succ {l : List α} {x : Nat} (hx : 1 ≤ x) {c : α}
    (hc : l[x - 1]? = some c) : bytePos w l (x + 1) = bytePos w l x + w c := by
  have hx' : x + 1 - 1 = (x - 1) + 1 := by omega
  rw [bytePos, hx', take_add_one, hc, bytePos]
  simp
  omega

theorem bytePos_mono (l : List α) {x y : Nat} (h : x ≤ y) :
    bytePos w l x ≤ bytePos w l y := by
  have hsplit : l.take (x - 1) = (l.take (y - 1)).take (x - 1) := by
    rw [take_take, Nat.min_eq_left (by omega)]
  have := byteLength_take_add_drop (w := w) (l.take (y - 1)) (x - 1)
  rw [bytePos, bytePos, hsplit]
  omega

theorem bytePos_lt (hw : ∀ c, 1 ≤ w c) {l : List α} {x y : Nat} (hx : 1 ≤ x) (hxy : x < y)
    (hy : y ≤ l.length + 1) : bytePos w l x < bytePos w l y := by
  have hlt : x - 1 < l.length := by omega
  have hstep := bytePos_succ (w := w) hx (getElem?_eq_getElem hlt)
  have := hw l[x - 1]
  have := bytePos_mono (w := w) l (Nat.succ_le_of_lt hxy)
  show _ < _
  rw [Nat.succ_eq_add_one, hstep] at this
  omega

theorem le_of_bytePos_le (hw : ∀ c, 1 ≤ w c) {l : List α} {x y : Nat} (hy : 1 ≤ y)
    (hx : x ≤ l.length + 1) (h : bytePos w l x ≤ bytePos w l y) : x ≤ y := by
  by_contra hlt
  exact absurd (bytePos_lt hw hy (Nat.not_le.mp hlt) hx) (by omega)

theorem bytePos_inj (hw : ∀ c, 1 ≤ w c) {l : List α} {x y : Nat} (hx : 1 ≤ x) (hy : 1 ≤ y)
    (hx' : x ≤ l.length + 1) (hy' : y ≤ l.length + 1)
    (h : bytePos w l x = bytePos w l y) : x = y :=
  Nat.le_antisymm (le_of_bytePos_le hw hy hx' (Nat.le_of_eq h))
    (le_of_bytePos_le hw hx hy' (Nat.le_of_eq h.symm))

theorem take_eq_append_between (l : List α) {a b : Nat} (ha : 1 ≤ a) (hab : a ≤ b) :
    l.take (b - 1) = l.take (a - 1) ++ between l a b := by
  rw [between, ← take_add, show a - 1 + (b - a) = b - 1 by omega]

theorem between_self (l : List α) (a : Nat) : between l a a = [] := by
  rw [between, Nat.sub_self, take_zero]

theorem between_append (l : List α) {a b c : Nat} (ha : 1 ≤ a) (hab : a ≤ b) (hbc : b ≤ c) :
    between l a c = between l a b ++ between l b c := by
  have hdrop : l.drop (b - 1) = (l.drop (a - 1)).drop (b - a) := by
    rw [drop_drop, show a - 1 + (b - a) = b - 1 by omega]
  rw [between, between, between, hdrop, ← take_add, show b - a + (c - b) = c - a by omega]

theorem between_succ {l : List α} {a : Nat} {c : α} (hc : l[a - 1]? = some c) :
    between l a (a + 1) = [c] := by
  obtain ⟨hlt, rfl⟩ := List.getElem?_eq_some_iff.mp hc
  rw [between, Nat.add_sub_cancel_left, drop_eq_getElem_cons hlt, take_succ_cons,
    take_zero]

theorem between_split {l : List α} {a b : Nat} {pre post : List α} {c : α} (ha : 1 ≤ a)
    (h : between l a b = pre ++ c :: post) :
    between l a (a + pre.length) = pre ∧
      between l (a + pre.length) (a + pre.length + 1) = [c] ∧
      between l (a + pre.length + 1) b = post ∧ a + pre.length < b := by
  have hlen := congrArg List.length h
  rw [between, length_take, length_append, length_cons] at hlen
  have hlt : a + pre.length < b := by omega
  have hpre : between l a (a + pre.length) = pre := by
    have htake := congrArg (List.take pre.length) h
    rw [take_left, between, take_take, Nat.min_eq_left (by omega)] at htake
    rw [between, Nat.add_sub_cancel_left, htake]
  rw [between_append l ha (Nat.le_add_right a _) (Nat.le_of_lt hlt), hpre] at h
  have hrest := append_cancel_left h
  have hc : l[a + pre.length - 1]? = some c := by
    have hget := congrArg (·[0]?) hrest
    simpa [between, getElem?_take, getElem?_drop, hlt, Nat.sub_pos_of_lt] using hget
  have hone := between_succ hc
  rw [between_append l (Nat.le_add_right_of_le ha) (Nat.le_succ _) hlt, hone] at hrest
  exact ⟨hpre, hone, (List.cons.inj hrest).2, hlt⟩

theorem bytePos_eq_add_between (l : List α) {a b : Nat} (ha : 1 ≤ a) (hab : a ≤ b) :
    bytePos w l b = bytePos w l a + byteLength w (between l a b) := by
  rw [bytePos, take_eq_append_between l ha hab, byteLength_append, bytePos]
  omega

/-! ## Replacement -/

theorem bytePos_congr {l l' : List α} (h : l.map w = l'.map w) (x : Nat) :
    bytePos w l x = bytePos w l' x := by
  rw [bytePos, bytePos, byteLength_congr]
  rw [map_take, map_take, h]

theorem map_set_of_eq {l : List α} {k : Nat} {a b : α} (ha : l[k]? = some a)
    (hw : w a = w b) : (l.set k b).map w = l.map w := by
  refine ext_getElem? fun j => ?_
  rw [getElem?_map, getElem?_map, getElem?_set]
  split
  case isTrue h =>
    subst h
    have hlt := (List.getElem?_eq_some_iff.mp ha).1
    rw [if_pos hlt, ha, Option.map_some, Option.map_some, hw]
  case isFalse => rfl

theorem bytePos_set {l : List α} {p : Nat} {a : α} (b : α) (hp : 1 ≤ p)
    (ha : l[p - 1]? = some a) (x : Nat) :
    bytePos w (l.set (p - 1) b) x + (if p < x then w a else 0)
      = bytePos w l x + (if p < x then w b else 0) := by
  have hlt := (List.getElem?_eq_some_iff.mp ha).1
  by_cases hx : p < x
  · have hpre : bytePos w (l.set (p - 1) b) p = bytePos w l p := by
      rw [bytePos, bytePos, take_set_of_le (Nat.le_refl _)]
    have hstep : bytePos w (l.set (p - 1) b) (p + 1) = bytePos w (l.set (p - 1) b) p + w b :=
      bytePos_succ hp (getElem?_set_self hlt)
    have hstep' : bytePos w l (p + 1) = bytePos w l p + w a := bytePos_succ hp ha
    have hbetween : between (l.set (p - 1) b) (p + 1) x = between l (p + 1) x := by
      rw [between, between, drop_set_of_lt (by omega)]
    rw [if_pos hx, if_pos hx,
      bytePos_eq_add_between (l.set (p - 1) b) (Nat.le_add_left 1 p) hx,
      bytePos_eq_add_between l (Nat.le_add_left 1 p) hx, hbetween]
    omega
  · rw [if_neg hx, if_neg hx, bytePos, bytePos, take_set_of_le (by omega)]

/-! ## Insertion -/

section Insertion

variable {l : List α} {p : Nat} {c : List α}

theorem length_insertAt (l : List α) (p : Nat) (c : List α) :
    (insertAt l p c).length = l.length + c.length := by
  simp only [insertAt, length_append, length_take, length_drop]
  omega

theorem getElem?_insertAt_inside (hp : 1 ≤ p) (hp' : p ≤ l.length + 1) {i : Nat}
    (hi : i < c.length) : (insertAt l p c)[p + i - 1]? = some (getElem c i hi) := by
  have hlen : (l.take (p - 1)).length = p - 1 := by
    rw [length_take]
    omega
  rw [insertAt, getElem?_append_right (by omega), hlen,
    getElem?_append_left (by omega), show p + i - 1 - (p - 1) = i by omega,
    getElem?_eq_getElem hi]

theorem bytePos_insertAt_before {x : Nat} (hp : p ≤ l.length + 1) (hx : x ≤ p) :
    bytePos w (insertAt l p c) x = bytePos w l x := by
  have hlen : x - 1 ≤ (l.take (p - 1)).length := by
    rw [length_take]
    omega
  rw [bytePos, insertAt, take_append_of_le_length hlen, take_take,
    Nat.min_eq_left (by omega), bytePos]

theorem bytePos_insertAt_after {x : Nat} (hp : 1 ≤ p) (hp' : p ≤ l.length + 1)
    (hx : p ≤ x) : bytePos w (insertAt l p c) (x + c.length)
      = bytePos w l x + byteLength w c := by
  have hlen : (l.take (p - 1)).length = p - 1 := by
    rw [length_take]
    omega
  have hx' : x + c.length - 1 = (l.take (p - 1)).length + (c.length + (x - p)) := by omega
  have hold : l.take (x - 1) = l.take (p - 1) ++ (l.drop (p - 1)).take (x - p) := by
    rw [← take_add, show p - 1 + (x - p) = x - 1 by omega]
  rw [bytePos, insertAt, hx', take_length_add_append, take_length_add_append,
    bytePos, hold]
  simp only [byteLength_append]
  omega

theorem bytePos_insertAt_unmoved {x : Nat} (hp : 1 ≤ p) (hp' : p ≤ l.length + 1)
    (hx : p ≤ x) : bytePos w (insertAt l p c) x
      = bytePos w l p + byteLength w ((c ++ between l p x).take (x - p)) := by
  have hlen : (l.take (p - 1)).length = p - 1 := by
    rw [length_take]
    omega
  have hx' : x - 1 = (l.take (p - 1)).length + (x - p) := by omega
  have htake : (c ++ between l p x).take (x - p) = (c ++ l.drop (p - 1)).take (x - p) := by
    rw [between, take_append, take_append, take_take,
      Nat.min_eq_left (Nat.sub_le _ _)]
  rw [bytePos, insertAt, hx', take_length_add_append, byteLength_append, htake, bytePos]
  omega

theorem bytePos_insertAt_moved {x : Nat} (hx : 1 ≤ x) (hx' : x ≤ p)
    (hp' : p ≤ l.length + 1) : bytePos w (insertAt l p c) (x + c.length)
      = bytePos w l x + byteLength w ((between l x p ++ c).take c.length) := by
  have hlen : (l.take (x - 1)).length = x - 1 := by
    rw [length_take]
    omega
  have hfit : c.length ≤ (between l x p ++ c).length := by
    rw [length_append]
    omega
  rw [bytePos, insertAt, take_eq_append_between l hx hx', append_assoc,
    show x + c.length - 1 = (l.take (x - 1)).length + c.length by omega,
    take_length_add_append, ← append_assoc, take_append_of_le_length hfit,
    byteLength_append, bytePos]
  omega

end Insertion

/-! ## Deletion -/

section Deletion

variable {l : List α} {a b : Nat}

theorem length_deleteRange (ha : 1 ≤ a) (hab : a ≤ b) (hb : b ≤ l.length + 1) :
    (deleteRange l a b).length = l.length - (b - a) := by
  simp only [deleteRange, length_append, length_take, length_drop]
  omega

theorem bytePos_deleteRange_before {x : Nat} (ha : a ≤ l.length + 1) (hx : x ≤ a) :
    bytePos w (deleteRange l a b) x = bytePos w l x := by
  have hlen : x - 1 ≤ (l.take (a - 1)).length := by
    rw [length_take]
    omega
  rw [bytePos, deleteRange, take_append_of_le_length hlen, take_take,
    Nat.min_eq_left (by omega), bytePos]

theorem bytePos_deleteRange_after {x : Nat} (ha : 1 ≤ a) (hab : a ≤ b)
    (hb : b ≤ l.length + 1) (hx : b ≤ x) :
    bytePos w (deleteRange l a b) (x - (b - a)) + (bytePos w l b - bytePos w l a)
      = bytePos w l x := by
  have hlen : (l.take (a - 1)).length = a - 1 := by
    rw [length_take]
    omega
  have hx' : x - (b - a) - 1 = (l.take (a - 1)).length + (x - b) := by omega
  have hold : l.take (x - 1) = l.take (b - 1) ++ (l.drop (b - 1)).take (x - b) := by
    rw [← take_add, show b - 1 + (x - b) = x - 1 by omega]
  have hmono : bytePos w l a ≤ bytePos w l b := bytePos_mono l hab
  rw [bytePos, deleteRange, hx', take_length_add_append]
  rw [bytePos, bytePos] at hmono ⊢
  rw [bytePos, hold]
  simp only [byteLength_append]
  omega

theorem bytePos_deleteRange_unmoved {x : Nat} (ha : 1 ≤ a) (hab : a ≤ b)
    (hb : b ≤ l.length + 1) (hx : a ≤ x) :
    bytePos w (deleteRange l a b) x
      = bytePos w l a + byteLength w (between l b (x + (b - a))) := by
  have hmoved := bytePos_deleteRange_after (w := w) ha hab hb (show b ≤ x + (b - a) by omega)
  rw [Nat.add_sub_cancel,
    bytePos_eq_add_between l (show 1 ≤ b by omega) (show b ≤ x + (b - a) by omega)] at hmoved
  have hmono : bytePos w l a ≤ bytePos w l b := bytePos_mono l hab
  omega

end Deletion

/-! ## Where positions go -/

/-- Where an insertion of `n` at `p` leaves a position, which it moves at `p` if it `moves` it
there. -/
def insertedAt (moves : Bool) (p n x : Nat) : Nat :=
  if x < p then x else if p < x then x + n else if moves then x + n else x

/-- Where a deletion from `a` up to `b` leaves a position. -/
def deletedAt (a b x : Nat) : Nat := if x ≤ a then x else if x ≤ b then a else x - (b - a)

theorem insertedAt_zero (moves : Bool) (p x : Nat) : insertedAt moves p 0 x = x := by
  simp only [insertedAt, Nat.add_zero, ite_self]

theorem deletedAt_self (a x : Nat) : deletedAt a a x = x := by
  by_cases hx : x ≤ a
  · rw [deletedAt, if_pos hx]
  · rw [deletedAt, if_neg hx, if_neg hx, Nat.sub_self, Nat.sub_zero]

theorem insertedAt_bytePos (hw : ∀ c, 1 ≤ w c) {l : List α} {p x : Nat} (hp : 1 ≤ p)
    (hp' : p ≤ l.length + 1) (hx : 1 ≤ x) (hx' : x ≤ l.length + 1) (moves : Bool) (c : List α) :
    insertedAt moves (bytePos w l p) (byteLength w c) (bytePos w l x)
      = bytePos w (insertAt l p c) (insertedAt moves p c.length x) := by
  rcases Nat.lt_trichotomy x p with hlt | rfl | hlt
  · have hbyt := bytePos_lt hw hx hlt hp'
    rw [insertedAt, insertedAt, if_pos hbyt, if_pos hlt,
      bytePos_insertAt_before hp' (Nat.le_of_lt hlt)]
  · simp only [insertedAt, Nat.lt_irrefl, if_false]
    cases moves with
    | true => exact (bytePos_insertAt_after hp hp' (Nat.le_refl x)).symm
    | false => exact (bytePos_insertAt_before hp' (Nat.le_refl x)).symm
  · have hbyt := bytePos_lt hw hp hlt hx'
    rw [insertedAt, insertedAt, if_neg (Nat.lt_asymm hbyt), if_pos hbyt,
      if_neg (Nat.lt_asymm hlt), if_pos hlt, bytePos_insertAt_after hp hp' (Nat.le_of_lt hlt)]

theorem deletedAt_bytePos (hw : ∀ c, 1 ≤ w c) {l : List α} {a b x : Nat} (ha : 1 ≤ a)
    (hab : a ≤ b) (hb : b ≤ l.length + 1) (hx' : x ≤ l.length + 1) :
    deletedAt (bytePos w l a) (bytePos w l b) (bytePos w l x)
      = bytePos w (deleteRange l a b) (deletedAt a b x) := by
  have ha' := Nat.le_trans hab hb
  rw [deletedAt, deletedAt]
  by_cases hxa : x ≤ a
  · rw [if_pos (bytePos_mono l hxa), if_pos hxa, bytePos_deleteRange_before ha' hxa]
  rw [if_neg (mt (le_of_bytePos_le hw ha hx') hxa), if_neg hxa]
  by_cases hxb : x ≤ b
  · rw [if_pos (bytePos_mono l hxb), if_pos hxb,
      bytePos_deleteRange_before ha' (Nat.le_refl a)]
  · have hmoved := bytePos_deleteRange_after (w := w) ha hab hb (Nat.le_of_not_le hxb)
    rw [if_neg (mt (le_of_bytePos_le hw (Nat.le_trans ha hab) hx') hxb), if_neg hxb]
    omega

/-! ## Splices that cancel -/

section Cancel

variable {l : List α} {p a b : Nat}

@[simp]
theorem deleteRange_self (l : List α) (p : Nat) : deleteRange l p p = l :=
  take_append_drop _ l

@[simp]
theorem insertAt_nil (l : List α) (p : Nat) : insertAt l p [] = l :=
  take_append_drop _ l

theorem deleteRange_insertAt (ha : 1 ≤ a) (hap : a ≤ p) (hp : p ≤ l.length + 1)
    (c : List α) : deleteRange (insertAt l p c) a (p + c.length) = deleteRange l a p := by
  have hlen : (l.take (p - 1)).length = p - 1 := by
    rw [length_take]
    omega
  have hdrop : p + c.length - 1 = (l.take (p - 1)).length + c.length := by omega
  rw [deleteRange, insertAt, take_append_of_le_length (by omega), take_take,
    Nat.min_eq_left (by omega), ← append_assoc, drop_left' (by
      rw [length_append]
      omega), deleteRange]

theorem insertAt_deleteRange (ha : 1 ≤ a) (hab : a ≤ b) (hb : b ≤ l.length + 1) :
    insertAt (deleteRange l a b) a (between l a b) = l := by
  have hlen : (l.take (a - 1)).length = a - 1 := by
    rw [length_take]
    omega
  rw [insertAt, deleteRange, take_left' hlen, drop_left' hlen, ← append_assoc,
    ← take_eq_append_between l ha hab, take_append_drop]

theorem deleteRange_insertAt_behind (ha : 1 ≤ a) (hab : a ≤ b) (ha' : a ≤ l.length + 1)
    (c : List α) : deleteRange (insertAt l a c) (a + c.length) (b + c.length) =
      l.take (a - 1) ++ c ++ l.drop (b - 1) := by
  have hlen : (l.take (a - 1)).length = a - 1 := by
    rw [length_take]
    omega
  have htake : a + c.length - 1 = (l.take (a - 1) ++ c).length := by
    rw [length_append]
    omega
  have hdrop : b + c.length - 1 = (l.take (a - 1) ++ c).length + (b - a) := by
    rw [length_append]
    omega
  have hsum : a - 1 + (b - a) = b - 1 := by omega
  rw [deleteRange, insertAt, ← append_assoc, htake, hdrop, take_left,
    drop_length_add_append, drop_drop, hsum]

theorem length_between (ha : 1 ≤ a) (hb : b ≤ l.length + 1) :
    (between l a b).length = b - a := by
  rw [between, length_take, length_drop]
  omega

theorem insertAt_deleteRange_eq_set (hp : 1 ≤ p) (hp' : p ≤ l.length) (c : α) :
    insertAt (deleteRange l p (p + 1)) p [c] = l.set (p - 1) c := by
  have hlen : (l.take (p - 1)).length = p - 1 := by
    rw [length_take]
    omega
  rw [insertAt, deleteRange, take_left' hlen, drop_left' hlen,
    set_eq_take_append_cons_drop, if_pos (by omega), singleton_append,
    show p - 1 + 1 = p + 1 - 1 by omega]

theorem insertAt_deleteRange_pred_iff (hp : 2 ≤ p) (hp' : p ≤ l.length) (c : α) :
    insertAt (deleteRange l p (p + 1)) (p - 1) [c] = l.set (p - 1) c ↔
      l[p - 2]? = some c := by
  obtain ⟨k, rfl⟩ := Nat.exists_eq_add_of_le' hp
  have hk : k < l.length := by omega
  have htake : l.take (k + 1) = l.take k ++ [l[k]] := (take_append_getElem hk).symm
  have hlen : (l.take k).length = k := length_take_of_le (Nat.le_of_lt hk)
  rw [insertAt, deleteRange, set_eq_take_append_cons_drop, if_pos (by omega),
    getElem?_eq_getElem (by omega)]
  simp only [show k + 2 - 1 = k + 1 by omega, show k + 1 - 1 = k by omega,
    show k + 2 + 1 - 1 = k + 2 by omega, show k + 2 - 2 = k by omega]
  rw [htake, append_assoc, take_left' hlen, drop_left' hlen, append_assoc,
    append_right_inj]
  constructor
  · intro h
    exact congrArg some (List.cons.inj h).1.symm
  · intro h
    rw [Option.some.inj h]
    rfl

end Cancel

/-! ## Stretches of one width -/

/-- The characters from `a` up to `b` all have `s` bytes. -/
def Uniform (w : α → Nat) (l : List α) (a b s : Nat) : Prop :=
  ∀ x, a ≤ x → x < b → bytePos w l (x + 1) = bytePos w l x + s

section Uniform

variable {l : List α} {a b s : Nat}

theorem uniform_self (l : List α) (a s : Nat) : Uniform w l a a s :=
  fun x hx hx' => by omega

theorem Uniform.mono {a' b' : Nat} (h : Uniform w l a b s) (ha : a ≤ a') (hb : b' ≤ b) :
    Uniform w l a' b' s :=
  fun x hx hx' => h x (by omega) (by omega)

theorem Uniform.bytePos_eq (h : Uniform w l a b s) {x : Nat} (hx : a ≤ x) (hx' : x ≤ b) :
    bytePos w l x = bytePos w l a + s * (x - a) := by
  induction x with
  | zero =>
    have : a = 0 := by omega
    simp [this]
  | succ x ih =>
    rcases Nat.lt_or_eq_of_le hx with hlt | rfl
    · rw [h x (by omega) (by omega), ih (by omega) (by omega),
        show x + 1 - a = (x - a) + 1 by omega, Nat.mul_succ]
      omega
    · simp

theorem Uniform.succ (h : Uniform w l a b s) (hb : bytePos w l (b + 1) = bytePos w l b + s) :
    Uniform w l a (b + 1) s := by
  intro x hx hx'
  rcases Nat.lt_succ_iff_lt_or_eq.mp hx' with hlt | rfl
  · exact h x hx hlt
  · exact hb

theorem Uniform.trans {c : Nat} (h : Uniform w l a b s) (h' : Uniform w l b c s) :
    Uniform w l a c s := by
  intro x hx hx'
  rcases Nat.lt_or_ge x b with hlt | hge
  · exact h x hx hlt
  · exact h' x hge hx'

theorem Uniform.insertAt_before {p : Nat} {c : List α} (h : Uniform w l a b s)
    (hp : p ≤ l.length + 1) (hb : b ≤ p) : Uniform w (insertAt l p c) a b s := by
  intro x hx hx'
  rw [bytePos_insertAt_before hp (by omega), bytePos_insertAt_before hp (by omega)]
  exact h x hx hx'

theorem Uniform.insertAt_after {p : Nat} {c : List α} (h : Uniform w l a b s) (hp : 1 ≤ p)
    (hp' : p ≤ l.length + 1) (ha : p ≤ a) :
    Uniform w (insertAt l p c) (a + c.length) (b + c.length) s := by
  intro x hx hx'
  have h₁ := bytePos_insertAt_after (w := w) (c := c) hp hp'
    (show p ≤ x - c.length by omega)
  have h₂ := bytePos_insertAt_after (w := w) (c := c) hp hp'
    (show p ≤ x - c.length + 1 by omega)
  have h₃ := h (x - c.length) (by omega) (by omega)
  rw [show x - c.length + c.length = x by omega] at h₁
  rw [show x - c.length + 1 + c.length = x + 1 by omega] at h₂
  omega

theorem Uniform.deleteRange_before {d e : Nat} (h : Uniform w l a b s)
    (hd : d ≤ l.length + 1) (hb : b ≤ d) : Uniform w (deleteRange l d e) a b s := by
  intro x hx hx'
  rw [bytePos_deleteRange_before hd (by omega), bytePos_deleteRange_before hd (by omega)]
  exact h x hx hx'

theorem Uniform.deleteRange_after {d e : Nat} (h : Uniform w l a b s) (hd : 1 ≤ d)
    (hde : d ≤ e) (he : e ≤ l.length + 1) (ha : e ≤ a) :
    Uniform w (deleteRange l d e) (a - (e - d)) (b - (e - d)) s := by
  intro x hx hx'
  have h₁ := bytePos_deleteRange_after (w := w) hd hde he
    (show e ≤ x + (e - d) by omega)
  have h₂ := bytePos_deleteRange_after (w := w) hd hde he
    (show e ≤ x + (e - d) + 1 by omega)
  have h₃ := h (x + (e - d)) (by omega) (by omega)
  rw [show x + (e - d) - (e - d) = x by omega] at h₁
  rw [show x + (e - d) + 1 - (e - d) = x + 1 by omega] at h₂
  omega

end Uniform

end BytePositions
