import XEmacs.Lib.CInts
import XEmacs.Lib.Runs
import Mathlib.Tactic.Ring

/-!
# Resizing a tree of windows

`set_window_pixsize` (`window.c`) gives a window a new height or width and resizes its children
with it. Children side by side across the direction of the change take the new size and the
origin of the window.
-/

namespace XEmacs.Windows

open CInts Option

/-! ## Windows -/

/-- The position and size of a window, in pixels. -/
structure Pix where
  left : ℤ
  top : ℤ
  width : ℤ
  height : ℤ
deriving DecidableEq

/-- `WINDOW_TOP` or `WINDOW_LEFT`. -/
def Pix.origin (p : Pix) : (setHeight : Bool) → ℤ
  | true => p.top
  | false => p.left

/-- `WINDOW_HEIGHT` or `WINDOW_WIDTH`. -/
def Pix.size (p : Pix) : (setHeight : Bool) → ℤ
  | true => p.height
  | false => p.width

def Pix.setOrigin (p : Pix) (x : ℤ) : (setHeight : Bool) → Pix
  | true => { p with top := x }
  | false => { p with left := x }

def Pix.setSize (p : Pix) (x : ℤ) : (setHeight : Bool) → Pix
  | true => { p with height := x }
  | false => { p with width := x }

/-- What `set_window_pixsize` reads of a `struct window`. At most one of `hchild` and `vchild` is
a window: `vertical` says that the children hang from `vchild`. -/
structure Window where
  id : ℕ
  pix : Pix
  vertical : Bool
deriving DecidableEq

/-- A child with its own children and with its `next` children. -/
inductive Siblings
  | nil
  | child (w : Window) (children next : Siblings)
deriving DecidableEq

def Siblings.isNil : Siblings → Bool
  | .nil => true
  | .child _ _ _ => false

/-- A window and its children. -/
structure WindowTree where
  window : Window
  children : Siblings
deriving DecidableEq

/-- `default_face_height_and_width`: the height or the width of the default face's font in each
window, which are of the type `unsigned short`. -/
abbrev Faces := ℕ → (setHeight : Bool) → ℕ

/-! ## The source's functions -/

/-- `(((old_pos * new_pixsize) << 1) + old_pixsize) / div_val`; none is a division by zero. -/
def scaledPos (oldPos newPixsize oldPixsize : ℤ) : Option ℤ :=
  let divVal := cint (oldPixsize * 2)
  if divVal = 0 then none
  else some ((cint (cint (cint (oldPos * newPixsize) * 2) + oldPixsize)).tdiv divVal)

/-- `(pos / line_size) * line_size`. -/
def wholeLines (pos : ℤ) (lineSize : ℕ) : Option ℤ :=
  if lineSize = 0 then none else some (pos.tdiv lineSize * lineSize)

/-- The loop over the children of a window, with its variables: over the minor kids, which take
the origin and the size of the window, or over the major kids. -/
inductive Loop
  | minor (origin newPixsize : ℤ)
  | major (first lastPos lastOldPos newPixsize oldPixsize : ℤ) (lineSize : ℕ)

/-- What a round of a loop gives its child, and the loop after it. -/
structure Round where
  origin : ℤ
  pixsize : ℤ
  loop : Loop

/-- A round of a loop for a child of the given size. -/
def Loop.round (loop : Loop) (childSize : ℤ) (isLast : Bool) : Option Round :=
  match loop with
  | .minor origin newPixsize => some ⟨origin, newPixsize, loop⟩
  | .major first lastPos lastOldPos newPixsize oldPixsize lineSize =>
    let oldPos := cint (lastOldPos + childSize)
    (scaledPos oldPos newPixsize oldPixsize).bind fun scaled =>
      -- all but the last window have a multiple of the line size
      (if isLast then some scaled else wholeLines scaled lineSize).map fun pos =>
        ⟨lastPos, cint (cint (pos + first) - lastPos),
          .major first (cint (pos + first)) oldPos newPixsize oldPixsize lineSize⟩

/-- The loop `set_window_pixsize` starts over the children of `w`, which has its old size. -/
def Loop.start (faces : Faces) (setHeight : Bool) (newPixsize : ℤ) (w : Window) : Loop :=
  if w.vertical = setHeight then
    .major (w.pix.origin setHeight) (w.pix.origin setHeight) 0 newPixsize
      (w.pix.size setHeight) (faces w.id setHeight)
  else .minor (w.pix.origin setHeight) newPixsize

/-- A loop over children; `set_window_pixsize` for a child is its origin, the loop over its own
children, and its new size. -/
def setKids (faces : Faces) (setHeight : Bool) : Loop → Siblings → Option Siblings
  | _, .nil => some .nil
  | loop, .child w children next =>
    (loop.round (w.pix.size setHeight) next.isNil).bind fun r =>
      let w' := { w with pix := w.pix.setOrigin r.origin setHeight }
      (setKids faces setHeight (.start faces setHeight r.pixsize w') children).bind
        fun children' =>
          (setKids faces setHeight r.loop next).map fun next' =>
            .child { w' with pix := w'.pix.setSize r.pixsize setHeight } children' next'

/-- `set_window_pixsize` with NODELETE set; none is a division by zero. -/
def setWindowPixsize (faces : Faces) (newPixsize : ℤ) (setHeight : Bool) (t : WindowTree) :
    Option WindowTree :=
  (setKids faces setHeight (.start faces setHeight newPixsize t.window) t.children).map
    fun children => ⟨{ t.window with pix := t.window.pix.setSize newPixsize setHeight }, children⟩

/-! ## Tilings -/

/-- From the position `pos` on, the windows abut in order along `v` up to the end of the
rectangle `p`, share its origin and size across, and have children that tile them in turn. -/
def Tile (v : Bool) (p : Pix) : ℤ → Siblings → Prop
  | pos, .nil => pos = p.origin v + p.size v
  | pos, .child w children next =>
    w.pix.origin v = pos ∧ 0 ≤ w.pix.size v ∧
    w.pix.origin (!v) = p.origin (!v) ∧ w.pix.size (!v) = p.size (!v) ∧
    (children = .nil ∨ Tile w.vertical w.pix (w.pix.origin w.vertical) children) ∧
    Tile v p (pos + w.pix.size v) next

/-- The children of every combination tile it, and no size is negative. -/
structure WindowTree.Tiled (t : WindowTree) : Prop where
  sizes : ∀ setHeight, 0 ≤ t.window.pix.size setHeight
  tile : t.children = .nil ∨
    Tile t.window.vertical t.window.pix (t.window.pix.origin t.window.vertical) t.children

/-! ## What a call needs -/

/-- `P` holds of every one of the windows with its children, and of all below. -/
def Siblings.Each (P : Window → Siblings → Prop) : Siblings → Prop
  | .nil => True
  | .child w children next => P w children ∧ children.Each P ∧ next.Each P

def WindowTree.Each (P : Window → Siblings → Prop) (t : WindowTree) : Prop :=
  P t.window t.children ∧ t.children.Each P

instance decidableSiblingsEach {P : Window → Siblings → Prop} [∀ w ws, Decidable (P w ws)] :
    ∀ ws : Siblings, Decidable (ws.Each P)
  | .nil => isTrue trivial
  | .child _ children next =>
    have := decidableSiblingsEach (P := P) children
    have := decidableSiblingsEach (P := P) next
    instDecidableAnd

instance {P : Window → Siblings → Prop} [∀ w ws, Decidable (P w ws)] (t : WindowTree) :
    Decidable (t.Each P) :=
  instDecidableAnd

/-- There is no second one. -/
def Siblings.AtMostOne : Siblings → Prop
  | .nil => True
  | .child _ _ next => next = .nil

instance : ∀ ws : Siblings, Decidable ws.AtMostOne
  | .nil => isTrue trivial
  | .child _ _ next => inferInstanceAs (Decidable (next = .nil))

/-- A call of `set_window_pixsize` on the root, with a positive size. -/
structure Call where
  faces : Faces
  setHeight : Bool
  newPixsize : ℤ
  positive : 0 < newPixsize

/-- The divisors of the loop over the children of `w` are not zero: the window has a size, and its
font has one if there is a position to round down. -/
def Divisible (faces : Faces) (setHeight : Bool) (w : Window) (children : Siblings) : Prop :=
  w.vertical = setHeight → children ≠ .nil →
    w.pix.size setHeight ≠ 0 ∧ (children.AtMostOne ∨ faces w.id setHeight ≠ 0)

instance (faces : Faces) (setHeight : Bool) (w : Window) (children : Siblings) :
    Decidable (Divisible faces setHeight w children) :=
  inferInstanceAs (Decidable (_ → _ → _))

/-- The products and the positions of a call fit an `int`; `size` and `origin` are those of the
root. -/
structure Fits (size origin newPixsize : ℤ) : Prop where
  product : 2 * (size * newPixsize) + size < 2 ^ 31
  low : -(2 ^ 31) ≤ origin
  high : origin + newPixsize < 2 ^ 31

instance (size origin newPixsize : ℤ) : Decidable (Fits size origin newPixsize) :=
  decidable_of_iff (2 * (size * newPixsize) + size < 2 ^ 31 ∧ -(2 ^ 31) ≤ origin ∧
    origin + newPixsize < 2 ^ 31) ⟨fun h => ⟨h.1, h.2.1, h.2.2⟩, fun h => ⟨h.1, h.2, h.3⟩⟩

/-- A call divides by no zero, and where there is a combination to resize, it does not overflow. -/
def Resizable (t : WindowTree) (c : Call) : Prop :=
  t.Each fun w children => Divisible c.faces c.setHeight w children ∧
    (w.vertical = c.setHeight → children ≠ .nil →
      Fits (t.window.pix.size c.setHeight) (t.window.pix.origin c.setHeight) c.newPixsize)

instance (t : WindowTree) (c : Call) : Decidable (Resizable t c) :=
  inferInstanceAs (Decidable (t.Each _))

def resizeStep (t : WindowTree) (c : Call) : Option WindowTree :=
  setWindowPixsize c.faces c.newPixsize c.setHeight t

/-! ## Positions in proportion -/

/-- An old position in proportion to the new size. -/
def scaled (old new x : ℤ) : ℤ := (2 * (x * new) + old) / (2 * old)

/-- The new position that follows the old position `x`: in proportion for the end of the last
window, in whole lines for the others. -/
def newPos (old new : ℤ) (lineSize : ℕ) (isLast : Bool) (x : ℤ) : ℤ :=
  if isLast then scaled old new x else scaled old new x / lineSize * lineSize

section Positions

variable {old new x y : ℤ} (lineSize : ℕ) (isLast : Bool)

theorem scaled_mono (hold : 0 < old) (hnew : 0 ≤ new) (hxy : x ≤ y) :
    scaled old new x ≤ scaled old new y := by
  refine Int.ediv_le_ediv (by omega) ?_
  have := mul_le_mul_of_nonneg_right hxy hnew
  omega

theorem scaled_zero (hold : 0 < old) : scaled old new 0 = 0 :=
  Int.ediv_eq_zero_of_lt (by omega) (by omega)

theorem scaled_self (hold : 0 < old) : scaled old new old = new := by
  have hsum : 2 * (old * new) + old = old + new * (2 * old) := by ring
  rw [scaled, hsum, Int.add_mul_ediv_right _ _ (by omega),
    Int.ediv_eq_zero_of_lt (by omega) (by omega), Int.zero_add]

theorem scaled_nonneg (hold : 0 < old) (hnew : 0 ≤ new) (hx : 0 ≤ x) : 0 ≤ scaled old new x := by
  have := scaled_mono hold hnew hx
  rwa [scaled_zero hold] at this

theorem newPos_le_scaled (hold : 0 < old) (hnew : 0 ≤ new) (hx : 0 ≤ x) :
    newPos old new lineSize isLast x ≤ scaled old new x := by
  cases isLast with
  | true => exact le_rfl
  | false =>
    obtain hl | hl := Nat.eq_zero_or_pos lineSize
    · simpa [newPos, hl] using scaled_nonneg hold hnew hx
    · exact Int.ediv_mul_le _ (by omega)

theorem newPos_nonneg (hold : 0 < old) (hnew : 0 ≤ new) (hx : 0 ≤ x) :
    0 ≤ newPos old new lineSize isLast x := by
  have hs := scaled_nonneg hold hnew hx
  cases isLast with
  | true => exact hs
  | false => exact Int.mul_nonneg (Int.ediv_nonneg hs (by omega)) (by omega)

theorem newPos_mono (hold : 0 < old) (hnew : 0 ≤ new) (hx : 0 ≤ x) (hxy : x ≤ y) :
    newPos old new lineSize false x ≤ newPos old new lineSize isLast y := by
  have hs := scaled_mono hold hnew hxy
  cases isLast with
  | true => exact (newPos_le_scaled lineSize false hold hnew hx).trans hs
  | false =>
    obtain hl | hl := Nat.eq_zero_or_pos lineSize
    · simp [newPos, hl]
    · exact mul_le_mul_of_nonneg_right (Int.ediv_le_ediv (by omega) hs) (by omega)

theorem newPos_le (hold : 0 < old) (hnew : 0 ≤ new) (hx : 0 ≤ x) (hxold : x ≤ old) :
    newPos old new lineSize isLast x ≤ new :=
  (newPos_le_scaled lineSize isLast hold hnew hx).trans
    ((scaled_mono hold hnew hxold).trans_eq (scaled_self hold))

theorem newPos_zero (hold : 0 < old) : newPos old new lineSize false 0 = 0 := by
  simp [newPos, scaled_zero hold]

theorem newPos_last (hold : 0 < old) : newPos old new lineSize true old = new := scaled_self hold

end Positions

/-! ## One round of a loop -/

theorem scaledPos_eq {old new x size n origin : ℤ} (hfits : Fits size origin n) (hn : 0 < n)
    (hold : 0 < old) (holdsize : old ≤ size) (hnew : 0 ≤ new) (hnewn : new ≤ n) (hx : 0 ≤ x)
    (hxold : x ≤ old) : scaledPos x new old = some (scaled old new x) := by
  have hprod := hfits.product
  have hxn : x * new ≤ size * n := mul_le_mul (hxold.trans holdsize) hnewn hnew (by omega)
  have hx0 : 0 ≤ x * new := Int.mul_nonneg hx hnew
  have hsn : size ≤ size * n := le_mul_of_one_le_right (by omega) (by omega)
  have hdiv : cint (old * 2) = 2 * old := by
    rw [cint_of_fits (by omega) (by omega), Int.mul_comm]
  have h1 : cint (x * new) = x * new := cint_of_fits (by omega) (by omega)
  have h2 : cint (x * new * 2) = 2 * (x * new) := by
    rw [cint_of_fits (by omega) (by omega), Int.mul_comm]
  have h3 : cint (2 * (x * new) + old) = 2 * (x * new) + old :=
    cint_of_fits (by omega) (by omega)
  rw [scaledPos, hdiv, if_neg (by omega), h1, h2, h3,
    Int.tdiv_eq_ediv_of_nonneg (by omega), scaled]

theorem wholeLines_eq {pos : ℤ} {lineSize : ℕ} (hpos : 0 ≤ pos) (hl : lineSize ≠ 0) :
    wholeLines pos lineSize = some (pos / lineSize * lineSize) := by
  rw [wholeLines, if_neg hl, Int.tdiv_eq_ediv_of_nonneg hpos]

/-- A round over the major kids puts the child after the last position and ends it at the next
one. -/
theorem round_major {first old new x size n origin childSize : ℤ} {lineSize : ℕ} {isLast : Bool}
    (hfits : Fits size origin n) (hn : 0 < n) (hold : 0 < old) (holdsize : old ≤ size)
    (hnew : 0 ≤ new) (hfirst : origin ≤ first) (hend : first + new ≤ origin + n) (hx : 0 ≤ x)
    (hc : 0 ≤ childSize) (hxold : x + childSize ≤ old) (hl : isLast = true ∨ lineSize ≠ 0) :
    (Loop.major first (first + newPos old new lineSize false x) x new old lineSize).round
        childSize isLast =
      some ⟨first + newPos old new lineSize false x,
        newPos old new lineSize isLast (x + childSize) - newPos old new lineSize false x,
        .major first (first + newPos old new lineSize isLast (x + childSize)) (x + childSize)
          new old lineSize⟩ := by
  have hprod := hfits.product
  have hlow := hfits.low
  have hhigh := hfits.high
  have hsn : size ≤ size * n := le_mul_of_one_le_right (by omega) (by omega)
  have hns : n ≤ size * n := le_mul_of_one_le_left (by omega) (by omega)
  have holdPos : cint (x + childSize) = x + childSize := cint_of_fits (by omega) (by omega)
  have hscaled := scaledPos_eq hfits hn hold holdsize hnew (by omega) (by omega) hxold
  -- the positions are within the window
  have hlast0 := newPos_nonneg lineSize false hold hnew hx
  have hpos0 := newPos_nonneg lineSize isLast hold hnew
    (Int.add_nonneg hx hc)
  have hposnew := newPos_le lineSize isLast hold hnew
    (Int.add_nonneg hx hc) hxold
  have hmono := newPos_mono lineSize isLast hold hnew hx
    (Int.le_add_of_nonneg_right hc)
  have hpos : (if isLast then some (scaled old new (x + childSize))
      else wholeLines (scaled old new (x + childSize)) lineSize) =
      some (newPos old new lineSize isLast (x + childSize)) := by
    cases isLast with
    | true => rfl
    | false =>
      have hl' : lineSize ≠ 0 := hl.resolve_left (by decide)
      exact wholeLines_eq (scaled_nonneg hold hnew (Int.add_nonneg hx hc)) hl'
  have hsum : cint (newPos old new lineSize isLast (x + childSize) + first) =
      first + newPos old new lineSize isLast (x + childSize) := by
    rw [cint_of_fits (by omega) (by omega), Int.add_comm]
  have hdiff : cint (first + newPos old new lineSize isLast (x + childSize) -
      (first + newPos old new lineSize false x)) =
      newPos old new lineSize isLast (x + childSize) - newPos old new lineSize false x := by
    rw [cint_of_fits (by omega) (by omega)]
    omega
  simp only [Loop.round, holdPos, hscaled, bind_some, hpos, map_some, hsum, hdiff]

/-! ## The loops keep the tiling -/

section Tiling

variable {faces : Faces} {sh v e : Bool} {p p' : Pix} {size n origin pos pos' : ℤ}
  {ws children next : Siblings} {loop : Loop} {w : Window}

@[simp]
theorem origin_setOrigin (p : Pix) (x : ℤ) : (p.setOrigin x sh).origin sh = x := by
  cases sh <;> rfl

@[simp]
theorem origin_not_setOrigin (p : Pix) (x : ℤ) :
    (p.setOrigin x sh).origin (!sh) = p.origin (!sh) := by
  cases sh <;> rfl

@[simp]
theorem size_setOrigin (p : Pix) (x : ℤ) : (p.setOrigin x sh).size v = p.size v := by
  cases sh <;> cases v <;> rfl

@[simp]
theorem size_setSize (p : Pix) (x : ℤ) : (p.setSize x sh).size sh = x := by
  cases sh <;> rfl

@[simp]
theorem size_not_setSize (p : Pix) (x : ℤ) : (p.setSize x sh).size (!sh) = p.size (!sh) := by
  cases sh <;> rfl

@[simp]
theorem origin_setSize (p : Pix) (x : ℤ) : (p.setSize x sh).origin v = p.origin v := by
  cases sh <;> cases v <;> rfl

theorem Tile.le (h : Tile v p pos ws) : pos ≤ p.origin v + p.size v := by
  induction ws generalizing pos with
  | nil => exact le_of_eq h
  | child w children next _ ih =>
    obtain ⟨-, hsize, -, -, -, hnext⟩ := h
    have := ih hnext
    omega

/-- A loop in the window `p` that is to become `p'`, before a child at `pos` of the old tiling,
which is to come to `pos'`; `e` says that there is no child left. -/
inductive LoopAt (sh : Bool) (p p' : Pix) (lineSize : ℕ) : Bool → Bool → ℤ → ℤ → Loop → Prop
  | minor {v e : Bool} {pos : ℤ} (hv : v = !sh) :
    LoopAt sh p p' lineSize v e pos pos (.minor (p'.origin sh) (p'.size sh))
  | major {v e : Bool} {x : ℤ} (hv : v = sh) (hx : 0 ≤ x) :
    LoopAt sh p p' lineSize v e (p.origin sh + x)
      (p'.origin sh + newPos (p.size sh) (p'.size sh) lineSize e x)
      (.major (p'.origin sh) (p'.origin sh + newPos (p.size sh) (p'.size sh) lineSize e x) x
        (p'.size sh) (p.size sh) lineSize)

/-- A window inside the root before and after the call, and unchanged across. -/
structure Inside (sh : Bool) (size origin n : ℤ) (p p' : Pix) : Prop where
  nonneg : ∀ v, 0 ≤ p.size v
  le_size : p.size sh ≤ size
  new_nonneg : 0 ≤ p'.size sh
  le_origin : origin ≤ p'.origin sh
  le_end : p'.origin sh + p'.size sh ≤ origin + n
  origin_across : p'.origin (!sh) = p.origin (!sh)
  size_across : p'.size (!sh) = p.size (!sh)

/-- What the loop over the children of a combination along the direction needs. -/
def MajorOk (sh : Bool) (size origin n : ℤ) (p : Pix) (lineSize : ℕ) (ws : Siblings) : Prop :=
  p.size sh ≠ 0 ∧ (ws.AtMostOne ∨ lineSize ≠ 0) ∧ Fits size origin n

/-- The window of a child after a round. -/
def Round.pix (r : Round) (sh : Bool) (p : Pix) : Pix :=
  (p.setOrigin r.origin sh).setSize r.pixsize sh

/-- **A round** gives the child a place in the new tiling, and is ready for the next child. -/
theorem LoopAt.round {lineSize : ℕ} (hn : 0 < n) (h : LoopAt sh p p' lineSize v false pos pos' loop)
    (hp : Inside sh size origin n p p') (hw : Tile v p pos (.child w children next))
    (hok : v = sh → MajorOk sh size origin n p lineSize (.child w children next)) :
    ∃ r, loop.round (w.pix.size sh) next.isNil = some r ∧
      Inside sh size origin n w.pix (r.pix sh w.pix) ∧
      (r.pix sh w.pix).origin v = pos' ∧
      (r.pix sh w.pix).origin (!v) = p'.origin (!v) ∧
      (r.pix sh w.pix).size (!v) = p'.size (!v) ∧
      LoopAt sh p p' lineSize v next.isNil (pos + w.pix.size v)
        (pos' + (r.pix sh w.pix).size v) r.loop := by
  obtain ⟨horigin, hsize, horigin', hsize', -, hnext⟩ := hw
  have hend := hnext.le
  have hp_across : 0 ≤ w.pix.size (!v) := by
    rw [hsize']
    exact hp.nonneg _
  cases h with
  | minor hv =>
    subst hv
    simp only [Bool.not_not] at *
    refine ⟨_, rfl, ?_, ?_, ?_, ?_, ?_⟩
    · constructor
      · intro u
        obtain rfl | rfl : u = sh ∨ u = !sh := by cases u <;> cases sh <;> simp
        · exact hp_across
        · exact hsize
      · exact hsize'.trans_le hp.le_size
      · simpa [Round.pix] using hp.new_nonneg
      · simpa [Round.pix] using hp.le_origin
      · simpa [Round.pix] using hp.le_end
      · simp [Round.pix]
      · simp [Round.pix]
    · simp [Round.pix, horigin]
    · simp [Round.pix]
    · simp [Round.pix]
    · simp only [Round.pix, size_not_setSize, size_setOrigin]
      exact .minor rfl
  | @major x hv hx =>
    subst hv
    obtain ⟨hsize0, hline, hfits⟩ := hok rfl
    have hold : 0 < p.size v := lt_of_le_of_ne (hp.nonneg v) hsize0.symm
    have hl : next.isNil = true ∨ lineSize ≠ 0 :=
      hline.imp_left fun hnil => by rw [show next = .nil from hnil]; rfl
    have hround := round_major hfits hn hold hp.le_size hp.new_nonneg
      hp.le_origin hp.le_end hx hsize (by omega) hl
    have hmono := newPos_mono lineSize next.isNil hold hp.new_nonneg hx
      (Int.le_add_of_nonneg_right hsize)
    have hfirst := newPos_nonneg lineSize false hold hp.new_nonneg hx
    have hlast := newPos_le lineSize next.isNil hold hp.new_nonneg
      (Int.add_nonneg hx hsize) (by omega)
    have hle := hp.le_end
    have hge := hp.le_origin
    have holdsize := hp.le_size
    refine ⟨_, hround, ?_, ?_, ?_, ?_, ?_⟩
    · constructor
      · intro u
        obtain rfl | rfl : u = v ∨ u = !v := by cases u <;> cases v <;> simp
        · exact hsize
        · exact hp_across
      · omega
      · simp only [Round.pix, size_setSize]
        omega
      · simp only [Round.pix, origin_setSize, origin_setOrigin]
        omega
      · simp only [Round.pix, origin_setSize, origin_setOrigin, size_setSize]
        omega
      · simp [Round.pix]
      · simp [Round.pix]
    · simp [Round.pix]
    · simpa [Round.pix, hp.origin_across] using horigin'
    · simpa [Round.pix, hp.size_across] using hsize'
    · simp only [Round.pix, size_setSize]
      have hsum : ∀ a b c : ℤ, a + b + (c - b) = a + c := by omega
      rw [Int.add_assoc, hsum]
      exact .major rfl (Int.add_nonneg hx hsize)

theorem LoopAt.start {newPixsize : ℤ} (horigin : w.pix.origin sh = p'.origin sh)
    (hsize : w.pix.size sh = p.size sh) (hacross : p'.origin (!sh) = p.origin (!sh))
    (hnew : p'.size sh = newPixsize) (hpos : w.vertical = sh → 0 < p.size sh) :
    LoopAt sh p p' (faces w.id sh) w.vertical false (p.origin w.vertical) (p'.origin w.vertical)
      (.start faces sh newPixsize w) := by
  subst hnew
  by_cases hv : w.vertical = sh
  · subst hv
    have hstart : p'.origin w.vertical = p'.origin w.vertical +
        newPos (p.size w.vertical) (p'.size w.vertical) (faces w.id w.vertical) false 0 := by
      rw [newPos_zero _ (hpos rfl), Int.add_zero]
    rw [Loop.start, if_pos rfl, horigin, hsize, ← Int.add_zero (p.origin w.vertical)]
    nth_rewrite 1 3 [hstart]
    exact .major rfl (le_refl 0)
  · have hv' : w.vertical = !sh := by
      cases hw : w.vertical <;> cases sh <;> simp_all
    rw [Loop.start, if_neg hv, hv', hacross, horigin]
    exact .minor rfl

theorem Siblings.isNil_of_ne (h : ws ≠ .nil) : ws.isNil = false := by
  cases ws with
  | nil => exact absurd rfl h
  | child _ _ _ => rfl

@[simp]
theorem setKids_nil : setKids faces sh loop .nil = some .nil := by
  cases loop <;> rfl

/-- What a call needs of a window with its children, where the root has the given size and
origin. -/
abbrev Needs (faces : Faces) (sh : Bool) (size origin n : ℤ) (w : Window) (children : Siblings) :
    Prop :=
  Divisible faces sh w children ∧ (w.vertical = sh → children ≠ .nil → Fits size origin n)

theorem Needs.majorOk (h : Needs faces sh size origin n w children) (hsome : children ≠ .nil)
    (hv : w.vertical = sh) : MajorOk sh size origin n w.pix (faces w.id sh) children :=
  ⟨(h.1 hv hsome).1, (h.1 hv hsome).2, h.2 hv hsome⟩

/-- **The loop over the children** ends and makes a tiling of the window's new rectangle. The
induction goes over the children, each with its own children first. -/
theorem setKids_tile {lineSize : ℕ} (hn : 0 < n)
    (hloop : LoopAt sh p p' lineSize v ws.isNil pos pos' loop) (hp : Inside sh size origin n p p')
    (hws : Tile v p pos ws) (hok : v = sh → MajorOk sh size origin n p lineSize ws)
    (heach : ws.Each (Needs faces sh size origin n)) :
    ∃ ws', setKids faces sh loop ws = some ws' ∧ Tile v p' pos' ws' := by
  induction ws generalizing loop v p p' pos pos' lineSize with
  | nil =>
    refine ⟨.nil, setKids_nil, ?_⟩
    cases hloop with
    | minor hv =>
      subst hv
      rw [Tile, hp.origin_across, hp.size_across]
      exact hws
    | @major x hv hx =>
      subst hv
      obtain ⟨hsize0, -, -⟩ := hok rfl
      have hold : 0 < p.size v := lt_of_le_of_ne (hp.nonneg v) hsize0.symm
      have hx : x = p.size v := Int.add_left_cancel hws
      rw [Tile, hx]
      exact congrArg _ (newPos_last lineSize hold)
  | child w children next ihchildren ihnext =>
    obtain ⟨hneeds, hchildren, hnext⟩ := heach
    obtain ⟨r, hround, hinside, horigin, horigin', hsize', hloop'⟩ := hloop.round hn hp hws hok
    obtain ⟨-, hsize, -, -, hkids, htile⟩ := hws
    -- the children of the child
    have hkids' : ∃ children', setKids faces sh
        (.start faces sh r.pixsize { w with pix := w.pix.setOrigin r.origin sh }) children =
          some children' ∧
        (children' = .nil ∨ Tile w.vertical (r.pix sh w.pix)
          ((r.pix sh w.pix).origin w.vertical) children') := by
      by_cases hsome : children = .nil
      · rw [hsome]
        exact ⟨.nil, setKids_nil, .inl rfl⟩
      · have hpos : w.vertical = sh → 0 < w.pix.size sh :=
          fun hv => lt_of_le_of_ne (hinside.nonneg sh) (hneeds.1 hv hsome).1.symm
        have hstart : LoopAt sh w.pix (r.pix sh w.pix) (faces w.id sh) w.vertical children.isNil
            (w.pix.origin w.vertical) ((r.pix sh w.pix).origin w.vertical)
            (.start faces sh r.pixsize { w with pix := w.pix.setOrigin r.origin sh }) := by
          rw [Siblings.isNil_of_ne hsome]
          exact LoopAt.start (w := { w with pix := w.pix.setOrigin r.origin sh })
            (by simp [Round.pix]) (size_setOrigin _ _) hinside.origin_across (size_setSize _ _) hpos
        obtain ⟨children', hset, htile'⟩ := ihchildren hstart hinside (hkids.resolve_left hsome)
          (hneeds.majorOk hsome) hchildren
        exact ⟨children', hset, .inr htile'⟩
    obtain ⟨children', hset, hdone⟩ := hkids'
    -- the next children
    have hokNext : v = sh → MajorOk sh size origin n p lineSize next := by
      intro hv
      obtain ⟨h0, hline, hfits⟩ := hok hv
      refine ⟨h0, hline.imp_left fun hnil => ?_, hfits⟩
      rw [show next = .nil from hnil]
      trivial
    obtain ⟨next', hsetNext, htileNext⟩ := ihnext hloop' hp htile hokNext hnext
    refine ⟨.child { w with pix := r.pix sh w.pix } children' next', ?_, ?_⟩
    · simp only [setKids, hround, bind_some, hset, hsetNext, map_some, Round.pix]
    · refine ⟨horigin, ?_, horigin', hsize', hdone, htileNext⟩
      obtain rfl | rfl : v = sh ∨ v = !sh := by cases v <;> cases sh <;> simp
      · exact hinside.new_nonneg
      · rw [hinside.size_across]
        exact hsize

end Tiling

/-! ## Runs of calls -/

theorem tiled_resizeStep {t : WindowTree} {c : Call} (h : t.Tiled) (hc : Resizable t c) :
    ∃ t', resizeStep t c = some t' ∧ t'.Tiled := by
  obtain ⟨hsizes, htile⟩ := h
  obtain ⟨hroot, heach⟩ := hc
  have hnew := c.positive
  have hsizes' : ∀ v, 0 ≤ (t.window.pix.setSize c.newPixsize c.setHeight).size v := by
    intro v
    obtain rfl | rfl : v = c.setHeight ∨ v = !c.setHeight := by
      cases v <;> cases c.setHeight <;> simp
    · rw [size_setSize]
      exact hnew.le
    · rw [size_not_setSize]
      exact hsizes _
  by_cases hsome : t.children = .nil
  · refine ⟨{ t with window.pix := t.window.pix.setSize c.newPixsize c.setHeight }, ?_, hsizes',
      .inl hsome⟩
    rw [resizeStep, setWindowPixsize, hsome, setKids_nil, map_some]
  · have hinside : Inside c.setHeight (t.window.pix.size c.setHeight)
        (t.window.pix.origin c.setHeight) c.newPixsize t.window.pix
        (t.window.pix.setSize c.newPixsize c.setHeight) := by
      constructor
      · exact hsizes
      · exact le_rfl
      · exact hsizes' _
      · rw [origin_setSize]
      · rw [origin_setSize, size_setSize]
      · rw [origin_setSize]
      · rw [size_not_setSize]
    have hpos : t.window.vertical = c.setHeight → 0 < t.window.pix.size c.setHeight :=
      fun hv => lt_of_le_of_ne (hsizes _) (hroot.1 hv hsome).1.symm
    have hstart : LoopAt c.setHeight t.window.pix
        (t.window.pix.setSize c.newPixsize c.setHeight) (c.faces t.window.id c.setHeight)
        t.window.vertical t.children.isNil (t.window.pix.origin t.window.vertical)
        ((t.window.pix.setSize c.newPixsize c.setHeight).origin t.window.vertical)
        (.start c.faces c.setHeight c.newPixsize t.window) := by
      rw [Siblings.isNil_of_ne hsome]
      exact .start (origin_setSize _ _).symm rfl (origin_setSize _ _) (size_setSize _ _) hpos
    obtain ⟨children', hset, htile'⟩ :=
      setKids_tile hnew hstart hinside (htile.resolve_left hsome) (Needs.majorOk hroot hsome) heach
    refine ⟨⟨{ t.window with pix := t.window.pix.setSize c.newPixsize c.setHeight }, children'⟩,
      ?_, hsizes', .inr htile'⟩
    rw [resizeStep, setWindowPixsize, hset, map_some]

/-- **Resizing keeps the window tree tiled**: in a run of calls that each find what they need, every
call ends and leaves a tiling in which no size is negative. -/
theorem resizes_keep_tiled {t : WindowTree} (h : t.Tiled) {calls : List Call}
    (hcalls : Runs.StepsMeet resizeStep Resizable t calls) :
    Runs.Always resizeStep WindowTree.Tiled t calls :=
  .of_step (fun _ _ ht hc => tiled_resizeStep ht hc) h hcalls

/-- A frame of 40 pixels: above, a window beside a combination of two windows one above the
other; below, a window. -/
def threeRows : WindowTree where
  window := ⟨0, ⟨0, 0, 80, 40⟩, true⟩
  children :=
    .child ⟨1, ⟨0, 0, 80, 20⟩, false⟩
      (.child ⟨2, ⟨0, 0, 40, 20⟩, true⟩
        (.child ⟨3, ⟨0, 0, 40, 10⟩, true⟩ .nil (.child ⟨4, ⟨0, 10, 40, 10⟩, true⟩ .nil .nil))
        (.child ⟨5, ⟨40, 0, 40, 20⟩, true⟩ .nil .nil))
      (.child ⟨6, ⟨0, 20, 80, 20⟩, true⟩ .nil .nil)

theorem threeRows_tiled : threeRows.Tiled where
  sizes := by decide
  tile := by simp [threeRows, Tile, Pix.origin, Pix.size]

/-- A height that leaves the upper row a line, and back. -/
theorem threeRows_keep_tiled :
    Runs.Always resizeStep WindowTree.Tiled threeRows
      [⟨fun _ _ => 10, true, 25, by decide⟩, ⟨fun _ _ => 10, true, 40, by decide⟩] :=
  resizes_keep_tiled threeRows_tiled (by decide)

/-- A height below a line leaves the upper row nothing; the combination in it has the height
zero, and the next call divides by it. -/
theorem threeRows_trap :
    threeRows.Tiled ∧
      Runs.after resizeStep threeRows
        [⟨fun _ _ => 10, true, 5, by decide⟩, ⟨fun _ _ => 10, true, 40, by decide⟩] = none :=
  ⟨threeRows_tiled, by decide⟩

/-! ## A call that is not met traps -/

section Traps

variable {faces : Faces} {sh : Bool} {loop : Loop}

end Traps

end XEmacs.Windows
