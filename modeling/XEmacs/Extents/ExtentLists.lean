import Mathlib.Data.Int.Order.Basic
import Mathlib.Data.Prod.Lex
import XEmacs.Extents.GapArray
import XEmacs.Lib.KeyedLists

/-!
# Extent lists (extents.c, extents.h)

The extents attached to a buffer or string are kept in two arrays, one in the display order and
one in the e-order.
-/

namespace XEmacs.Extents

open GapArrays KeyedLists List

/-- `struct extent`: the endpoints, which are memory indices and negative if the extent is
detached, and the flags for insertion, deletion and mapping. -/
structure Extent where
  extentStart : Int
  extentEnd : Int
  startOpen : Bool
  endOpen : Bool
  detachable : Bool
  internal : Bool
  deriving DecidableEq

namespace Extent

/-- `extent_detached_p`. -/
def detachedP (e : Extent) : Bool := e.extentStart < 0

/-- `extent_endpoint`. -/
def endpoint (e : Extent) (endp : Bool) : Int := if endp then e.extentEnd else e.extentStart

def less (e1 e2 : Extent) : Bool :=
  e1.extentStart < e2.extentStart ||
    (e1.extentStart == e2.extentStart && e2.extentEnd < e1.extentEnd)

def equal (e1 e2 : Extent) : Bool :=
  e1.extentStart == e2.extentStart && e1.extentEnd == e2.extentEnd

def eLess (e1 e2 : Extent) : Bool :=
  e1.extentEnd < e2.extentEnd ||
    (e1.extentEnd == e2.extentEnd && e2.extentStart < e1.extentStart)

/-- The place of an extent in the display order or, if `endp`, in the e-order. -/
def key (endp : Bool) (e : Extent) : Int ×ₗ Int :=
  if endp then toLex (e.extentEnd, -e.extentStart) else toLex (e.extentStart, -e.extentEnd)

end Extent

/-- `struct extent_list`. -/
structure ExtentList (ι : Type) where
  byStart : TrackedList ι
  byEnd : TrackedList ι

variable {ι : Type}

/-- The array that `endp` says. -/
def ExtentList.array (el : ExtentList ι) (endp : Bool) : TrackedList ι :=
  if endp then el.byEnd else el.byStart

/-- `extent_list_num_els`. -/
def ExtentList.numEls (el : ExtentList ι) : Nat := el.byStart.els.length

def extentListAt (el : ExtentList ι) (pos : Nat) (endp : Bool) : Option ι :=
  (el.array endp).els[pos]?

section locate

variable [DecidableEq ι] (h : ι → Extent)

/-- The second loop of `extent_list_locate`: how many extents equal to `extent` are passed, and
whether `self` is found. -/
def passEqual (extent : Extent) (self : Option ι) : List ι → Nat × Bool
  | [] => (0, false)
  | e :: els =>
    if some e = self then (0, true)
    else if (h e).equal extent then
      ((passEqual extent self els).1 + 1, (passEqual extent self els).2)
    else (0, false)

/-- `extent_list_locate`. The extent that is looked for is `self`, or none in the list. -/
def extentListLocate (el : ExtentList ι) (extent : Extent) (self : Option ι) (endp : Bool) :
    Nat × Bool :=
  let ga := (el.array endp).els
  let left := bisect (fun newpos => ga[newpos]?.elim false fun e =>
    if endp then (h e).eLess extent else (h e).less extent) ga.length 0 ga.length
  -- at the beginning of all equal extents
  let (passed, found) := passEqual h extent self (ga.drop left)
  if found || !endp then (left + passed, found) else (left, found)

/-- `extent_list_locate_from_pos`. Of the fake extent only the endpoints count. -/
def extentListLocateFromPos (el : ExtentList ι) (pos : Int) (endp : Bool) : Nat :=
  let at' := if endp then pos else pos - 1
  (extentListLocate h el ⟨at', at', false, false, false, false⟩ none endp).1

def extentListInsert (el : ExtentList ι) (extent : ι) : Option (ExtentList ι) :=
  let (pos, foundp) := extentListLocate h el (h extent) (some extent) false
  if foundp then none
  else
    let el := { el with byStart := el.byStart.insert pos [extent] }
    let (pos, foundp) := extentListLocate h el (h extent) (some extent) true
    if foundp then none
    else some { el with byEnd := el.byEnd.insert pos [extent] }

def extentListDelete (el : ExtentList ι) (extent : ι) : Option (ExtentList ι) :=
  let (pos, foundp) := extentListLocate h el (h extent) (some extent) false
  if foundp then
    let el := { el with byStart := el.byStart.delete pos 1 }
    let (pos, foundp) := extentListLocate h el (h extent) (some extent) true
    if foundp then some { el with byEnd := el.byEnd.delete pos 1 }
    else none
  else none

end locate

/-! ## The two orders -/

namespace Extent

variable {e e1 e2 : Extent}

theorem key_true (e : Extent) : e.key true = toLex (e.extentEnd, -e.extentStart) := rfl

theorem key_false (e : Extent) : e.key false = toLex (e.extentStart, -e.extentEnd) := rfl

theorem before_iff (endp : Bool) (e1 e2 : Extent) :
    (if endp then e1.eLess e2 else e1.less e2) = true ↔ e1.key endp < e2.key endp := by
  cases endp <;>
    simp [eLess, less, key_true, key_false, Prod.Lex.toLex_lt_toLex]

theorem less_iff : e1.less e2 = true ↔ e1.key false < e2.key false := before_iff false e1 e2

theorem equal_iff (endp : Bool) : e1.equal e2 = true ↔ e1.key endp = e2.key endp := by
  cases endp <;>
    simp [equal, key_true, key_false, and_comm]

theorem key_le_iff (endp : Bool) : e1.key endp ≤ e2.key endp ↔
    e1.endpoint endp < e2.endpoint endp ∨
      e1.endpoint endp = e2.endpoint endp ∧ e2.endpoint (!endp) ≤ e1.endpoint (!endp) := by
  cases endp <;>
    simp [endpoint, key_true, key_false, Prod.Lex.toLex_le_toLex]

theorem key_lt_iff (endp : Bool) : e1.key endp < e2.key endp ↔
    e1.endpoint endp < e2.endpoint endp ∨
      e1.endpoint endp = e2.endpoint endp ∧ e2.endpoint (!endp) < e1.endpoint (!endp) := by
  cases endp <;>
    simp [endpoint, key_true, key_false, Prod.Lex.toLex_lt_toLex]

theorem endpoint_le_of_key_le {endp : Bool} (h : e1.key endp ≤ e2.key endp) :
    e1.endpoint endp ≤ e2.endpoint endp := by
  rcases (key_le_iff endp).mp h with h | h
  · exact Int.le_of_lt h
  · exact Int.le_of_eq h.1

end Extent

/-- The extents of an array by their place in its order. -/
abbrev keyOf (h : ι → Extent) (endp : Bool) (e : ι) : Int ×ₗ Int := (h e).key endp

/-! ## Positions -/

section positions

variable [DecidableEq ι] {h : ι → Extent} {el : ExtentList ι} {extent : Extent} {endp : Bool}

theorem passEqual_of_not_mem {self : Option ι} :
    ∀ {els : List ι}, (∀ e ∈ els, some e ≠ self) →
      passEqual h extent self els = ((els.takeWhile fun e => (h e).equal extent).length, false)
  | [], _ => rfl
  | e :: els, hself => by
    rw [passEqual, if_neg (hself e (mem_cons_self ..)), takeWhile_cons]
    split
    · rw [passEqual_of_not_mem fun e he => hself e (mem_cons_of_mem _ he)]
      rfl
    · rfl

theorem passEqual_of_mem {e : ι} {els' : List ι} :
    ∀ {els : List ι}, e ∉ els → (∀ a ∈ els, (h a).equal extent = true) →
      passEqual h extent (some e) (els ++ e :: els') = (els.length, true)
  | [], _, _ => by rw [nil_append, passEqual, if_pos rfl]; rfl
  | a :: els, he, heq => by
    obtain ⟨hne, he⟩ := not_or.mp (mt List.mem_cons.mpr he)
    rw [cons_append, passEqual, if_neg fun hs => hne (Option.some.inj hs).symm,
      if_pos (heq a (mem_cons_self ..)),
      passEqual_of_mem he fun b hb => heq b (mem_cons_of_mem _ hb)]
    rfl

omit [DecidableEq ι] in
theorem bisect_before (ho : InOrder (keyOf h endp) (el.array endp).els) (extent : Extent) :
    bisect (fun newpos => (el.array endp).els[newpos]?.elim false fun e =>
        if endp then (h e).eLess extent else (h e).less extent)
      (el.array endp).els.length 0 (el.array endp).els.length
      = (el.array endp).els.countP fun e => (h e).key endp < extent.key endp := by
  refine ho.bisect_countP (initial_lt (extent.key endp)) fun i a hi => ?_
  rw [hi, Option.elim_some, Bool.eq_iff_iff, decide_eq_true_eq]
  exact Extent.before_iff endp (h a) extent

omit [DecidableEq ι] in
theorem not_before_of_mem_drop (ho : InOrder (keyOf h endp) (el.array endp).els)
    (extent : Extent) {e : ι} (he : e ∈ (el.array endp).els.drop
      ((el.array endp).els.countP fun e => (h e).key endp < extent.key endp)) :
    extent.key endp ≤ (h e).key endp := by
  rw [ho.drop_countP (initial_lt (extent.key endp)), mem_filter, Bool.not_eq_true',
    decide_eq_false_iff_not, not_lt] at he
  exact he.2

/-- **An extent that is not in the list** would go behind its equals in the display order and
before them in the e-order. -/
theorem locate_of_not_mem (ho : InOrder (keyOf h endp) (el.array endp).els) (extent : Extent)
    {self : Option ι} (hself : ∀ e ∈ (el.array endp).els, some e ≠ self) :
    extentListLocate h el extent self endp =
      (if endp then (el.array endp).els.countP fun e => (h e).key endp < extent.key endp
        else (el.array endp).els.countP fun e => (h e).key endp ≤ extent.key endp, false) := by
  rw [extentListLocate]
  simp only [bisect_before ho extent]
  rw [passEqual_of_not_mem fun e he => hself e (mem_of_mem_drop he)]
  cases endp with
  | true => rfl
  | false =>
    have hequal : ∀ e ∈ (el.array false).els.drop ((el.array false).els.countP fun e =>
          (h e).key false < extent.key false),
        (h e).equal extent = decide ((h e).key false ≤ extent.key false) := by
      intro e he
      rw [Bool.eq_iff_iff, Extent.equal_iff false, decide_eq_true_eq]
      exact ⟨le_of_eq, fun hle => le_antisymm hle (not_before_of_mem_drop ho extent he)⟩
    rw [takeWhile_congr hequal]
    exact congrArg (·, false) (ho.countP_add (initial_lt (extent.key false))
      (initial_le (extent.key false)) fun a ha =>
        decide_eq_true (le_of_lt (of_decide_eq_true ha)))

/-- **An extent in the list** is found. -/
theorem locate_of_mem (ho : InOrder (keyOf h endp) (el.array endp).els) {e : ι}
    (he : e ∈ (el.array endp).els) :
    extentListLocate h el (h e) (some e) endp = ((el.array endp).els.idxOf e, true) := by
  rw [extentListLocate]
  simp only [bisect_before ho (h e)]
  obtain ⟨l₁, l₂, hl, he₁⟩ := eq_append_cons_of_mem he
  have hidx : (el.array endp).els.idxOf e = l₁.length := by
    rw [hl, idxOf_append_of_notMem he₁, idxOf_cons_self, Nat.add_zero]
  have hget : (el.array endp).els[l₁.length]? = some e := by
    rw [hl, getElem?_append_right (Nat.le_refl _), Nat.sub_self]
    rfl
  -- the search stops at the equals of `e`, at `e` at the latest
  have hleft : (el.array endp).els.countP (fun e' => (h e').key endp < (h e).key endp)
      ≤ l₁.length := by
    refine Nat.not_lt.mp (mt (ho.getElem?_iff (initial_lt ((h e).key endp)) hget).mpr ?_)
    rw [decide_eq_true_eq]
    exact lt_irrefl _
  have hdrop := fun a => not_before_of_mem_drop (e := a) ho (h e)
  rw [hidx]
  generalize (el.array endp).els.countP (fun e' => (h e').key endp < (h e).key endp) = left
    at hleft hdrop
  rw [hl, drop_append_of_le_length hleft] at hdrop ⊢
  rw [hl] at ho
  have hequal : ∀ a ∈ l₁.drop left, (h a).equal (h e) = true := by
    intro a ha
    rw [Extent.equal_iff endp]
    exact le_antisymm ((InOrder.append_iff.mp ho).2.2 a (mem_of_mem_drop ha) e
      (mem_cons_self ..)) (hdrop a (mem_append_left _ ha))
  rw [passEqual_of_mem (mt mem_of_mem_drop he₁) hequal, length_drop]
  simp only [Bool.true_or, if_true, Nat.add_sub_cancel' hleft]

/-- **A position in the text** comes behind the extents that start, or end, before it. -/
theorem locateFromPos_eq (ho : InOrder (keyOf h endp) (el.array endp).els)
    (hle : ∀ e ∈ (el.array endp).els, (h e).extentStart ≤ (h e).extentEnd) (pos : Int) :
    extentListLocateFromPos h el pos endp =
      (el.array endp).els.countP fun e => (h e).endpoint endp < pos := by
  rw [extentListLocateFromPos, locate_of_not_mem ho _ fun e _ => Option.some_ne_none e]
  cases endp with
  | true =>
    refine countP_congr fun e he => ?_
    have := hle e he
    simp only [decide_eq_true_eq, Extent.key_lt_iff, Extent.endpoint, Bool.not_true, if_true,
      Bool.false_eq_true, if_false]
    omega
  | false =>
    refine countP_congr fun e he => ?_
    have := hle e he
    simp only [decide_eq_true_eq, Extent.key_le_iff, Extent.endpoint, Bool.not_false, if_true,
      Bool.false_eq_true, if_false]
    omega

end positions

/-! ## The two arrays in step -/

/-- Both arrays are in order and hold the same extents, each once, and extents with the same
endpoints stand in opposite orders: a new one goes behind the others in the display order and
before them in the e-order. -/
structure ExtentList.Ordered (h : ι → Extent) (el : ExtentList ι) : Prop where
  byStart : InOrder (keyOf h false) el.byStart.els
  byEnd : InOrder (keyOf h true) el.byEnd.els
  nodup : el.byStart.els.Nodup
  ties : ∀ x : Extent, el.byEnd.els.filter (fun e => (h e).equal x)
    = (el.byStart.els.filter fun e => (h e).equal x).reverse

/-- The arrays hold a part of another list, in its order. -/
structure ExtentList.Selects (bel : ExtentList ι) (P : ι → Bool) (sel : ExtentList ι) :
    Prop where
  byStart : sel.byStart.els = bel.byStart.els.filter P
  byEnd : sel.byEnd.els = bel.byEnd.els.filter P

namespace ExtentList

variable {h h' : ι → Extent} {el bel sel sel' : ExtentList ι} {P Q : ι → Bool} {e : ι}

namespace Ordered

theorem array (ho : el.Ordered h) (endp : Bool) : InOrder (keyOf h endp) (el.array endp).els := by
  cases endp
  · exact ho.byStart
  · exact ho.byEnd

theorem mem_byEnd (ho : el.Ordered h) : e ∈ el.byEnd.els ↔ e ∈ el.byStart.els := by
  have hties := congrArg (e ∈ ·) (ho.ties (h e))
  simpa [(Extent.equal_iff false).mpr] using hties

theorem mem_array (ho : el.Ordered h) {endp : Bool} :
    e ∈ (el.array endp).els ↔ e ∈ el.byStart.els := by
  cases endp
  · exact Iff.rfl
  · exact ho.mem_byEnd

theorem perm [DecidableEq ι] (ho : el.Ordered h) : el.byEnd.els.Perm el.byStart.els := by
  refine List.perm_iff_count.mpr fun e => ?_
  have hself : (h e).equal (h e) = true := (Extent.equal_iff false).mpr rfl
  have hcount : ∀ l : List ι, (l.filter fun a => (h a).equal (h e)).count e = l.count e :=
    fun l => count_filter hself
  have hties := congrArg (List.count e) (ho.ties (h e))
  rwa [count_reverse, hcount, hcount] at hties

theorem nodup_byEnd [DecidableEq ι] (ho : el.Ordered h) : el.byEnd.els.Nodup :=
  ho.perm.nodup_iff.mpr ho.nodup

theorem congr (ho : el.Ordered h) (hh : ∀ e ∈ el.byStart.els,
    (h' e).extentStart = (h e).extentStart ∧ (h' e).extentEnd = (h e).extentEnd) :
    el.Ordered h' := by
  have hkey : ∀ endp, ∀ e ∈ (el.array endp).els, (h' e).key endp = (h e).key endp := by
    intro endp e he
    obtain ⟨hs, he'⟩ := hh e (ho.mem_array.mp he)
    cases endp
    · rw [Extent.key_false, Extent.key_false, hs, he']
    · rw [Extent.key_true, Extent.key_true, hs, he']
  have horder : ∀ endp, InOrder (keyOf h' endp) (el.array endp).els := by
    intro endp
    refine (ho.array endp).imp_of_mem fun {a b} ha hb hab => ?_
    rw [keyOf, keyOf, hkey endp a ha, hkey endp b hb]
    exact hab
  refine ⟨horder false, horder true, ho.nodup, fun x => ?_⟩
  have hequal : ∀ endp, (el.array endp).els.filter (fun e => (h' e).equal x)
      = (el.array endp).els.filter fun e => (h e).equal x := by
    intro endp
    refine filter_congr fun e he => ?_
    rw [Bool.eq_iff_iff, Extent.equal_iff endp, Extent.equal_iff endp, hkey endp e he]
  have hstart := hequal false
  have hend := hequal true
  simp only [ExtentList.array, Bool.false_eq_true, if_false, if_true] at hstart hend
  rw [hend, hstart]
  exact ho.ties x

theorem iff_ties : el.Ordered h ↔
    InOrder (keyOf h false) el.byStart.els ∧ InOrder (keyOf h true) el.byEnd.els ∧
      el.byStart.els.Nodup ∧ (∀ e ∈ el.byEnd.els, e ∈ el.byStart.els) ∧
      ∀ e ∈ el.byStart.els, el.byEnd.els.filter (fun a => (h a).equal (h e))
        = (el.byStart.els.filter fun a => (h a).equal (h e)).reverse := by
  refine ⟨fun ho => ⟨ho.byStart, ho.byEnd, ho.nodup, fun e => ho.mem_byEnd.mp,
    fun e _ => ho.ties (h e)⟩, ?_⟩
  rintro ⟨hstart, hend, hnodup, hmem, hties⟩
  refine ⟨hstart, hend, hnodup, fun x => ?_⟩
  by_cases hx : ∃ e ∈ el.byStart.els, (h e).equal x = true
  · obtain ⟨e, he, hex⟩ := hx
    have hsame : (fun a => (h a).equal x) = fun a => (h a).equal (h e) := by
      funext a
      rw [Bool.eq_iff_iff, Extent.equal_iff false, Extent.equal_iff false,
        (Extent.equal_iff false).mp hex]
    rw [hsame]
    exact hties e he
  · -- no extent has these endpoints
    rw [List.filter_eq_nil_iff.mpr fun a ha hax => hx ⟨a, ha, hax⟩,
      List.filter_eq_nil_iff.mpr fun a ha hax => hx ⟨a, hmem a ha, hax⟩]
    rfl

/-! The extents on both sides of a position in the text. -/

variable [DecidableEq ι]

theorem locateFromPos_eq (ho : el.Ordered h) {endp : Bool}
    (hle : ∀ e ∈ el.byStart.els, (h e).extentStart ≤ (h e).extentEnd) (pos : Int) :
    extentListLocateFromPos h el pos endp =
      (el.array endp).els.countP fun e => (h e).endpoint endp < pos :=
  Extents.locateFromPos_eq (ho.array endp) (fun e he => hle e (ho.mem_array.mp he)) pos

omit [DecidableEq ι] in
theorem initial_endpoint (endp : Bool) (pos : Int) :
    Initial (keyOf h endp) fun e => (h e).endpoint endp < pos :=
  fun _ _ hab hb => decide_eq_true
    (Int.lt_of_le_of_lt (Extent.endpoint_le_of_key_le hab) (of_decide_eq_true hb))

theorem locateFromPos_le (ho : el.Ordered h) (endp : Bool) (pos : Int)
    (hle : ∀ e ∈ el.byStart.els, (h e).extentStart ≤ (h e).extentEnd) :
    extentListLocateFromPos h el pos endp ≤ (el.array endp).els.length := by
  rw [ho.locateFromPos_eq hle]
  exact countP_le_length

theorem mem_take (ho : el.Ordered h) (endp : Bool) (pos : Int)
    (hle : ∀ e ∈ el.byStart.els, (h e).extentStart ≤ (h e).extentEnd) :
    e ∈ (el.array endp).els.take (extentListLocateFromPos h el pos endp) ↔
      e ∈ el.byStart.els ∧ (h e).endpoint endp < pos := by
  rw [ho.locateFromPos_eq hle, (ho.array endp).take_countP (initial_endpoint endp pos),
    mem_filter, decide_eq_true_eq, ho.mem_array]

theorem mem_drop (ho : el.Ordered h) (endp : Bool) (pos : Int)
    (hle : ∀ e ∈ el.byStart.els, (h e).extentStart ≤ (h e).extentEnd) :
    e ∈ (el.array endp).els.drop (extentListLocateFromPos h el pos endp) ↔
      e ∈ el.byStart.els ∧ pos ≤ (h e).endpoint endp := by
  rw [ho.locateFromPos_eq hle, (ho.array endp).drop_countP (initial_endpoint endp pos),
    mem_filter, Bool.not_eq_true', decide_eq_false_iff_not, Int.not_lt, ho.mem_array]

end Ordered

namespace Selects

theorem ordered (hs : bel.Selects P sel) (hb : bel.Ordered h) : sel.Ordered h := by
  refine ⟨?_, ?_, ?_, fun x => ?_⟩
  · rw [hs.byStart]
    exact hb.byStart.sublist filter_sublist
  · rw [hs.byEnd]
    exact hb.byEnd.sublist filter_sublist
  · rw [hs.byStart]
    exact hb.nodup.filter P
  · rw [hs.byStart, hs.byEnd, filter_comm, hb.ties x, filter_reverse,
      filter_comm]

theorem mem_iff (hs : bel.Selects P sel) :
    e ∈ sel.byStart.els ↔ e ∈ bel.byStart.els ∧ P e = true := by
  rw [hs.byStart, mem_filter]

theorem congr (hs : bel.Selects P sel) (hb : bel.Ordered h)
    (hPQ : ∀ e ∈ bel.byStart.els, P e = Q e) : bel.Selects Q sel := by
  refine ⟨?_, ?_⟩
  · rw [hs.byStart]
    exact filter_congr hPQ
  · rw [hs.byEnd]
    exact filter_congr fun e he => hPQ e (hb.mem_byEnd.mp he)

end Selects

/-! ### Insertion and deletion -/

/-- An extent behind its equals in the display order and before them in the e-order. -/
def inserted (h : ι → Extent) (el : ExtentList ι) (e : ι) : ExtentList ι :=
  ⟨el.byStart.insert (el.byStart.els.countP fun a => keyOf h false a ≤ keyOf h false e) [e],
    el.byEnd.insert (el.byEnd.els.countP fun a => keyOf h true a < keyOf h true e) [e]⟩

theorem inserted_byStart (ho : InOrder (keyOf h false) el.byStart.els) (e : ι) :
    ∃ l₁ l₂, el.byStart.els = l₁ ++ l₂ ∧ (el.inserted h e).byStart.els = l₁ ++ e :: l₂ ∧
      (∀ a ∈ l₁, keyOf h false a ≤ keyOf h false e) ∧
      ∀ a ∈ l₂, keyOf h false e < keyOf h false a := by
  refine ⟨_, _, (take_append_drop _ _).symm, rfl, fun a ha => ?_, fun a ha => ?_⟩
  · rw [ho.take_countP (initial_le _), mem_filter, decide_eq_true_eq] at ha
    exact ha.2
  · rw [ho.drop_countP (initial_le _), mem_filter, Bool.not_eq_true',
      decide_eq_false_iff_not, not_le] at ha
    exact ha.2

theorem inserted_byEnd (ho : InOrder (keyOf h true) el.byEnd.els) (e : ι) :
    ∃ l₁ l₂, el.byEnd.els = l₁ ++ l₂ ∧ (el.inserted h e).byEnd.els = l₁ ++ e :: l₂ ∧
      (∀ a ∈ l₁, keyOf h true a < keyOf h true e) ∧
      ∀ a ∈ l₂, keyOf h true e ≤ keyOf h true a := by
  refine ⟨_, _, (take_append_drop _ _).symm, rfl, fun a ha => ?_, fun a ha => ?_⟩
  · rw [ho.take_countP (initial_lt _), mem_filter, decide_eq_true_eq] at ha
    exact ha.2
  · rw [ho.drop_countP (initial_lt _), mem_filter, Bool.not_eq_true',
      decide_eq_false_iff_not, not_lt] at ha
    exact ha.2

theorem mem_inserted (ho : el.Ordered h) {a : ι} :
    a ∈ (el.inserted h e).byStart.els ↔ a = e ∨ a ∈ el.byStart.els := by
  obtain ⟨l₁, l₂, hl, hl', -, -⟩ := inserted_byStart ho.byStart e
  rw [hl, hl', mem_append, mem_append, mem_cons, or_left_comm]

/-- **A new extent** leaves the arrays in step. -/
theorem Ordered.inserted (ho : el.Ordered h) (he : e ∉ el.byStart.els) :
    (el.inserted h e).Ordered h := by
  obtain ⟨l₁, l₂, hl, hl', hle, hlt⟩ := inserted_byStart ho.byStart e
  obtain ⟨m₁, m₂, hm, hm', hlt', hle'⟩ := inserted_byEnd ho.byEnd e
  have hstart := ho.byStart
  have hend := ho.byEnd
  rw [hl, InOrder.append_iff] at hstart
  rw [hm, InOrder.append_iff] at hend
  refine ⟨?_, ?_, ?_, fun x => ?_⟩
  · rw [hl', InOrder.append_iff, InOrder.cons_iff]
    refine ⟨hstart.1, ⟨fun a ha => le_of_lt (hlt a ha), hstart.2.1⟩, fun a ha b hb => ?_⟩
    obtain rfl | hb := List.mem_cons.mp hb
    · exact hle a ha
    · exact hstart.2.2 a ha b hb
  · rw [hm', InOrder.append_iff, InOrder.cons_iff]
    refine ⟨hend.1, ⟨hle', hend.2.1⟩, fun a ha b hb => ?_⟩
    obtain rfl | hb := List.mem_cons.mp hb
    · exact le_of_lt (hlt' a ha)
    · exact hend.2.2 a ha b hb
  · rw [hl', nodup_middle, ← hl]
    exact List.nodup_cons.mpr ⟨he, ho.nodup⟩
  · have hties := ho.ties x
    rw [hl, hm, List.filter_append, List.filter_append, reverse_append] at hties
    rw [hl', hm', List.filter_append, List.filter_append, filter_cons, filter_cons]
    by_cases hx : (h e).equal x = true
    · -- the equals of `e` are before it in the one array and behind it in the other
      have hnone : ∀ a ∈ l₂, ¬ (h a).equal x = true := by
        intro a ha hax
        rw [Extent.equal_iff false] at hx hax
        exact ne_of_lt (hlt a ha) (hx.trans hax.symm)
      have hnone' : ∀ a ∈ m₁, ¬ (h a).equal x = true := by
        intro a ha hax
        rw [Extent.equal_iff true] at hx hax
        exact ne_of_lt (hlt' a ha) (hax.trans hx.symm)
      rw [List.filter_eq_nil_iff.mpr hnone, List.filter_eq_nil_iff.mpr hnone'] at hties ⊢
      rw [if_pos hx, if_pos hx, reverse_append, reverse_singleton]
      rw [nil_append, reverse_nil, nil_append] at hties
      rw [hties]
      rfl
    · rw [if_neg hx, if_neg hx, reverse_append]
      exact hties

section insertion

variable [DecidableEq ι]

/-- An extent taken out of both arrays. -/
def erased (el : ExtentList ι) (e : ι) : ExtentList ι :=
  ⟨el.byStart.delete (el.byStart.els.idxOf e) 1, el.byEnd.delete (el.byEnd.els.idxOf e) 1⟩

theorem Ordered.insert_eq (ho : el.Ordered h) (he : e ∉ el.byStart.els) :
    extentListInsert h el e = some (el.inserted h e) := by
  have hself : ∀ endp, ∀ a ∈ (el.array endp).els, some a ≠ some e := by
    intro endp a ha hae
    exact he (Option.some.inj hae ▸ ho.mem_array.mp ha)
  have hstart := locate_of_not_mem (ho.array false) (h e) (hself false)
  have hend : extentListLocate h
      { el with byStart := el.byStart.insert (el.byStart.els.countP fun a =>
        keyOf h false a ≤ keyOf h false e) [e] } (h e) (some e) true = _ :=
    locate_of_not_mem (ho.array true) (h e) (hself true)
  rw [extentListInsert, hstart]
  simp only [Bool.false_eq_true, if_false, ExtentList.array] at hend ⊢
  rw [hend]
  rfl

theorem Ordered.delete_eq (ho : el.Ordered h) (he : e ∈ el.byStart.els) :
    extentListDelete h el e = some (el.erased e) := by
  have hstart := locate_of_mem (ho.array false) (ho.mem_array.mpr he)
  have hend : extentListLocate h
      { el with byStart := el.byStart.delete (el.byStart.els.idxOf e) 1 } (h e) (some e) true
        = _ :=
    locate_of_mem (ho.array true) (ho.mem_array.mpr he)
  rw [extentListDelete, hstart]
  simp only [if_true, ExtentList.array, Bool.false_eq_true, if_false] at hend ⊢
  rw [hend]
  rfl

theorem delete_idxOf (t : TrackedList ι) (e : ι) :
    (t.delete (t.els.idxOf e) 1).els = t.els.erase e := by
  rw [erase_eq_eraseIdx_of_idxOf rfl, eraseIdx_eq_take_drop_succ]
  rfl

theorem erased_byStart (el : ExtentList ι) (e : ι) :
    (el.erased e).byStart.els = el.byStart.els.erase e := delete_idxOf ..

theorem erased_byEnd (el : ExtentList ι) (e : ι) :
    (el.erased e).byEnd.els = el.byEnd.els.erase e := delete_idxOf ..

theorem Selects.erased (hs : bel.Selects P sel) (hb : bel.Ordered h) (e : ι) :
    bel.Selects (fun a => P a && a != e) (sel.erased e) := by
  have ho := hs.ordered hb
  refine ⟨?_, ?_⟩
  · rw [erased_byStart, ho.nodup.erase_eq_filter, hs.byStart, filter_filter]
    exact filter_congr fun a _ => Bool.and_comm ..
  · rw [erased_byEnd, ho.nodup_byEnd.erase_eq_filter, hs.byEnd, filter_filter]
    exact filter_congr fun a _ => Bool.and_comm ..

theorem Ordered.ties_split (ho : el.Ordered h) {l₁ l₂ m₁ m₂ : List ι}
    (hl : el.byStart.els = l₁ ++ e :: l₂) (hm : el.byEnd.els = m₁ ++ e :: m₂) :
    m₁.filter (fun a => (h a).equal (h e)) = (l₂.filter fun a => (h a).equal (h e)).reverse ∧
      m₂.filter (fun a => (h a).equal (h e)) = (l₁.filter fun a => (h a).equal (h e)).reverse := by
  have hfilter : ∀ l : List ι, (e :: l).filter (fun a => (h a).equal (h e))
      = e :: l.filter fun a => (h a).equal (h e) :=
    fun l => filter_cons_of_pos ((Extent.equal_iff false).mpr rfl)
  have hne := ho.nodup_byEnd
  have hties := ho.ties (h e)
  rw [hm, nodup_middle] at hne
  rw [hl, hm, List.filter_append, List.filter_append, hfilter, hfilter, reverse_append,
    reverse_cons, append_assoc, singleton_append] at hties
  have hsplit := (append_cons_inj_of_notMem ?_ ?_).mp hties
  · exact ⟨hsplit.1, hsplit.2.2⟩
  · exact fun he => hne.notMem (mem_append_left _ (mem_of_mem_filter he))
  · exact fun he => hne.notMem (mem_append_right _ (mem_of_mem_filter he))

/-- **An extent of a list put into a part of it** is where it is in the list, if the part has no
equal extent that is behind it in the display order. -/
theorem Selects.inserted (hs : bel.Selects P sel) (hb : bel.Ordered h) {l₁ l₂ : List ι}
    (hl : bel.byStart.els = l₁ ++ e :: l₂) (he : P e = false)
    (hlast : ∀ a ∈ l₂, P a = true → (h a).equal (h e) = false) :
    bel.Selects (fun a => P a || a == e) (sel.inserted h e) := by
  refine ⟨?_, ?_⟩
  · have hnodup := hb.nodup
    have hstart := hb.byStart
    rw [hl] at hnodup hstart
    obtain ⟨-, hstart₂, hstart₁⟩ := InOrder.append_iff.mp hstart
    show List.take _ _ ++ ([e] ++ List.drop _ _) = _
    rw [hs.byStart, hl]
    refine insert_filter (fun a ha _ => ?_) (fun a ha hPa => ?_) he hnodup
    · exact decide_eq_true (hstart₁ a ha e (mem_cons_self ..))
    · rw [decide_eq_false_iff_not]
      intro hle
      have heq := le_antisymm hle ((InOrder.cons_iff.mp hstart₂).1 a ha)
      have hne := hlast a ha hPa
      rw [(Extent.equal_iff false).mpr heq] at hne
      cases hne
  · obtain ⟨m₁, m₂, hm⟩ :=
      append_of_mem (hb.mem_byEnd.mpr (hl ▸ mem_append_cons_self))
    have hties := (hb.ties_split hl hm).1
    have hnodup := hb.nodup_byEnd
    have hend := hb.byEnd
    rw [hm] at hnodup hend
    obtain ⟨-, hend₂, hend₁⟩ := InOrder.append_iff.mp hend
    show List.take _ _ ++ ([e] ++ List.drop _ _) = _
    rw [hs.byEnd, hm]
    refine insert_filter (fun a ha hPa => ?_) (fun a ha _ => ?_) he hnodup
    · rw [decide_eq_true_eq]
      refine lt_of_le_of_ne (hend₁ a ha e (mem_cons_self ..)) fun heq => ?_
      -- an equal extent before `e` in the e-order is behind it in the display order
      have haeq := (Extent.equal_iff true).mpr heq
      have hmem : a ∈ (l₂.filter fun a => (h a).equal (h e)).reverse :=
        hties ▸ List.mem_filter.mpr ⟨ha, haeq⟩
      rw [hlast a (mem_of_mem_filter (List.mem_reverse.mp hmem)) hPa] at haeq
      cases haeq
    · rw [decide_eq_false_iff_not, not_lt]
      exact (InOrder.cons_iff.mp hend₂).1 a ha

end insertion

end ExtentList

instance [DecidableEq ι] (h : ι → Extent) (el : ExtentList ι) : Decidable (el.Ordered h) :=
  decidable_of_iff _ ExtentList.Ordered.iff_ties.symm

instance [DecidableEq ι] (bel : ExtentList ι) (P : ι → Bool) (sel : ExtentList ι) :
    Decidable (bel.Selects P sel) :=
  decidable_of_iff (sel.byStart.els = bel.byStart.els.filter P ∧
    sel.byEnd.els = bel.byEnd.els.filter P) ⟨fun h => ⟨h.1, h.2⟩, fun h => ⟨h.1, h.2⟩⟩

end XEmacs.Extents
