import Mathlib.Algebra.Order.Ring.Int
import Mathlib.Data.List.Infix

/-!
# Truncating an undo list (undo.c)

`truncate_undo_list` makes an undo list shorter at the end. It goes over the list, measures what
it has passed, and decides at each boundary whether to cut there. The size is an `int`, so it
wraps.
-/

namespace XEmacs.Buffer

open List

namespace TruncateUndo

/-- An element of an undo list: nil, which is a boundary, another atom, or a cons, with the length
of its car if that is a string. -/
inductive Element where
  | nil
  | atom
  | cons (string : Option Nat)
  deriving DecidableEq

/-- `sizeof (Lisp_Cons)` and `sizeof (Lisp_String)`, with pointers of 8 bytes. -/
def sizeofCons : Nat := 24

def sizeofString : Nat := 32

/-- What an element and its chain link occupy. -/
def Element.space : Element → Nat
  | nil => sizeofCons
  | atom => sizeofCons
  | cons none => sizeofCons + sizeofCons
  | cons (some length) => sizeofCons + sizeofCons + (sizeofString - 1 + length)

/-- `size_so_far += ..`. -/
def addSpace (sizeSoFar : Int) (elt : Element) : Int := Int.bmod (sizeSoFar + elt.space) (2 ^ 32)

/-- The loop over the first group, from the cons `prev` and the list `next` after it. -/
def passGroup : List Element → Nat → Int → List Element × Nat × Int
  | [], prev, sizeSoFar => ([], prev, sizeSoFar)
  | elt :: next, prev, sizeSoFar =>
    if elt = .nil then (elt :: next, prev, sizeSoFar)
    else passGroup next (prev + 1) (addSpace sizeSoFar elt)

/-- The loop over the rest of the list; the list after the conses passed, and the last boundary. -/
def findBoundary (minsize maxsize : Int) :
    List Element → Nat → Int → Nat → List Element × Nat
  | [], _, _, lastBoundary => ([], lastBoundary)
  | elt :: next, prev, sizeSoFar, lastBoundary =>
    if elt = .nil then
      if sizeSoFar > maxsize ∧ maxsize > 0 then (elt :: next, lastBoundary)
      else if sizeSoFar > minsize ∧ minsize > 0 then (elt :: next, prev)
      else findBoundary minsize maxsize next (prev + 1) (addSpace sizeSoFar elt) prev
    else findBoundary minsize maxsize next (prev + 1) (addSpace sizeSoFar elt) lastBoundary

def truncateUndoList (list : List Element) (minsize maxsize : Int) : List Element :=
  if ¬ (minsize > 0 ∨ maxsize > 0) then list
  else
    match list with
    | [] => list
    | first :: rest =>
      -- a boundary at the front is passed with the first group
      let (next, prev, sizeSoFar) :=
        if first = .nil then passGroup rest 1 (addSpace 0 first) else passGroup list 0 0
      let lastBoundary := if next ≠ [] then prev else 0
      let (next, lastBoundary) := findBoundary minsize maxsize next prev sizeSoFar lastBoundary
      if next = [] then list
      else if lastBoundary ≠ 0 then list.take lastBoundary
      else []

/-! ### What is to be kept -/

/-- The size of a list as the function measures it. -/
def size (list : List Element) : Int := list.foldl addSpace 0

/-- The most recent change group, with a boundary that stands before it. -/
def firstGroup : List Element → List Element
  | .nil :: rest => .nil :: rest.takeWhile (· ≠ .nil)
  | list => list.takeWhile (· ≠ .nil)

/-- The claim of the comment: a prefix that ends at a boundary or with the list, has the most recent
group, and is that group or not larger than MAXSIZE. -/
structure KeepsGroups (list : List Element) (maxsize : Int) (kept : List Element) : Prop where
  isPrefix : kept <+: list
  ends : kept = list ∨ list[kept.length]? = some .nil
  first : firstGroup list <+: kept
  bounded : kept = firstGroup list ∨ size kept ≤ maxsize

/-- At some boundary after the first group the size is above MINSIZE. -/
def PassesMinsize (list : List Element) (minsize : Int) : Prop :=
  ∃ k, (firstGroup list).length ≤ k ∧ list[k]? = some .nil ∧ minsize < size (list.take k)

/-! ### The loops -/

section loops

variable {list done next : List Element} {minsize maxsize : Int}

theorem size_append_singleton (done : List Element) (elt : Element) :
    size (done ++ [elt]) = addSpace (size done) elt :=
  foldl_append

theorem passGroup_eq (done next : List Element) :
    passGroup next done.length (size done)
      = (next.dropWhile (· ≠ .nil), (done ++ next.takeWhile (· ≠ .nil)).length,
          size (done ++ next.takeWhile (· ≠ .nil))) := by
  induction next generalizing done with
  | nil => rw [passGroup, takeWhile_nil, append_nil, dropWhile_nil]
  | cons elt next ih =>
    rw [passGroup]
    split
    · rename_i helt
      subst helt
      rw [takeWhile_cons_of_neg (by decide), append_nil,
        dropWhile_cons_of_neg (by decide)]
    · rename_i helt
      have hpass := ih (done ++ [elt])
      rw [size_append_singleton, length_append, append_assoc] at hpass
      rw [takeWhile_cons_of_pos (p := fun x => decide (x ≠ Element.nil)) (decide_eq_true helt),
        dropWhile_cons_of_pos (p := fun x => decide (x ≠ Element.nil)) (decide_eq_true helt)]
      exact hpass

/-- A place where the list may be cut. -/
structure MayCut (list : List Element) (maxsize : Int) (k : Nat) : Prop where
  first : (firstGroup list).length ≤ k
  boundary : list[k]? = some .nil
  bounded : k = (firstGroup list).length ∨ size (list.take k) ≤ maxsize

/-- What the second loop finds from a place on: it stops at a boundary where the size is above
MINSIZE, with a place to cut the list, or it goes to the end and has met no such boundary. -/
inductive Finds (list : List Element) (minsize maxsize : Int) (place : Nat)
    (found : List Element × Nat) : Prop where
  | boundary (next : found.1 ≠ []) (cut : MayCut list maxsize found.2)
    (passes : PassesMinsize list minsize)
  | listEnd (next : found.1 = [])
    (small : ∀ k, place ≤ k → list[k]? = some .nil → size (list.take k) ≤ minsize)

theorem Finds.pass {place : Nat} {found : List Element × Nat}
    (h : Finds list minsize maxsize (place + 1) found)
    (hplace : list[place]? = some .nil → size (list.take place) ≤ minsize) :
    Finds list minsize maxsize place found := by
  cases h with
  | boundary next cut passes => exact .boundary next cut passes
  | listEnd next small =>
    refine .listEnd next fun k hk hnil => ?_
    obtain rfl | hlt := Nat.eq_or_lt_of_le hk
    · exact hplace hnil
    · exact small k hlt hnil

/-- **The second loop.** The induction is on the list it has not passed. -/
theorem findBoundary_finds (hmin : 0 < minsize) (hle : minsize ≤ maxsize) {lastBoundary : Nat}
    (hlist : list = done ++ next) (hfirst : (firstGroup list).length ≤ done.length)
    (hlast : next = [] ∨ MayCut list maxsize lastBoundary) :
    Finds list minsize maxsize done.length
      (findBoundary minsize maxsize next done.length (size done) lastBoundary) := by
  induction next generalizing done lastBoundary with
  | nil =>
    refine .listEnd rfl fun k hk hnil => ?_
    rw [hlist, append_nil, getElem?_eq_none hk] at hnil
    cases hnil
  | cons elt next ih =>
    have hlast := hlast.resolve_left (cons_ne_nil elt next)
    have htake : list.take done.length = done := by rw [hlist, take_left]
    have helt : list[done.length]? = some elt := by
      rw [hlist, getElem?_append_right (Nat.le_refl _), Nat.sub_self]
      rfl
    have hnext : ∀ last, MayCut list maxsize last → Finds list minsize maxsize (done.length + 1)
        (findBoundary minsize maxsize next (done.length + 1) (addSpace (size done) elt) last) := by
      intro last hmay
      have hlist' : list = (done ++ [elt]) ++ next := by
        rw [hlist, append_assoc]
        rfl
      have hlength : (done ++ [elt]).length = done.length + 1 := length_append
      have hfinds : Finds list minsize maxsize (done ++ [elt]).length
          (findBoundary minsize maxsize next (done ++ [elt]).length (size (done ++ [elt])) last) :=
        ih hlist' (by omega) (.inr hmay)
      rwa [size_append_singleton, hlength] at hfinds
    rw [findBoundary]
    split
    · rename_i hnil
      rw [hnil] at helt
      split
      · rename_i hbig
        refine .boundary (cons_ne_nil elt next) hlast ⟨done.length, hfirst, helt, ?_⟩
        rw [htake]
        omega
      · rename_i hbig
        have hmay : MayCut list maxsize done.length :=
          ⟨hfirst, helt, .inr (by rw [htake]; omega)⟩
        split
        · rename_i habove
          exact .boundary (cons_ne_nil elt next) hmay
            ⟨done.length, hfirst, helt, by rw [htake]; exact habove.1⟩
        · rename_i hbelow
          exact (hnext _ hmay).pass fun _ => by
            rw [htake]
            omega
    · rename_i hne
      refine (hnext _ hlast).pass fun hnil => ?_
      rw [hnil] at helt
      exact absurd (Option.some.inj helt).symm hne

end loops

/-! ### The result -/

section result

variable {list : List Element} {minsize maxsize : Int}

theorem passGroup_first (first : Element) (rest : List Element) :
    ∃ next, first :: rest = firstGroup (first :: rest) ++ next ∧
      (next = [] ∨ next.head? = some .nil) ∧
      (if first = .nil then passGroup rest 1 (addSpace 0 first) else passGroup (first :: rest) 0 0)
        = (next, (firstGroup (first :: rest)).length, size (firstGroup (first :: rest))) := by
  have hhead : ∀ l : List Element, l.dropWhile (· ≠ .nil) = [] ∨
      (l.dropWhile (· ≠ .nil)).head? = some .nil := by
    intro l
    cases hdrop : l.dropWhile (· ≠ .nil) with
    | nil => exact .inl rfl
    | cons elt next =>
      have hnot := head?_dropWhile_not (· ≠ Element.nil) l
      rw [hdrop] at hnot
      exact .inr (congrArg some (not_not.mp (of_decide_eq_false hnot)))
  by_cases hfirst : first = .nil
  · subst hfirst
    refine ⟨rest.dropWhile (· ≠ .nil), ?_, hhead rest, ?_⟩
    · rw [firstGroup, cons_append, takeWhile_append_dropWhile]
    · exact (if_pos rfl).trans (passGroup_eq [.nil] rest)
  · have hgroup : firstGroup (first :: rest) = (first :: rest).takeWhile (· ≠ .nil) := by
      cases first with
      | nil => exact absurd rfl hfirst
      | _ => rfl
    refine ⟨(first :: rest).dropWhile (· ≠ .nil), ?_, hhead _, ?_⟩
    · rw [hgroup, takeWhile_append_dropWhile]
    · rw [if_neg hfirst, hgroup]
      exact passGroup_eq [] (first :: rest)

theorem firstGroup_ne_nil (first : Element) (rest : List Element) :
    firstGroup (first :: rest) ≠ [] := by
  cases first <;> exact cons_ne_nil _ _

/-- **`truncate_undo_list`** cuts the list where it may be cut, if at some boundary the size is
above MINSIZE, and else leaves it as it is. -/
theorem truncateUndoList_cases (list : List Element) (hmin : 0 < minsize)
    (hle : minsize ≤ maxsize) :
    (PassesMinsize list minsize ∧ ∃ k, MayCut list maxsize k ∧
        truncateUndoList list minsize maxsize = list.take k) ∨
      (¬ PassesMinsize list minsize ∧ truncateUndoList list minsize maxsize = list) := by
  unfold truncateUndoList
  rw [if_neg (not_not.mpr (.inl hmin))]
  cases list with
  | nil =>
    refine .inr ⟨?_, rfl⟩
    rintro ⟨k, -, hnil, -⟩
    cases hnil
  | cons first rest =>
    obtain ⟨next, hlist, hhead, hpass⟩ := passGroup_first first rest
    have hpos := List.length_pos_iff.mpr (firstGroup_ne_nil first rest)
    simp only [hpass]
    have hcut : next = [] ∨ MayCut (first :: rest) maxsize
        (if next ≠ [] then (firstGroup (first :: rest)).length else 0) := by
      refine hhead.imp_right fun hnil => ?_
      have hne : next ≠ [] := by
        rintro rfl
        cases hnil
      rw [if_pos hne]
      have hat : (firstGroup (first :: rest) ++ next)[(firstGroup (first :: rest)).length]?
          = some .nil := by
        rw [getElem?_append_right (Nat.le_refl _), Nat.sub_self, ← head?_eq_getElem?,
          hnil]
      rw [← hlist] at hat
      exact ⟨Nat.le_refl _, hat, .inl rfl⟩
    cases findBoundary_finds hmin hle hlist (Nat.le_refl _) hcut with
    | boundary hnext hmay hpasses =>
      have hne := hmay.first
      refine .inl ⟨hpasses, _, hmay, ?_⟩
      rw [if_neg hnext, if_pos (by omega)]
    | listEnd hnext hsmall =>
      refine .inr ⟨?_, if_pos hnext⟩
      rintro ⟨k, hk, hnil, hbig⟩
      exact absurd (hsmall k hk hnil) (by omega)

theorem firstGroup_begins (list : List Element) : firstGroup list <+: list := by
  cases list with
  | nil => exact prefix_refl _
  | cons first rest =>
    obtain ⟨next, hlist, -⟩ := passGroup_first first rest
    exact ⟨next, hlist.symm⟩

theorem MayCut.keepsGroups {k : Nat} (h : MayCut list maxsize k) :
    KeepsGroups list maxsize (list.take k) := by
  have hk : k < list.length := (List.getElem?_eq_some_iff.mp h.boundary).1
  have hlength : (list.take k).length = k := length_take_of_le (Nat.le_of_lt hk)
  refine ⟨List.take_prefix k list, .inr (hlength.symm ▸ h.boundary), ?_, ?_⟩
  · exact prefix_of_prefix_length_le (firstGroup_begins list) (List.take_prefix k list)
      (hlength.symm ▸ h.first)
  · refine h.bounded.imp_left fun hsame => ?_
    exact (List.prefix_iff_eq_take.mp (firstGroup_begins list)).trans (by rw [hsame]) |>.symm

/-- **The result is a bounded prefix of whole groups** if and only if at some boundary after the
first group the size is above MINSIZE, or the list has no second group, or the list as a whole is
not larger than MAXSIZE: the last group is not measured against MAXSIZE at the end of the list. -/
theorem truncate_undo_list_keeps_iff (list : List Element) (hmin : 0 < minsize)
    (hle : minsize ≤ maxsize) :
    KeepsGroups list maxsize (truncateUndoList list minsize maxsize) ↔
      PassesMinsize list minsize ∨ firstGroup list = list ∨ size list ≤ maxsize := by
  rcases truncateUndoList_cases list hmin hle with ⟨hpasses, k, hmay, hcut⟩ | ⟨hpasses, hcut⟩
  · rw [hcut]
    exact ⟨fun _ => .inl hpasses, fun _ => hmay.keepsGroups⟩
  · rw [hcut]
    constructor
    · intro h
      exact .inr (h.bounded.imp_left Eq.symm)
    · intro h
      exact ⟨List.prefix_refl _, .inl rfl, firstGroup_begins list,
        (h.resolve_left hpasses).imp_left Eq.symm⟩

/-- A small command, and before it the first one, which deleted a long string. -/
def longDeletion : List Element := [.cons none, .nil, .cons (some 40000)]

/-- The list is left as it is, with more than twice MAXSIZE. -/
theorem longDeletion_not_keeps :
    ¬ KeepsGroups longDeletion 30000 (truncateUndoList longDeletion 20000 30000) := by
  have hcut : truncateUndoList longDeletion 20000 30000 = longDeletion := by decide
  rw [hcut]
  intro h
  rcases h.bounded with hgroup | hsize
  · exact absurd hgroup (by decide)
  · exact absurd hsize (by decide)

/-- The same with a boundary after the long deletion, which is cut off then. -/
theorem longDeletion_boundary_keeps :
    KeepsGroups (longDeletion ++ [.nil]) 30000
        (truncateUndoList (longDeletion ++ [.nil]) 20000 30000) ↔
      PassesMinsize (longDeletion ++ [.nil]) 20000 ∨
        firstGroup (longDeletion ++ [.nil]) = longDeletion ++ [.nil] ∨
        size (longDeletion ++ [.nil]) ≤ 30000 :=
  truncate_undo_list_keeps_iff _ (by decide) (by decide)

end result

end TruncateUndo

end XEmacs.Buffer
