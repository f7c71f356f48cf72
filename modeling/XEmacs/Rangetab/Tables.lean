import XEmacs.Lib.IntervalMaps
import Mathlib.Order.Lattice
import Mathlib.Order.MinMax

/-!
# Range tables (rangetab.c)

A range table is a sorted array of ranges with values. `put_range_table` goes over the array once
and cuts the new range out of what is there.
-/

namespace XEmacs.Rangetab

open IntervalMaps

variable {V : Type}

/-- `struct range_table_entry`. -/
abbrev RangeTableEntry (V : Type) := Interval V

/-! ### Lookup -/

/-- The loop of `get_range_table`. -/
def searchEntries (pos : Int) (tab : List (RangeTableEntry V)) :
    Nat → Nat → Nat → Option (Option V)
  | 0, _, _ => none
  | fuel + 1, left, right =>
    if left ≠ right then
      let newpos := (left + right) / 2
      match tab[newpos]? with
      | none => none
      | some entry =>
        if pos > entry.last then searchEntries pos tab fuel (newpos + 1) right
        else if pos < entry.first then searchEntries pos tab fuel left newpos
        else some (some entry.val)
    else some none

def getRangeTable (pos : Int) (tab : List (RangeTableEntry V)) (default : V) : Option V :=
  (searchEntries pos tab (tab.length + 1) 0 tab.length).map fun found => found.getD default

def verifyRangeTable (entries : List (RangeTableEntry V)) : Bool :=
  (List.range entries.length).all fun i =>
    match entries[i]? with
    | none => false
    | some rte =>
      decide (rte.last ≥ rte.first) &&
        (if i > 0 then
          match entries[i - 1]? with
          | none => false
          | some before => decide (before.last < rte.first)
        else true)

/-! ### Changes -/

/-- The loop of `put_range_table`, at the index `i`, with what is noted in `insert_me_here`. -/
def deleteOverlaps (first last : Int) :
    Nat → List (RangeTableEntry V) → Nat → Option Nat →
      Option (List (RangeTableEntry V) × Nat × Option Nat)
  | 0, _, _, _ => none
  | fuel + 1, entries, i, insertMeHere =>
    match entries[i]? with
    | none => some (entries, i, insertMeHere)
    | some entry =>
      let insertMeHere :=
        if entry.first ≥ first ∧ insertMeHere = none then some i else insertMeHere
      if entry.last < first then
        deleteOverlaps first last fuel entries (i + 1) insertMeHere
      else if entry.first > last then some (entries, i, insertMeHere)
      else if entry.first < first ∧ entry.last ≤ last then
        -- truncate the end off of it
        deleteOverlaps first last fuel (entries.set i { entry with last := first - 1 }) (i + 1)
          insertMeHere
      else if entry.first < first ∧ entry.last > last then
        -- split it in two
        let insertMeToo := { entry with first := last + 1 }
        deleteOverlaps first last fuel
          ((entries.set i { entry with last := first - 1 }).insertIdx (i + 1) insertMeToo) (i + 1)
          insertMeHere
      else if entry.last > last then
        -- truncate the start off of it
        deleteOverlaps first last fuel (entries.set i { entry with first := last + 1 }) (i + 1)
          insertMeHere
      else
        -- everything shifts one to the left
        deleteOverlaps first last fuel (entries.eraseIdx i) i insertMeHere

variable [DecidableEq V]

/-- The new entry at `insertMeHere` combined with the one before; with the index it has then, and
its first position. -/
def combineBefore (first last : Int) (val : V) (entries : List (RangeTableEntry V))
    (insertMeHere : Nat) : List (RangeTableEntry V) × Nat × Int :=
  if insertMeHere > 0 then
    match entries[insertMeHere - 1]? with
    | none => (entries, insertMeHere, first)
    | some entry =>
      if val = entry.val ∧ entry.last = first - 1 then
        ((entries.set (insertMeHere - 1) { entry with last := last }).eraseIdx insertMeHere,
          insertMeHere - 1, entry.first)
      else (entries, insertMeHere, first)
  else (entries, insertMeHere, first)

/-- The new entry combined with the one after. -/
def combineAfter (first last : Int) (val : V) (entries : List (RangeTableEntry V))
    (insertMeHere : Nat) : List (RangeTableEntry V) :=
  if insertMeHere < entries.length - 1 then
    match entries[insertMeHere + 1]? with
    | none => entries
    | some entry =>
      if val = entry.val ∧ entry.first = last + 1 then
        (entries.set (insertMeHere + 1) { entry with first := first }).eraseIdx insertMeHere
      else entries
  else entries

/-- `put_range_table`; `val` is `none` for `Qunbound`. -/
def putRangeTable (table : List (RangeTableEntry V)) (first last : Int) (val : Option V) :
    Option (List (RangeTableEntry V)) := do
  let (entries, i, insertMeHere) ← deleteOverlaps first last (table.length + 2) table 0 none
  match val with
  | none => return entries
  | some val =>
    let insertMeHere := insertMeHere.getD i
    let entries := entries.insertIdx insertMeHere ⟨first, last, val⟩
    let (entries, insertMeHere, first) := combineBefore first last val entries insertMeHere
    return combineAfter first last val entries insertMeHere

/-- A change of a range table from Lisp. -/
inductive TableOp (V : Type) where
  | put (start last : Int) (value : V)
  | remove (start last : Int)
  | clear

/-- `Fput_range_table`, `Fremove_range_table` and `Fclear_range_table`: an error leaves the table
as it is. -/
def TableOp.run (table : List (RangeTableEntry V)) :
    TableOp V → Option (List (RangeTableEntry V))
  | put start last value =>
    if start > last then some table else putRangeTable table start last (some value)
  | remove start last => if start > last then some table else putRangeTable table start last none
  | clear => some []

/-! ### The search -/

section search

omit [DecidableEq V]

variable {tab : List (RangeTableEntry V)} {pos : Int}

theorem searchEntries_eq (h : Canonical tab) {fuel left right : Nat} (hle : left ≤ right)
    (hright : right ≤ tab.length) (hfuel : right - left < fuel)
    (hbelow : ∀ (i : Nat) (e : RangeTableEntry V), i < left → tab[i]? = some e → e.last < pos)
    (habove : ∀ (i : Nat) (e : RangeTableEntry V), right ≤ i → tab[i]? = some e → pos < e.first) :
    searchEntries pos tab fuel left right = some (lookup tab pos) := by
  induction fuel generalizing left right with
  | zero => exact absurd hfuel (Nat.not_lt_zero _)
  | succ fuel ih =>
    have hordered : ∀ (i j : Nat) (e d : RangeTableEntry V), i < j → tab[i]? = some e →
        tab[j]? = some d → e.last < d.first := by
      intro i j e d hij he hd
      obtain ⟨hi, rfl⟩ := List.getElem?_eq_some_iff.mp he
      obtain ⟨hj, rfl⟩ := List.getElem?_eq_some_iff.mp hd
      exact (List.pairwise_iff_getElem.mp h.apart i j hi hj hij).1
    rw [searchEntries]
    split
    · rename_i hne
      have hnew : (left + right) / 2 < tab.length := by omega
      simp only [List.getElem?_eq_getElem hnew]
      have hentry : tab[(left + right) / 2]? = some tab[(left + right) / 2] :=
        List.getElem?_eq_getElem hnew
      split
      · rename_i hpos
        refine ih (by omega) hright (by omega) (fun i e hi he => ?_) habove
        obtain rfl | hlt := Nat.eq_or_lt_of_le (Nat.le_of_lt_succ hi)
        · rw [hentry, Option.some.injEq] at he
          exact he ▸ hpos
        · have hbefore := hordered i _ e _ hlt he hentry
          have hproper := h.proper _ (List.getElem_mem hnew)
          omega
      · split
        · rename_i hpos
          refine ih (by omega) (by omega) (by omega) hbelow fun i e hi he => ?_
          obtain rfl | hlt := Nat.eq_or_lt_of_le hi
          · rw [hentry, Option.some.injEq] at he
            exact he ▸ hpos
          · have hbefore := hordered _ i _ e hlt hentry he
            have hproper := h.proper _ (List.getElem_mem hnew)
            omega
        · rename_i hlast hfirst
          rw [h.lookup_of_mem (List.getElem_mem hnew) ⟨by omega, by omega⟩]
    · rename_i heq
      have heq : left = right := not_not.mp heq
      refine congrArg some (lookup_eq_none_iff.mpr fun e he hin => ?_).symm
      obtain ⟨i, hi⟩ := List.mem_iff_getElem?.mp he
      obtain hlt | hge := Nat.lt_or_ge i left
      · have := hbelow i e hlt hi
        have := hin.2
        omega
      · have := habove i e (heq ▸ hge) hi
        have := hin.1
        omega

theorem getRangeTable_eq (h : Canonical tab) (pos : Int) (default : V) :
    getRangeTable pos tab default = some ((lookup tab pos).getD default) := by
  rw [getRangeTable, searchEntries_eq h (Nat.zero_le _) (Nat.le_refl _) (by omega)
    (fun i _ hi => absurd hi (Nat.not_lt_zero i)) fun i e hi he => ?_]
  · rfl
  · rw [List.getElem?_eq_none hi] at he
    cases he

theorem verifyRangeTable_of_canonical (h : Canonical tab) : verifyRangeTable tab = true := by
  refine List.all_eq_true.mpr fun i hi => ?_
  have hi : i < tab.length := List.mem_range.mp hi
  rw [List.getElem?_eq_getElem hi]
  simp only [Bool.and_eq_true, decide_eq_true_eq]
  refine ⟨h.proper _ (List.getElem_mem hi), ?_⟩
  split
  · rename_i hpos
    have hi' : i - 1 < tab.length := by omega
    rw [List.getElem?_eq_getElem hi']
    exact decide_eq_true (List.pairwise_iff_getElem.mp h.apart (i - 1) i hi' hi (by omega)).1
  · rfl

end search

/-! ### Cutting a range out -/

section cut

omit [DecidableEq V]

variable {first last : Int} {e : RangeTableEntry V} {rest : List (RangeTableEntry V)}

theorem lefts_eq_nil {l : List (RangeTableEntry V)} (h : ∀ e ∈ l, first ≤ e.first) :
    lefts first l = [] := by
  refine List.filterMap_eq_nil_iff.mpr fun e he => if_neg ?_
  have := h e he
  omega

theorem rights_eq_self {l : List (RangeTableEntry V)} (h : ∀ e ∈ l, last < e.first)
    (hproper : ∀ e ∈ l, e.first ≤ e.last) : rights last l = l := by
  refine (List.filterMap_congr fun e he => ?_).trans List.filterMap_some
  have hfirst := h e he
  have hlast := hproper e he
  rw [Interval.after, if_pos (by omega), max_eq_left (by omega)]

theorem lefts_cons_of_lt (rest : List (RangeTableEntry V)) (h : e.first < first) :
    lefts first (e :: rest) = { e with last := min e.last (first - 1) } :: lefts first rest := by
  rw [lefts, List.filterMap_cons, Interval.before, if_pos h]
  rfl

theorem lefts_cons_of_ge (h : first ≤ e.first) : lefts first (e :: rest) = lefts first rest := by
  rw [lefts, List.filterMap_cons, Interval.before, if_neg (by omega)]
  rfl

theorem rights_cons_of_lt (h : last < e.last) : rights last (e :: rest)
    = { e with first := max e.first (last + 1) } :: rights last rest := by
  rw [rights, List.filterMap_cons, Interval.after, if_pos h]
  rfl

theorem rights_cons_of_ge (h : e.last ≤ last) : rights last (e :: rest) = rights last rest := by
  rw [rights, List.filterMap_cons, Interval.after, if_neg (by omega)]
  rfl

theorem insertIdx_length_append {α : Type} (l r : List α) (a : α) :
    (l ++ r).insertIdx l.length a = l ++ a :: r := by
  induction l with
  | nil => rfl
  | cons b l ih =>
    rw [List.cons_append, List.length_cons, List.insertIdx_succ_cons, ih]
    rfl

/-- What the loop makes of the entries from an index on, with what it has noted before. -/
structure CutsOut (first last : Int) (done rest : List (RangeTableEntry V))
    (noted : Option Nat) (result : List (RangeTableEntry V) × Nat × Option Nat) : Prop where
  entries : result.1 = done ++ (lefts first rest ++ rights last rest)
  kept : ∀ k, noted = some k → result.2.2 = some k
  found : noted = none → result.2.2.getD result.2.1 = done.length + (lefts first rest).length

theorem CutsOut.left {done rest' : List (RangeTableEntry V)} {x : RangeTableEntry V}
    {noted : Option Nat} {result : List (RangeTableEntry V) × Nat × Option Nat}
    (h : CutsOut first last (done ++ [x]) rest' noted result)
    (hlefts : lefts first (e :: rest) = x :: lefts first rest')
    (hrights : rights last (e :: rest) = rights last rest') :
    CutsOut first last done (e :: rest) noted result := by
  refine ⟨?_, h.kept, fun hnone => ?_⟩
  · rw [h.entries, hlefts, hrights, List.append_assoc]
    rfl
  · rw [h.found hnone, hlefts]
    simp only [List.length_append, List.length_cons, List.length_nil]
    omega

theorem CutsOut.right {done done' : List (RangeTableEntry V)} {noted noted' : Option Nat}
    {result : List (RangeTableEntry V) × Nat × Option Nat}
    (h : CutsOut first last done' rest noted' result)
    (hnoted : noted' = if noted = none then some done.length else noted)
    (hlefts : lefts first (e :: rest) = []) (hlefts' : lefts first rest = [])
    (hrights : done ++ rights last (e :: rest) = done' ++ rights last rest) :
    CutsOut first last done (e :: rest) noted result := by
  refine ⟨?_, fun k hk => h.kept k ?_, fun hnone => ?_⟩
  · rw [h.entries, hlefts, hlefts', List.nil_append, List.nil_append, hrights]
  · rw [hnoted, hk, if_neg nofun]
  · rw [h.kept done.length (by rw [hnoted, if_pos hnone]), hlefts]
    rfl

theorem deleteOverlaps_after (fuel : Nat) (hle : first ≤ last) (done : List (RangeTableEntry V))
    (noted : Option Nat) (hafter : ∀ d ∈ rest, last < d.first)
    (hproper : ∀ d ∈ rest, d.first ≤ d.last) :
    ∃ result, deleteOverlaps first last (fuel + 1) (done ++ rest) done.length noted = some result ∧
      CutsOut first last done rest noted result := by
  have hlefts : lefts first rest = [] := lefts_eq_nil fun d hd => by
    have := hafter d hd
    omega
  have hrights := rights_eq_self hafter hproper
  rw [deleteOverlaps]
  cases rest with
  | nil =>
    rw [List.append_nil, List.getElem?_eq_none (Nat.le_refl _)]
    refine ⟨_, rfl, ?_, fun k hk => hk, fun hnone => ?_⟩
    · exact (List.append_nil done).symm
    · rw [hnone]
      rfl
  | cons d rest =>
    have hd := hafter d (List.mem_cons_self ..)
    have hdproper := hproper d (List.mem_cons_self ..)
    rw [List.getElem?_append_right (Nat.le_refl _), Nat.sub_self]
    simp only [List.getElem?_cons_zero]
    rw [if_neg (by omega), if_pos (by omega)]
    refine ⟨_, rfl, ?_, fun k hk => ?_, fun hnone => ?_⟩
    · rw [hlefts, hrights]
      rfl
    · exact (if_neg fun h => by rw [hk] at h; cases h.2).trans hk
    · rw [hlefts, hnone, if_pos ⟨by omega, rfl⟩]
      rfl

/-- **The loop of `put_range_table`** cuts the range out. The induction is on the entries it has
not come to. -/
theorem deleteOverlaps_cutsOut {fuel : Nat} (hle : first ≤ last)
    (done rest : List (RangeTableEntry V)) (noted : Option Nat) (hrest : Canonical rest)
    (hfuel : rest.length + 1 < fuel) :
    ∃ result, deleteOverlaps first last fuel (done ++ rest) done.length noted = some result ∧
      CutsOut first last done rest noted result := by
  induction rest generalizing fuel done noted with
  | nil =>
    obtain ⟨fuel, rfl⟩ : ∃ f, fuel = f + 1 := ⟨fuel - 1, by omega⟩
    exact deleteOverlaps_after fuel hle done noted nofun nofun
  | cons e rest ih =>
    obtain ⟨fuel, rfl⟩ : ∃ f, fuel = f + 1 := ⟨fuel - 1, by omega⟩
    have hfuel : rest.length + 1 < fuel := by
      rw [List.length_cons] at hfuel
      omega
    have hproper := hrest.proper e (List.mem_cons_self ..)
    have hlater : ∀ d ∈ rest, e.last < d.first := fun d hd => (hrest.head_apart d hd).1
    have hentry : (done ++ e :: rest)[done.length]? = some e := by
      rw [List.getElem?_append_right (Nat.le_refl _), Nat.sub_self, List.getElem?_cons_zero]
    have hset : ∀ d, (done ++ e :: rest).set done.length d = (done ++ [d]) ++ rest := by
      intro d
      rw [List.set_append_right _ _ (Nat.le_refl _), Nat.sub_self, List.set_cons_zero,
        List.append_assoc, List.singleton_append]
    have hlength : ∀ d : RangeTableEntry V, (done ++ [d]).length = done.length + 1 := fun d =>
      List.length_append
    by_cases hafter : last < e.first
    · refine deleteOverlaps_after fuel hle done noted (fun d hd => ?_) hrest.proper
      obtain rfl | hd := List.mem_cons.mp hd
      · exact hafter
      · have := hlater d hd
        omega
    have hinsert : ∀ x y, ((done ++ [x]) ++ rest).insertIdx (done.length + 1) y
        = (done ++ [x]) ++ y :: rest := by
      intro x y
      rw [← hlength x, insertIdx_length_append]
    rw [deleteOverlaps, hentry]
    simp only
    by_cases hbefore : e.first < first
    · -- the entry begins before the range, so it is not noted
      have hnote : (if e.first ≥ first ∧ noted = none then some done.length else noted) = noted :=
        if_neg fun h => by omega
      have hlefts := lefts_cons_of_lt rest hbefore
      rw [hnote]
      by_cases hend : e.last < first
      · have hx : { e with last := min e.last (first - 1) } = e := by
          rw [min_eq_left (by omega)]
        have happend : done ++ e :: rest = (done ++ [e]) ++ rest := by
          rw [List.append_assoc, List.singleton_append]
        rw [if_pos hend, happend, ← hlength e]
        obtain ⟨result, hrun, hcut⟩ := ih (done ++ [e]) noted hrest.tail hfuel
        exact ⟨result, hrun, hcut.left (hlefts.trans (by rw [hx])) (rights_cons_of_ge (by omega))⟩
      · have hx : { e with last := min e.last (first - 1) } = { e with last := first - 1 } := by
          rw [min_eq_right (by omega)]
        rw [if_neg hend, if_neg (by omega), hset]
        by_cases hin : e.last ≤ last
        · rw [if_pos ⟨hbefore, hin⟩, ← hlength { e with last := first - 1 }]
          obtain ⟨result, hrun, hcut⟩ := ih (done ++ [{ e with last := first - 1 }]) noted
            hrest.tail hfuel
          exact ⟨result, hrun, hcut.left (hx ▸ hlefts) (rights_cons_of_ge hin)⟩
        · rw [if_neg fun h => hin h.2, if_pos ⟨hbefore, by omega⟩, hinsert,
            ← hlength { e with last := first - 1 }]
          obtain ⟨fuel, rfl⟩ : ∃ f, fuel = f + 1 := ⟨fuel - 1, by omega⟩
          have hafter : ∀ d ∈ { e with first := last + 1 } :: rest, last < d.first := by
            refine List.forall_mem_cons.mpr ⟨by simp only; omega, fun d hd => ?_⟩
            have := hlater d hd
            omega
          have hproper' : ∀ d ∈ { e with first := last + 1 } :: rest, d.first ≤ d.last :=
            List.forall_mem_cons.mpr ⟨by simp only; omega, hrest.tail.proper⟩
          obtain ⟨result, hrun, hcut⟩ := deleteOverlaps_after fuel hle
            (done ++ [{ e with last := first - 1 }]) noted hafter hproper'
          refine ⟨result, hrun, hcut.left ?_ ?_⟩
          · rw [hlefts, hx, lefts_cons_of_ge (by simp only; omega)]
          · rw [rights_cons_of_lt (by omega), rights_cons_of_lt (by simp only; omega),
              max_eq_right (by omega), max_eq_left (by simp only; omega)]
    · -- the entry begins in the range, so it is noted if it is the first such one
      have hlefts : lefts first rest = [] := lefts_eq_nil fun d hd => by
        have := hlater d hd
        omega
      have hlefts' : lefts first (e :: rest) = [] :=
        (lefts_cons_of_ge (by omega)).trans hlefts
      have hnote : (if e.first ≥ first ∧ noted = none then some done.length else noted)
          = if noted = none then some done.length else noted := by
        simp only [ge_iff_le, Int.not_lt.mp hbefore, true_and]
      rw [hnote, if_neg (by omega), if_neg (by omega), if_neg fun h => hbefore h.1,
        if_neg fun h => hbefore h.1]
      by_cases hend : e.last > last
      · rw [if_pos hend, hset, ← hlength { e with first := last + 1 }]
        obtain ⟨result, hrun, hcut⟩ := ih (done ++ [{ e with first := last + 1 }])
          (if noted = none then some done.length else noted) hrest.tail hfuel
        refine ⟨result, hrun, hcut.right rfl hlefts' hlefts ?_⟩
        rw [rights_cons_of_lt hend, max_eq_right (by omega), List.append_assoc]
        rfl
      · rw [if_neg hend, List.eraseIdx_append_of_length_le (Nat.le_refl _), Nat.sub_self,
          List.eraseIdx_cons_zero]
        obtain ⟨result, hrun, hcut⟩ := ih done
          (if noted = none then some done.length else noted) hrest.tail hfuel
        exact ⟨result, hrun, hcut.right rfl hlefts' hlefts
          (congrArg (done ++ ·) (rights_cons_of_ge (by omega)))⟩

end cut

/-! ### The new entry -/

section insert

variable {first last : Int} {val : V} {left right : List (RangeTableEntry V)}

theorem combineBefore_eq (left right : List (RangeTableEntry V)) (e : RangeTableEntry V) :
    combineBefore e.first e.last e.val (left ++ e :: right) left.length
      = ((joinLeft left e).1 ++ (joinLeft left e).2 :: right, (joinLeft left e).1.length,
          (joinLeft left e).2.first) := by
  rw [combineBefore, joinLeft]
  obtain rfl | ⟨left, d, rfl⟩ := List.eq_nil_or_concat left
  · rfl
  · rw [List.concat_eq_append, List.getLast?_concat]
    have hlength : (left ++ [d]).length = left.length + 1 := List.length_append
    have hentry : (left ++ [d] ++ e :: right)[(left ++ [d]).length - 1]? = some d := by
      rw [hlength, Nat.add_sub_cancel, List.append_assoc, List.getElem?_append_right (Nat.le_refl _),
        Nat.sub_self]
      rfl
    rw [if_pos (by omega), hentry]
    simp only
    split
    · rename_i hjoin
      rw [hlength, Nat.add_sub_cancel, List.dropLast_concat, List.append_assoc,
        List.set_append_right _ _ (Nat.le_refl _), Nat.sub_self,
        List.eraseIdx_append_of_length_le (Nat.le_add_right _ 1), Nat.add_sub_cancel_left]
      simp only [List.singleton_append, List.set_cons_zero, List.eraseIdx_cons_succ,
        List.eraseIdx_cons_zero, hjoin.1]
    · rfl

theorem combineAfter_eq (left right : List (RangeTableEntry V)) (e : RangeTableEntry V) :
    combineAfter e.first e.last e.val (left ++ e :: right) left.length
      = left ++ joinRight e right := by
  rw [combineAfter]
  have hlength : (left ++ e :: right).length = left.length + right.length + 1 := by
    rw [List.length_append, List.length_cons]
    omega
  cases right with
  | nil =>
    rw [if_neg (by rw [hlength, List.length_nil]; omega)]
    rfl
  | cons d right =>
    have hentry : (left ++ e :: d :: right)[left.length + 1]? = some d := by
      rw [List.getElem?_append_right (Nat.le_add_right _ 1), Nat.add_sub_cancel_left]
      rfl
    rw [if_pos (by rw [hlength, List.length_cons]; omega), hentry, joinRight]
    simp only
    split
    · rename_i hjoin
      rw [List.set_append_right _ _ (Nat.le_add_right _ 1), Nat.add_sub_cancel_left,
        List.eraseIdx_append_of_length_le (Nat.le_refl _), Nat.sub_self]
      simp only [List.set_cons_succ, List.set_cons_zero, List.eraseIdx_cons_zero, hjoin.1]
    · rfl

theorem last_joinLeft (left : List (RangeTableEntry V)) (e : RangeTableEntry V) :
    (joinLeft left e).2.last = e.last ∧ (joinLeft left e).2.val = e.val := by
  rw [joinLeft]
  split
  · split
    · exact ⟨rfl, rfl⟩
    · exact ⟨rfl, rfl⟩
  · exact ⟨rfl, rfl⟩

end insert

variable {table : List (RangeTableEntry V)} {first last : Int}

theorem putRangeTable_none (h : Canonical table) (hle : first ≤ last) :
    putRangeTable table first last none = some (erase first last table) := by
  obtain ⟨⟨entries, i, noted⟩, hrun, hcut⟩ := deleteOverlaps_cutsOut hle [] table none h
    (Nat.lt_succ_self (table.length + 1))
  have hentries : entries = erase first last table := hcut.entries
  rw [List.nil_append, List.length_nil] at hrun
  rw [putRangeTable, hrun, hentries]
  rfl

/-- **`put_range_table`** paints the range. -/
theorem putRangeTable_some (h : Canonical table) (hle : first ≤ last) (val : V) :
    putRangeTable table first last (some val) = some (paint ⟨first, last, val⟩ table) := by
  obtain ⟨⟨entries, i, noted⟩, hrun, hcut⟩ := deleteOverlaps_cutsOut hle [] table none h
    (Nat.lt_succ_self (table.length + 1))
  have hentries : entries = lefts first table ++ rights last table := hcut.entries
  have hfound : noted.getD i = (lefts first table).length := by
    rw [← Nat.zero_add (lefts first table).length]
    exact hcut.found rfl
  rw [List.nil_append, List.length_nil] at hrun
  rw [putRangeTable, hrun]
  simp only [Option.bind_eq_bind, Option.bind_some, hentries, hfound, insertIdx_length_append]
  have hbefore := combineBefore_eq (lefts first table) (rights last table)
    ⟨first, last, val⟩
  simp only at hbefore
  rw [hbefore]
  simp only
  have hafter := combineAfter_eq (joinLeft (lefts first table) ⟨first, last, val⟩).1
    (rights last table) (joinLeft (lefts first table) ⟨first, last, val⟩).2
  obtain ⟨hlast, hval⟩ := last_joinLeft (lefts first table) ⟨first, last, val⟩
  rw [hlast, hval] at hafter
  simp only at hafter
  rw [hafter]
  rfl

/-! ### The tables of a run -/

/-- The table that a run of changes makes of an empty one. -/
def tableAfter (ops : List (TableOp V)) : Option (List (RangeTableEntry V)) :=
  ops.foldlM TableOp.run []

theorem TableOp.run_canonical (h : Canonical table) (op : TableOp V) :
    ∃ table', op.run table = some table' ∧ Canonical table' := by
  cases op with
  | put start last value =>
    rw [TableOp.run]
    split
    · exact ⟨table, rfl, h⟩
    · have hle : start ≤ last := by omega
      exact ⟨_, putRangeTable_some h hle value, h.paint hle⟩
  | remove start last =>
    rw [TableOp.run]
    split
    · exact ⟨table, rfl, h⟩
    · have hle : start ≤ last := by omega
      exact ⟨_, putRangeTable_none h hle, h.erase hle⟩
  | clear => exact ⟨[], rfl, .nil⟩

theorem tableAfter_canonical (ops : List (TableOp V)) :
    ∃ table, tableAfter ops = some table ∧ Canonical table := by
  have hruns : ∀ (ops : List (TableOp V)) (table : List (RangeTableEntry V)), Canonical table →
      ∃ table', ops.foldlM TableOp.run table = some table' ∧ Canonical table' := by
    intro ops
    induction ops with
    | nil => exact fun table h => ⟨table, rfl, h⟩
    | cons op ops ih =>
      intro table h
      obtain ⟨table₁, hrun, h₁⟩ := op.run_canonical h
      obtain ⟨table₂, hruns, h₂⟩ := ih table₁ h₁
      exact ⟨table₂, by rw [List.foldlM_cons, hrun]; exact hruns, h₂⟩
  exact hruns ops [] .nil

theorem putRangeTable_spec (h : Canonical table) (hle : first ≤ last) (val : Option V) :
    ∃ table', putRangeTable table first last val = some table' ∧ Canonical table' ∧
      ∀ pos, lookup table' pos = if first ≤ pos ∧ pos ≤ last then val else lookup table pos := by
  cases val with
  | none => exact ⟨_, putRangeTable_none h hle, h.erase hle, lookup_erase hle⟩
  | some val => exact ⟨_, putRangeTable_some h hle val, h.paint hle, lookup_paint h hle⟩

/-- **Range tables are canonical interval maps.** After any run of changes: the entries are in
order, apart, and never adjacent with `eq` values; `get_range_table` gives the value of the map
or the default; `put_range_table` changes the map on the range and nowhere else; and no other
array of a run stands for the same map. -/
theorem range_tables_canonical (ops : List (TableOp V)) :
    ∃ table, tableAfter ops = some table ∧ Canonical table ∧ verifyRangeTable table = true ∧
      (∀ pos default, getRangeTable pos table default
        = some ((lookup table pos).getD default)) ∧
      (∀ first last, first ≤ last → ∀ val, ∃ table',
        putRangeTable table first last val = some table' ∧
        ∀ pos default, getRangeTable pos table' default
          = if first ≤ pos ∧ pos ≤ last then some (val.getD default)
            else getRangeTable pos table default) ∧
      ∀ ops' table', tableAfter ops' = some table' → lookup table' = lookup table →
        table' = table := by
  obtain ⟨table, hrun, h⟩ := tableAfter_canonical ops
  refine ⟨table, hrun, h, verifyRangeTable_of_canonical h, getRangeTable_eq h, ?_, ?_⟩
  · intro first last hle val
    obtain ⟨table', hput, h', hlookup⟩ := putRangeTable_spec h hle val
    refine ⟨table', hput, fun pos default => ?_⟩
    rw [getRangeTable_eq h', getRangeTable_eq h, hlookup]
    split
    · rfl
    · rfl
  · intro ops' table' hrun' hsame
    obtain ⟨table'', hrun'', h'⟩ := tableAfter_canonical ops'
    obtain rfl := Option.some.inj (hrun'.symm.trans hrun'')
    exact h'.unique h hsame

/-- A range that splits an entry and one that joins three. -/
example : tableAfter [.put 0 9 'a', .put 3 5 'b', .put 3 5 'a', .remove 7 7]
    = some [⟨0, 6, 'a'⟩, ⟨8, 9, 'a'⟩] := by
  decide

/-! ### The printed form -/

/-- A range in the printed form: a position, or a list of two. -/
inductive PrintedRange where
  | int (pos : Int)
  | list (first last : Int)

/-- The data of `print_range_table`, a range and a value for each entry. -/
def printRangeTable (table : List (RangeTableEntry V)) : List (PrintedRange × V) :=
  table.map fun rte =>
    (if rte.first = rte.last then .int rte.first else .list rte.first rte.last, rte.val)

/-- A turn of the loop of `rangetab_instantiate`; a range with its ends exchanged is an error. -/
def instantiateRange (table : List (RangeTableEntry V)) :
    PrintedRange × V → Option (List (RangeTableEntry V))
  | (.int pos, val) => putRangeTable table pos pos (some val)
  | (.list first last, val) =>
    if first > last then none else putRangeTable table first last (some val)

def rangetabInstantiate (data : List (PrintedRange × V)) : Option (List (RangeTableEntry V)) :=
  data.foldlM instantiateRange []

theorem foldlM_printRangeTable (read rest : List (RangeTableEntry V))
    (h : Canonical (read ++ rest)) :
    (printRangeTable rest).foldlM instantiateRange read = some (read ++ rest) := by
  induction rest generalizing read with
  | nil => exact congrArg some (List.append_nil read).symm
  | cons e rest ih =>
    obtain ⟨hread, hrest, -⟩ := Canonical.append_iff.mp h
    have hproper := hrest.proper e (List.mem_cons_self ..)
    rw [List.append_cons] at h
    have hsnoc := (Canonical.append_iff.mp h).1
    -- the table with the entry is the only one for the map
    obtain ⟨table, hput, htable, hlookup⟩ := putRangeTable_spec hread hproper (some e.val)
    have hsame : table = read ++ [e] := by
      refine htable.unique hsnoc (funext fun pos => ?_)
      rw [hlookup]
      split_ifs with hin
      · exact (hsnoc.lookup_of_mem (List.mem_append_right _ (List.mem_singleton_self e)) hin).symm
      · rw [lookup_append, lookup_cons, if_neg hin, lookup_nil, Option.or_none]
    have hturn : instantiateRange read
        (if e.first = e.last then .int e.first else .list e.first e.last, e.val) =
          some (read ++ [e]) := by
      rw [← hsame, ← hput]
      split_ifs with heq
      · rw [instantiateRange, ← heq]
      · exact if_neg (Int.not_lt.mpr hproper)
    rw [printRangeTable, List.map_cons, List.foldlM_cons, hturn]
    exact (ih _ h).trans (congrArg some (List.append_cons ..).symm)

/-- **What is printed of a range table is read as the same table**, after any changes. -/
theorem printed_rangeTable_reads (ops : List (TableOp V)) :
    ∃ table, tableAfter ops = some table ∧
      rangetabInstantiate (printRangeTable table) = some table := by
  obtain ⟨table, hrun, h⟩ := tableAfter_canonical ops
  exact ⟨table, hrun, foldlM_printRangeTable [] table h⟩

end XEmacs.Rangetab
