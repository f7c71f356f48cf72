import XEmacs.Plists.WalkSafe
import XEmacs.Lib.FirstEntries

/-!
# Property lists as lists of entries

Of a property list `plist-get` sees the first entry of each key (`IsPlist.get_iff`), and an entry
that is unlinked from its conses is taken out of the list (`IsPlist.unlink`).
-/

namespace XEmacs.Plists

open ConsLists Machines FirstEntries List Function

variable {α κ : Type} [DecidableEq κ] {c : Cells α} {nil : α} {r plist : Ref α}
  {ps qs : List (Nat × Nat)} {es fs : List (α × α)}

def sameKey (key : α → κ) (a b : α) : Bool := key a = key b

/-- The key of an entry. -/
def propKey (key : α → κ) (e : α × α) : κ := key e.1

/-- The value of a property. -/
def value (key : α → κ) (es : List (α × α)) (k : κ) : Option α :=
  (first (propKey key) es k).map (·.2)

omit [DecidableEq κ] in
theorem IsPlist.split (h : IsPlist nil c r (ps ++ qs) (es ++ fs)) (hlen : ps.length = es.length) :
    IsPlist nil c (c.tail r (2 * ps.length)) qs fs := by
  induction ps generalizing r es with
  | nil =>
    obtain rfl : es = [] := eq_nil_of_length_eq_zero hlen.symm
    exact h
  | cons p ps ih =>
    cases es with
    | nil => cases hlen
    | cons e es =>
      cases h with
      | cons hq h =>
        rw [length_cons, Nat.mul_succ, tail_two hq]
        exact ih h (Nat.succ.inj hlen)

omit [DecidableEq κ] in
theorem IsPlist.entry {p : Nat × Nat} {e : α × α} (h : IsPlist nil c r (p :: ps) (e :: es)) :
    r = .cell p.1 ∧ c.cdr p.1 = .cell p.2 ∧ e = (c.car p.1, c.car p.2) ∧
      IsPlist nil c (c.cdr p.2) ps es := by
  cases h with
  | cons hq h => exact ⟨rfl, hq, rfl, h⟩

omit [DecidableEq κ] in
theorem IsPlist.findIdx (h : IsPlist nil c plist ps es) {test : α × α → Bool} {i : Nat}
    (hi : es.findIdx? test = some i) : ∃ ps₁ p ps₂ es₁ e es₂, ps = ps₁ ++ p :: ps₂ ∧
      es = es₁ ++ e :: es₂ ∧ ps₁.length = i ∧ es₁.length = i ∧ test e = true ∧
      ∀ e' ∈ es₁, test e' = false := by
  obtain ⟨hlt, htest, hbefore⟩ := List.findIdx?_eq_some_iff_getElem.mp hi
  have hlt' : i < ps.length := h.length_eq ▸ hlt
  refine ⟨ps.take i, ps[i], ps.drop (i + 1), es.take i, es[i], es.drop (i + 1), ?_, ?_,
    length_take_of_le hlt'.le, length_take_of_le hlt.le, htest, fun e' he' => ?_⟩
  · rw [getElem_cons_drop, take_append_drop]
  · rw [getElem_cons_drop, take_append_drop]
  · obtain ⟨j, hj, rfl⟩ := getElem_of_mem he'
    rw [length_take_of_le hlt.le] at hj
    rw [getElem_take]
    exact Bool.eq_false_iff.mpr (hbefore j hj)

/-- The conses of a property list. -/
def conses (ps : List (Nat × Nat)) : List Nat := ps.flatMap fun p => [p.1, p.2]

theorem conses_cons (p : Nat × Nat) (ps : List (Nat × Nat)) :
    conses (p :: ps) = p.1 :: p.2 :: conses ps := rfl

theorem conses_append (ps qs : List (Nat × Nat)) : conses (ps ++ qs) = conses ps ++ conses qs :=
  flatMap_append

omit [DecidableEq κ] in
theorem IsPlist.linked (h : IsPlist nil c r ps es) : Linked c r (conses ps) (.atom nil) := by
  induction h with
  | nil => exact .nil _
  | @cons p q ps es hq _ ih =>
    refine .cons ?_
    rw [hq]
    exact .cons ih

omit [DecidableEq κ] in
theorem IsPlist.nodup (h : IsPlist nil c r ps es) : (conses ps).Nodup := h.linked.dotted.nodup

omit [DecidableEq κ] in
theorem IsPlist.frame (h : IsPlist nil c r ps es) {x : Nat} (hx : x ∉ conses ps) (new : Ref α) :
    IsPlist nil (c.setCdr x new) r ps es := by
  induction h with
  | nil => exact .nil
  | @cons p q ps es hq h ih =>
    rw [conses_cons, mem_cons, mem_cons, not_or, not_or] at hx
    obtain ⟨hp, hq', hps⟩ := hx
    have hcdr : (c.setCdr x new).cdr q = c.cdr q := update_of_ne (Ne.symm hq') _ _
    refine .cons ((update_of_ne (Ne.symm hp) _ _).trans hq) ?_
    rw [hcdr]
    exact ih hps

omit [DecidableEq κ] in
theorem IsPlist.unlink {p₀ p₁ : Nat × Nat} {e₀ e₁ : α × α}
    (h : IsPlist nil c r (ps ++ p₀ :: p₁ :: qs) (es ++ e₀ :: e₁ :: fs))
    (hlen : ps.length = es.length) :
    IsPlist nil (c.setCdr p₀.2 (c.cdr p₁.2)) r (ps ++ p₀ :: qs) (es ++ e₀ :: fs) := by
  have hnodup := h.nodup
  induction ps generalizing r es with
  | nil =>
    obtain rfl : es = [] := eq_nil_of_length_eq_zero hlen.symm
    obtain ⟨rfl, hq₀, rfl, hrest⟩ := h.entry
    obtain ⟨-, -, -, hqs⟩ := hrest.entry
    simp only [nil_append, conses_cons, nodup_cons, mem_cons, not_or] at hnodup
    obtain ⟨⟨hne, -⟩, ⟨-, -, hnot⟩, -⟩ := hnodup
    have hset : (c.setCdr p₀.2 (c.cdr p₁.2)).cdr p₀.2 = c.cdr p₁.2 := update_self ..
    refine .cons ((update_of_ne hne _ _).trans hq₀) ?_
    rw [hset]
    exact hqs.frame hnot _
  | cons p ps ih =>
    cases es with
    | nil => cases hlen
    | cons e es =>
      obtain ⟨rfl, hq, rfl, hrest⟩ := h.entry
      have hmem : p₀.2 ∈ conses (ps ++ p₀ :: p₁ :: qs) := by simp [conses_append, conses_cons]
      rw [cons_append, conses_cons, nodup_cons, nodup_cons, mem_cons,
        not_or] at hnodup
      obtain ⟨⟨-, hp⟩, hq', hnodup⟩ := hnodup
      have hset : (c.setCdr p₀.2 (c.cdr p₁.2)).cdr p.2 = c.cdr p.2 :=
        update_of_ne (ne_of_mem_of_not_mem hmem hq').symm _ _
      refine .cons ((update_of_ne (ne_of_mem_of_not_mem hmem hp).symm _ _).trans hq) ?_
      rw [hset]
      exact ih hrest (Nat.succ.inj hlen) hnodup

/-- **`plist-get`** sees the first entry of a key. -/
theorem IsPlist.get_iff [DecidableEq α] (h : IsPlist nil c plist ps es) (key : α → κ)
    (errb : ErrorBehavior) (property : α) (a : Answer α (Option α)) :
    ExternalPlistGet nil c plist errb (sameKey key) property a ↔
      a = .returned (value key es (key property)) plist c := by
  have hwalks := h.walks errb (.keyIs c (sameKey key) property)
  have hlast : getAt c plist (walked c plist (es.findIdx? fun e => sameKey key e.1 property)) =
      .ok (.returned (value key es (key property)) plist c) := by
    cases hfind : es.findIdx? fun e => sameKey key e.1 property with
    | none =>
      have hnone : first (propKey key) es (key property) = none :=
        first_eq_none_iff.mpr fun e he =>
          of_decide_eq_false (List.findIdx?_eq_none_iff.mp hfind e he)
      rw [value, hnone]
      rfl
    | some i =>
      obtain ⟨ps₁, p, ps₂, es₁, e, es₂, rfl, rfl, rfl, hes, htest, hbefore⟩ := h.findIdx hfind
      obtain ⟨hp, hq, rfl, -⟩ := (h.split hes.symm).entry
      have hfirst : first (propKey key) (es₁ ++ (c.car p.1, c.car p.2) :: es₂)
          (key property) = some (c.car p.1, c.car p.2) := by
        have hnone : first (propKey key) es₁ (key property) = none :=
          first_eq_none_iff.mpr fun e he => of_decide_eq_false (hbefore e he)
        rw [first_append, hnone, Option.none_or, ← of_decide_eq_true htest]
        exact first_cons_self
      have hget : (Place.nth c plist (2 * ps₁.length)).get c plist = .cell p.1 := by
        rw [Place.get_nth fun j hj => h.tails.2 j (by rw [length_append]; omega), hp]
      simp only [value, hfirst, walked, getAt, hget, Lists.xcdr, hq]
      rfl
  constructor
  · rintro ⟨w, hw, ha⟩
    rw [hw.unique hwalks, hlast] at ha
    exact (Except.ok.inj ha).symm
  · rintro rfl
    exact ⟨_, hwalks, hlast⟩

end XEmacs.Plists
