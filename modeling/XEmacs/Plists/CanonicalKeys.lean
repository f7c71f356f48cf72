import XEmacs.Plists.Canonicalize
import Mathlib.Data.List.TakeWhile

/-!
# What canonical property lists keep

The list that is left has the first entry of each key, and no others, unless there are entries
with value nil that count as not present. Those are passed over without being unlinked, and do
not hide later ones.
-/

namespace XEmacs.Plists

open ConsLists Machines FirstEntries List Option

variable {α κ : Type} [DecidableEq α] [DecidableEq κ] {nil : α} {nilMeans : Bool} {key : α → κ}
  {c : Cells α} {plist : Ref α} {ps : List (Nat × Nat)} {es : List (α × α)} {e : α × α} {k : κ}

/-! ### Runs -/

/-- **The loop** leaves the entries that `canonicalized` says. -/
theorem IsPlist.canonicalize (nilMeans : Bool) (key : α → κ) (h : IsPlist nil c plist ps es) :
    ∃ head c' ps', Ends (canonicalizeStep nil nilMeans (sameKey key)) ⟨c, plist, plist, none⟩
        (.ok (head, c')) ∧
      IsPlist nil c' head ps' (canonicalized nil nilMeans key es) := by
  induction h with
  | nil =>
    refine ⟨.atom nil, c, [], .done ?_, ?_⟩
    · simp only [canonicalizeStep, if_true]
    · rw [canonicalized, dropWhile_nil, canonicalizedRest]
      exact .nil
  | @cons p q ps es hq h ih =>
    have hwhole : IsPlist nil c (.cell p) ((p, q) :: ps) ((c.car p, c.car q) :: es) := .cons hq h
    by_cases hnil : notPresent nil nilMeans (c.car q) = true
    · obtain ⟨head, c', ps', hends, hplist⟩ := ih
      have hskip := hwhole.step_skip (sameKey key) (.cell p) hnil
      rw [if_pos rfl] at hskip
      refine ⟨head, c', ps', .next hskip hends, ?_⟩
      rw [canonicalized, dropWhile_cons, if_pos hnil]
      exact hplist
    · have henter := hwhole.step_enter (sameKey key) (.cell p) hnil
      have hfront : IsPlist nil c (.cell p) ([] ++ (p, q) :: ps) ([] ++ (c.car p, c.car q) :: es) :=
        hwhole
      obtain ⟨c₁, ps₁, hreach, h₁⟩ := hfront.remove_run key nilMeans (.cell p) rfl
      have hcdr : c₁.cdr q = c₁.tail (.cell p) (2 * [(p, q)].length) := by
        obtain ⟨-, hcdr, -, -⟩ := h₁.entry
        exact (Cells.tail_succ_of_cell ((Cells.tail_succ_of_cell rfl).trans hcdr)).symm
      have hbehind : IsPlist nil c₁ (.cell p) ([(p, q)] ++ ps₁) ([(c.car p, c.car q)] ++
          without (propKey key) es (propKey key (c.car p, c.car q))) := h₁
      obtain ⟨c', ps', hends, hplist⟩ :=
        hbehind.canonicalize_rest key nilMeans rfl (by simp) hcdr
      refine ⟨_, c', ps', .next henter (hends.of_reaches hreach), ?_⟩
      rw [canonicalized, dropWhile_cons, if_neg hnil, canonicalizedRest, if_neg hnil]
      exact hplist

omit [DecidableEq κ] in
theorem IsPlist.check_iff (h : IsPlist nil c plist ps es) (o : Option (PlistError α)) :
    CheckValidPlist nil c plist o ↔ o = none := by
  have hwalks := h.walks .errorMe .none
  rw [List.findIdx?_eq_none_iff.mpr fun _ _ => rfl] at hwalks
  constructor
  · rintro ⟨w, hw, ho⟩
    rw [hw.unique hwalks] at ho
    exact ho
  · rintro rfl
    exact ⟨_, hwalks, rfl⟩

theorem IsPlist.canonicalize_iff (nilMeans : Bool) (key : α → κ) (h : IsPlist nil c plist ps es) :
    ∃ head c' ps', IsPlist nil c' head ps' (canonicalized nil nilMeans key es) ∧
      ∀ a, Canonicalize nil nilMeans (sameKey key) c plist a ↔ a = .ok (head, c') := by
  obtain ⟨head, c', ps', hends, hplist⟩ := h.canonicalize nilMeans key
  refine ⟨head, c', ps', hplist, fun a => ⟨?_, ?_⟩⟩
  · rintro (⟨e, he, -⟩ | ⟨-, ha⟩)
    · cases (h.check_iff _).mp he
    · exact ha.unique hends
  · rintro rfl
    exact .inr ⟨(h.check_iff _).mpr rfl, hends⟩

/-! ### Entries -/

theorem first_canonicalizedRest (es : List (α × α)) (k : κ) :
    first (propKey key) (canonicalizedRest nil nilMeans key es) k =
      first (propKey key) es k := by
  induction es using canonicalizedRest.induct nil nilMeans key with
  | case1 => rw [canonicalizedRest]
  | case2 e es hnil ih =>
    rw [canonicalizedRest, if_pos hnil]
    by_cases hk : propKey key e = k
    · subst hk
      exact first_cons_self.trans first_cons_self.symm
    · rw [first_cons_of_ne hk, first_cons_of_ne hk, ih]
  | case3 e es hnil ih =>
    rw [canonicalizedRest, if_neg hnil]
    by_cases hk : propKey key e = k
    · subst hk
      exact first_cons_self.trans first_cons_self.symm
    · rw [first_cons_of_ne hk, first_cons_of_ne hk, ih, first_without (Ne.symm hk)]

theorem canonicalizedRest_eq (h : ∀ e ∈ es, ∀ v, value key es (propKey key e) = some v →
    notPresent nil nilMeans v = false) :
    canonicalizedRest nil nilMeans key es = firsts (propKey key) es := by
  induction es using canonicalizedRest.induct nil nilMeans key with
  | case1 => rw [canonicalizedRest, firsts]
  | case2 e es hnil ih =>
    have hself : value key (e :: es) (propKey key e) = some e.2 := by
      rw [value, first_cons_self]
      rfl
    rw [h e (mem_cons_self ..) e.2 hself] at hnil
    cases hnil
  | case3 e es hnil ih =>
    rw [canonicalizedRest, if_neg hnil, firsts, ih]
    intro f hf v hv
    obtain ⟨hmem, hne⟩ := mem_without.mp hf
    refine h f (mem_cons_of_mem e hmem) v ?_
    rw [value, first_without hne] at hv
    rw [value, first_cons_of_ne (Ne.symm hne), hv]

omit [DecidableEq α] in
theorem value_eq_none_iff : value key es k = none ↔ ∀ e ∈ es, propKey key e ≠ k := by
  rw [value, map_eq_none_iff, first_eq_none_iff]

omit [DecidableEq α] in
variable (key) in
theorem exists_value (h : e ∈ es) : ∃ v, value key es (propKey key e) = some v := by
  obtain ⟨e', he'⟩ := exists_first (propKey key) h
  exact ⟨e'.2, by rw [value, he']; rfl⟩

theorem value_canonicalized (k : κ) : value key (canonicalized nil nilMeans key es) k =
    value key (es.dropWhile fun e => notPresent nil nilMeans e.2) k := by
  rw [canonicalized, value, first_canonicalizedRest, value]

/-- The value of a property, if it counts. -/
def presentValue (nil : α) (nilMeans : Bool) (key : α → κ) (es : List (α × α)) (k : κ) : Option α :=
  (value key es k).filter fun v => !notPresent nil nilMeans v

theorem value_front (hk : k ∈ (es.takeWhile fun e => notPresent nil nilMeans e.2).map (propKey key)) :
    ∃ v, value key es k = some v ∧ notPresent nil nilMeans v = true := by
  obtain ⟨e, he, rfl⟩ := List.mem_map.mp hk
  obtain ⟨e', he'⟩ := exists_first (propKey key) he
  refine ⟨e'.2, ?_, ?_⟩
  · rw [value, ← takeWhile_append_dropWhile (p := fun e => notPresent nil nilMeans e.2)
      (l := es), first_append, he']
    rfl
  · exact mem_takeWhile_imp (p := fun e : α × α => notPresent nil nilMeans e.2)
      (key_of_first he').2

theorem value_behind
    (hk : k ∉ (es.takeWhile fun e => notPresent nil nilMeans e.2).map (propKey key)) :
    value key (es.dropWhile fun e => notPresent nil nilMeans e.2) k = value key es k := by
  have hnone : first (propKey key) (es.takeWhile fun e => notPresent nil nilMeans e.2) k = none :=
    first_eq_none_iff.mpr fun e he heq => hk (List.mem_map.mpr ⟨e, he, heq⟩)
  conv_rhs =>
    rw [value, ← takeWhile_append_dropWhile (p := fun e => notPresent nil nilMeans e.2)
      (l := es), first_append, hnone, Option.none_or]
  rfl

/-- Behind the entries at the front no key has a first value that does not count. -/
def Leading (nil : α) (nilMeans : Bool) (key : α → κ) (es : List (α × α)) : Prop :=
  ∀ e ∈ es.dropWhile (fun e => notPresent nil nilMeans e.2),
    ∀ v, value key es (propKey key e) = some v → notPresent nil nilMeans v = false

/-- What is said of the entries that are left. -/
structure KeepsMap (nil : α) (nilMeans : Bool) (key : α → κ) (es es' : List (α × α)) : Prop where
  nodup : (es'.map (propKey key)).Nodup
  value : ∀ k, value key es' k = presentValue nil nilMeans key es k
  present : ∀ e ∈ es', notPresent nil nilMeans e.2 = false

theorem keepsMap_iff : KeepsMap nil nilMeans key es (canonicalized nil nilMeans key es) ↔
    Leading nil nilMeans key es := by
  constructor
  · intro h e he v hv
    obtain ⟨v', hv'⟩ := exists_value key he
    rw [← value_canonicalized, h.value, presentValue, hv, filter_eq_some_iff] at hv'
    obtain ⟨heq, hpresent⟩ := hv'
    cases heq
    exact (Bool.not_eq_true' _).mp hpresent
  · intro h
    -- each key is at the front or behind, not both
    have hfront : ∀ e ∈ es.dropWhile (fun e => notPresent nil nilMeans e.2),
        value key (es.dropWhile fun e => notPresent nil nilMeans e.2) (propKey key e) =
          value key es (propKey key e) := by
      intro e he
      refine value_behind fun hmem => ?_
      obtain ⟨v, hv, hnot⟩ := value_front hmem
      rw [h e he v hv] at hnot
      cases hnot
    have heq : canonicalized nil nilMeans key es =
        firsts (propKey key) (es.dropWhile fun e => notPresent nil nilMeans e.2) := by
      refine canonicalizedRest_eq fun e he v hv => h e he v ?_
      rw [← hfront e he, hv]
    refine ⟨?_, fun k => ?_, fun e he => ?_⟩
    · rw [heq]
      exact firsts_nodup _
    · rw [value_canonicalized, presentValue]
      by_cases hk : k ∈ (es.dropWhile fun e => notPresent nil nilMeans e.2).map (propKey key)
      · obtain ⟨e, he, rfl⟩ := List.mem_map.mp hk
        obtain ⟨v, hv⟩ := exists_value key he
        rw [hv, ← hfront e he, hv, filter_some, h e he v (hfront e he ▸ hv)]
        rfl
      · have hnone : value key (es.dropWhile fun e => notPresent nil nilMeans e.2) k = none :=
          value_eq_none_iff.mpr fun e he heq => hk (List.mem_map.mpr ⟨e, he, heq⟩)
        rw [hnone]
        by_cases hfront : k ∈ (es.takeWhile fun e => notPresent nil nilMeans e.2).map (propKey key)
        · obtain ⟨v, hv, hnot⟩ := value_front hfront
          rw [hv, filter_some, hnot]
          rfl
        · rw [← value_behind hfront, hnone]
          rfl
    · rw [heq] at he
      refine h e (mem_of_mem_firsts he) e.2 ?_
      rw [← hfront e (mem_of_mem_firsts he), value, first_of_mem_firsts he]
      rfl

/-! ### The functions -/

/-- What is said of a function that makes a list canonical. -/
structure Canonicalizes (nil : α) (nilMeans : Bool) (key : α → κ) (es : List (α × α))
    (F : Except (CanonicalizeError α) (Ref α × Cells α) → Prop) : Prop where
  ends : ∃ a, F a
  keeps : ∀ a, F a → ∃ r c' ps' es', a = .ok (r, c') ∧ IsPlist nil c' r ps' es' ∧
    KeepsMap nil nilMeans key es es'
  get : ∀ r c', F (.ok (r, c')) → ∀ property a,
    ExternalPlistGet nil c' r .errorMe (sameKey key) property a ↔
      a = .returned (presentValue nil nilMeans key es (key property)) r c'

omit [DecidableEq α] [DecidableEq κ] in
theorem IsPlist.entries_unique {r : Ref α} {ps' : List (Nat × Nat)} {es' : List (α × α)}
    (h : IsPlist nil c r ps es) (h' : IsPlist nil c r ps' es') : es = es' := by
  induction h generalizing ps' es' with
  | nil =>
    cases h'
    rfl
  | @cons p q ps es hq _ ih =>
    cases h' with
    | cons hq' h' =>
      obtain rfl := Ref.cell.inj (hq.symm.trans hq')
      rw [ih h']

theorem canonicalizes_iff (h : IsPlist nil c plist ps es) :
    Canonicalizes nil nilMeans key es (Canonicalize nil nilMeans (sameKey key) c plist) ↔
      (nilMeans = true → Leading nil true key es) := by
  have hleading : Leading nil nilMeans key es ↔ (nilMeans = true → Leading nil true key es) := by
    cases nilMeans with
    | false => exact iff_of_true (fun _ _ _ _ => rfl) nofun
    | true => exact ⟨fun h _ => h, fun h => h rfl⟩
  rw [← hleading, ← keepsMap_iff]
  obtain ⟨head, c', ps', hplist, hresult⟩ := h.canonicalize_iff nilMeans key
  constructor
  · rintro ⟨-, hkeeps, -⟩
    obtain ⟨r, c₁, ps₁, es₁, heq, h₁, hmap⟩ := hkeeps _ ((hresult _).mpr rfl)
    cases heq
    rwa [hplist.entries_unique h₁]
  · intro hmap
    refine ⟨⟨_, (hresult _).mpr rfl⟩, fun a ha => ?_, fun r c₁ ha property a => ?_⟩
    · exact ⟨head, c', ps', _, (hresult a).mp ha, hplist, hmap⟩
    · cases (hresult _).mp ha
      rw [hplist.get_iff key .errorMe property a, hmap.value]

/-- **Canonical property lists** are as is said of them if nil is a value, or if all entries of
the keys whose first value is nil are at the front of the list. -/
theorem canonicalizePlists_iff (nilMeans : Bool) (contents : α → κ)
    (h : IsPlist nil c plist ps es) :
    (Canonicalizes nil nilMeans id es (CanonicalizePlist nil nilMeans c plist) ↔
        (nilMeans = true → Leading nil true id es)) ∧
      (Canonicalizes nil nilMeans contents es
          (CanonicalizeLaxPlist nil nilMeans (sameKey contents) c plist) ↔
        (nilMeans = true → Leading nil true contents es)) :=
  ⟨canonicalizes_iff h, canonicalizes_iff h⟩

/-- The list `(1 2 3 0)`. -/
def fourConses : Cells Nat where
  next := 4
  car p := if p = 3 then 0 else p + 1
  cdr p := if p = 3 then .atom 0 else .cell (p + 1)

theorem fourConses_isPlist : IsPlist 0 fourConses (.cell 0) [(0, 1), (2, 3)] [(1, 2), (3, 0)] :=
  .cons rfl (.cons rfl .nil)

theorem canonicalizePlists_four :
    (Canonicalizes 0 true id [(1, 2), (3, 0)] (CanonicalizePlist 0 true fourConses (.cell 0)) ↔
        (true = true → Leading 0 true id [(1, 2), (3, 0)])) ∧
      (Canonicalizes 0 true (· % 2) [(1, 2), (3, 0)]
          (CanonicalizeLaxPlist 0 true (sameKey (· % 2)) fourConses (.cell 0)) ↔
        (true = true → Leading 0 true (· % 2) [(1, 2), (3, 0)])) :=
  canonicalizePlists_iff true (· % 2) fourConses_isPlist

/-- The entry with nil stays in its place. -/
theorem canonicalizes_nil : ¬ ∀ (nil : Nat) (nilMeans : Bool) (c : Cells Nat) (plist : Ref Nat)
    (ps : List (Nat × Nat)) (es : List (Nat × Nat)), IsPlist nil c plist ps es →
      Canonicalizes nil nilMeans id es (CanonicalizePlist nil nilMeans c plist) := by
  intro h
  have hleading := (canonicalizes_iff fourConses_isPlist).mp
    (h 0 true fourConses (.cell 0) _ _ fourConses_isPlist) rfl
  have hpresent := hleading (3, 0) (by decide) 0 (by decide)
  cases hpresent

end XEmacs.Plists
