import XEmacs.Plists.Entries

/-!
# Canonical property lists (fns.c)

`canonicalize-plist` goes along a list and removes from behind each entry the later ones with its
key, in place. An entry that counts as not present is passed over.
-/

namespace XEmacs.Plists

open ConsLists Machines FirstEntries List
open XEmacs.Lists (Fault ListError fcar fcdr)

variable {α κ : Type} [DecidableEq α]

/-- The errors of both kinds. -/
inductive CanonicalizeError (α : Type) where
  | plist (e : PlistError α)
  | list (e : ListError α)

/-- The variables of `canonicalize-plist`, and those of `external_remprop` while it runs for
`next` and `prop`. -/
structure Canonicalizing (α : Type) where
  cells : Cells α
  head : Ref α
  plist : Ref α
  removing : Option (Nat × α × Pointers)

section functions

variable (nil : α) (nilMeansNotPresent : Bool) (same : α → α → Bool)

/-- The loop up to the call of `external_remprop`. -/
def Canonicalizing.enter (s : Canonicalizing α) : Except (ListError α) (Canonicalizing α) := do
  let prop ← fcar nil s.cells s.plist
  match ← fcdr nil s.cells s.plist with
  | .atom a => .error (.wrongTypeArgument "consp" (.atom a))
  | .cell next =>
    if nilMeansNotPresent = true ∧ s.cells.car next = nil then
      return { s with
        head := if s.head = s.plist then s.cells.cdr next else s.head
        plist := s.cells.cdr next }
    else return { s with removing := some (next, prop, start) }

/-- `external_remprop` has come to a result; it is called again if it has removed an entry. -/
def Canonicalizing.removed (s : Canonicalizing α) (next : Nat) (prop : α) :
    Answer α Bool → Outcome (Canonicalizing α) (Except (CanonicalizeError α) (Ref α × Cells α))
  | .signaled e => .done (.error (.plist e))
  | .returned b rest c =>
    let cells := c.setCdr next rest
    if b then .next { s with cells, removing := some (next, prop, start) }
    else .next { s with cells, plist := cells.cdr next, removing := none }

/-- A round of the loop, or of the loop in `external_remprop`. -/
def canonicalizeStep (s : Canonicalizing α) : Except Fault
    (Outcome (Canonicalizing α) (Except (CanonicalizeError α) (Ref α × Cells α))) :=
  match s.removing with
  | none =>
    if s.plist = .atom nil then .ok (.done (.ok (s.head, s.cells)))
    else match s.enter nil nilMeansNotPresent with
      | .ok s' => .ok (.next s')
      | .error e => .ok (.done (.error (.list e)))
  | some (next, prop, p) => do
    match ← walk nil .errorMe s.cells (s.cells.cdr next) (keyIs s.cells same prop) p with
    | .next p' => return .next { s with removing := some (next, prop, p') }
    | .done w => return s.removed next prop (← rempropAt s.cells (s.cells.cdr next) w)

/-- What `canonicalize-plist` and `canonicalize-lax-plist` have in common. -/
def Canonicalize (c : Cells α) (plist : Ref α)
    (a : Except (CanonicalizeError α) (Ref α × Cells α)) : Prop :=
  (∃ e, CheckValidPlist nil c plist (some e) ∧ a = .error (.plist e)) ∨
    CheckValidPlist nil c plist none ∧
      Ends (canonicalizeStep nil nilMeansNotPresent same) ⟨c, plist, plist, none⟩ a

/-- `canonicalize-plist`. -/
def CanonicalizePlist (c : Cells α) (plist : Ref α) :
    Except (CanonicalizeError α) (Ref α × Cells α) → Prop :=
  Canonicalize nil nilMeansNotPresent (· = ·) c plist

/-- `canonicalize-lax-plist`. -/
def CanonicalizeLaxPlist (equal : α → α → Bool) (c : Cells α) (laxPlist : Ref α) :
    Except (CanonicalizeError α) (Ref α × Cells α) → Prop :=
  Canonicalize nil nilMeansNotPresent equal c laxPlist

end functions

/-! ### The list that is left -/

section canonicalized

variable [DecidableEq κ] (nil : α) (nilMeans : Bool) (key : α → κ)

/-- The value counts as no value. -/
def notPresent (v : α) : Bool := nilMeans && decide (v = nil)

/-- The entries that are left behind some others. -/
def canonicalizedRest : List (α × α) → List (α × α)
  | [] => []
  | e :: es =>
    if notPresent nil nilMeans e.2 then e :: canonicalizedRest es
    else e :: canonicalizedRest (without (propKey key) es (propKey key e))
termination_by es => es.length
decreasing_by
  · exact Nat.lt_succ_self _
  · exact Nat.lt_succ_of_le (length_filter_le _ _)

/-- The entries that are left. -/
def canonicalized (es : List (α × α)) : List (α × α) :=
  canonicalizedRest nil nilMeans key (es.dropWhile fun e => notPresent nil nilMeans e.2)

end canonicalized

/-! ### Removing the entries behind one -/

variable [DecidableEq κ] {nil : α} {nilMeans : Bool} {key : α → κ} {c : Cells α}
  {head plist : Ref α} {x q : Nat} {ps ps₂ : List (Nat × Nat)} {e : α × α} {es es₂ : List (α × α)}

theorem reaches_of_walk (nilMeans : Bool) (head plist : Ref α) {same : α → α → Bool} {prop : α} {p : Pointers} {w : Walked α}
    (h : Ends (walk nil .errorMe c (c.cdr q) (keyIs c same prop)) p w) :
    ∃ p', Reaches (canonicalizeStep nil nilMeans same) ⟨c, head, plist, some (q, prop, p)⟩
        ⟨c, head, plist, some (q, prop, p')⟩ ∧
      walk nil .errorMe c (c.cdr q) (keyIs c same prop) p' = .ok (.done w) := by
  induction h with
  | done h => exact ⟨_, .refl, h⟩
  | next h _ ih =>
    obtain ⟨p', hreach, hdone⟩ := ih
    refine ⟨p', .head ?_ hreach, hdone⟩
    rw [Next, canonicalizeStep]
    simp only [h]
    rfl

theorem reaches_of_remprop (nilMeans : Bool) (head plist : Ref α) {same : α → α → Bool} {prop : α} {p : Pointers} {w : Walked α}
    {b : Bool} {rest : Ref α} {c₁ : Cells α}
    (h : Ends (walk nil .errorMe c (c.cdr q) (keyIs c same prop)) p w)
    (hw : rempropAt c (c.cdr q) w = .ok (.returned b rest c₁)) :
    Reaches (canonicalizeStep nil nilMeans same) ⟨c, head, plist, some (q, prop, p)⟩
      (if b then ⟨c₁.setCdr q rest, head, plist, some (q, prop, start)⟩
      else ⟨c₁.setCdr q rest, head, (c₁.setCdr q rest).cdr q, none⟩) := by
  obtain ⟨p', hreach, hdone⟩ := reaches_of_walk nilMeans head plist h
  refine hreach.tail ?_
  rw [Next, canonicalizeStep]
  simp only [hdone]
  show (rempropAt c (c.cdr q) w >>= fun a => _) = _
  rw [hw]
  cases b <;> rfl

omit [DecidableEq α] in
theorem setCdr_self (c : Cells α) (q : Nat) : c.setCdr q (c.cdr q) = c := by
  rw [Cells.setCdr, Function.update_eq_self]

omit [DecidableEq α] [DecidableEq κ] in
/-- What the removal of an entry leaves, of the list from the head on. -/
theorem IsPlist.remove {a b : List (Nat × Nat)} {p : Nat × Nat} {f : α × α}
    {fa fb : List (α × α)}
    (h : IsPlist nil c head (ps ++ (x, q) :: (a ++ p :: b)) (es ++ e :: (fa ++ f :: fb)))
    (hlen : ps.length = es.length) (ha : a.length = fa.length) :
    ∃ rest c₁, rempropAt c (c.cdr q) (.found (Place.nth c (c.cdr q) (2 * a.length))) =
        .ok (.returned true rest c₁) ∧
      IsPlist nil (c₁.setCdr q rest) head (ps ++ (x, q) :: (a ++ b))
        (es ++ e :: (fa ++ fb)) := by
  obtain ⟨-, -, -, hrest⟩ := (h.split hlen).entry
  obtain ⟨hp, hcdr, -, -⟩ := (hrest.split ha).entry
  have hget : (Place.nth c (c.cdr q) (2 * a.length)).get c (c.cdr q) = .cell p.1 := by
    rw [Place.get_nth fun j hj => hrest.tails.2 j (by rw [length_append]; omega), hp]
  have hremprop : rempropAt c (c.cdr q) (.found (Place.nth c (c.cdr q) (2 * a.length))) =
      .ok (.returned true ((Place.nth c (c.cdr q) (2 * a.length)).store c (c.cdr q) (c.cdr p.2)).1
        ((Place.nth c (c.cdr q) (2 * a.length)).store c (c.cdr q) (c.cdr p.2)).2) := by
    simp only [rempropAt, hget, Lists.xcdr, hcdr]
    rfl
  refine ⟨_, _, hremprop, ?_⟩
  obtain rfl | ⟨a, p₀, rfl⟩ := eq_nil_or_concat a
  · -- the entry right behind
    obtain rfl : fa = [] := eq_nil_of_length_eq_zero ha.symm
    exact h.unlink hlen
  · obtain ⟨fa, f₀, rfl⟩ : ∃ fa' f₀, fa = fa' ++ [f₀] := by
      obtain rfl | ⟨fa', f₀, rfl⟩ := eq_nil_or_concat fa
      · simp at ha
      · exact ⟨fa', f₀, by rw [concat_eq_append]⟩
    rw [concat_eq_append] at *
    simp only [length_append, length_singleton, Nat.add_right_cancel_iff] at ha
    simp only [append_assoc, singleton_append] at hrest h ⊢
    obtain ⟨hp₀, hcdr₀, -, -⟩ := (hrest.split ha).entry
    have hplace : Place.nth c (c.cdr q) (2 * (a ++ [p₀]).length) = .cdr p₀.2 := by
      have hsucc : 2 * (a ++ [p₀]).length = 2 * a.length + 1 + 1 := by simp; omega
      rw [hsucc, Place.nth_succ ((Cells.tail_succ_of_cell hp₀).trans hcdr₀)]
    have hne : p₀.2 ≠ q := by
      have hnodup := h.nodup
      simp only [conses_append, conses_cons] at hnodup
      rintro rfl
      simp [nodup_append] at hnodup
    have hkeep : (c.setCdr p₀.2 (c.cdr p.2)).setCdr q (c.cdr q) = c.setCdr p₀.2 (c.cdr p.2) := by
      have hq : (c.setCdr p₀.2 (c.cdr p.2)).cdr q = c.cdr q := Function.update_of_ne hne.symm _ _
      rw [← hq, setCdr_self]
    rw [hplace]
    simp only [Place.store, hkeep]
    have hwhole : IsPlist nil c head ((ps ++ (x, q) :: a) ++ p₀ :: p :: b)
        ((es ++ e :: fa) ++ f₀ :: f :: fb) := by simpa using h
    simpa using hwhole.unlink (by simp [hlen, ha])

omit [DecidableEq α] in
theorem without_append_cons {fa fb : List (α × α)} {f : α × α} {k : κ}
    (hf : propKey key f = k) :
    without (propKey key) (fa ++ f :: fb) k =
      without (propKey key) (fa ++ fb) k := by
  rw [without, without, List.filter_append, List.filter_append,
    filter_cons_of_neg (by simp [hf])]

/-- **The later entries** with the key of an entry are all removed. -/
theorem IsPlist.remove_run (key : α → κ) (nilMeans : Bool) (plist : Ref α)
    (h : IsPlist nil c head (ps ++ (x, q) :: ps₂) (es ++ e :: es₂)) (hlen : ps.length = es.length) : ∃ c' ps', Reaches (canonicalizeStep nil nilMeans (sameKey key))
        ⟨c, head, plist, some (q, e.1, start)⟩ ⟨c', head, c'.cdr q, none⟩ ∧
      IsPlist nil c' head (ps ++ (x, q) :: ps')
        (es ++ e :: without (propKey key) es₂ (propKey key e)) := by
  induction hn : es₂.length using Nat.strong_induction_on generalizing c ps₂ es₂ with
  | _ n ih =>
  obtain ⟨-, -, -, hrest⟩ := (h.split hlen).entry
  have hwalks := hrest.walks .errorMe (.keyIs c (sameKey key) e.1)
  cases hfind : es₂.findIdx? fun f => sameKey key f.1 e.1 with
  | none =>
    rw [hfind] at hwalks
    have hended : rempropAt c (c.cdr q) .ended = .ok (.returned false (c.cdr q) c) := rfl
    have hreach := reaches_of_remprop nilMeans head plist hwalks hended
    rw [setCdr_self] at hreach
    have hwithout : without (propKey key) es₂ (propKey key e) = es₂ :=
      List.filter_eq_self.mpr fun f hf => by
        have hne := List.findIdx?_eq_none_iff.mp hfind f hf
        exact (Bool.not_eq_true' _).mpr hne
    exact ⟨c, ps₂, hreach, hwithout.symm ▸ h⟩
  | some i =>
    rw [hfind] at hwalks
    obtain ⟨a, p, b, fa, f, fb, rfl, rfl, rfl, ha, htest, -⟩ := hrest.findIdx hfind
    obtain ⟨rest, c₁, hremprop, hplist⟩ := h.remove hlen ha.symm
    have hreach := reaches_of_remprop nilMeans head plist hwalks hremprop
    obtain ⟨c', ps', hreach', hplist'⟩ := ih (fa ++ fb).length (by
      rw [← hn]
      simp) hplist rfl
    refine ⟨c', ps', hreach.trans hreach', ?_⟩
    have hkey : propKey key f = propKey key e := of_decide_eq_true htest
    rw [without_append_cons hkey]
    exact hplist'

/-! ### Along the list -/

omit [DecidableEq κ] in
theorem IsPlist.step_skip {p : Nat × Nat} {r : Ref α} (same : α → α → Bool) (head : Ref α)
    (h : IsPlist nil c r (p :: ps) (e :: es)) (hn : notPresent nil nilMeans e.2 = true) :
    Next (canonicalizeStep nil nilMeans same) ⟨c, head, r, none⟩
      ⟨c, if head = r then c.cdr p.2 else head, c.cdr p.2, none⟩ := by
  obtain ⟨rfl, hcdr, rfl, -⟩ := h.entry
  have hnil : nilMeans = true ∧ c.car p.2 = nil := by
    simpa [notPresent] using hn
  have henter : Canonicalizing.enter nil nilMeans ⟨c, head, .cell p.1, none⟩ =
      .ok ⟨c, if head = .cell p.1 then c.cdr p.2 else head, c.cdr p.2, none⟩ := by
    simp only [Canonicalizing.enter, fcar, fcdr, bind, Except.bind, hcdr, if_pos hnil]
    rfl
  rw [Next, canonicalizeStep]
  simp only [henter, reduceCtorEq, if_false]

omit [DecidableEq κ] in
theorem IsPlist.step_enter {p : Nat × Nat} {r : Ref α} (same : α → α → Bool) (head : Ref α)
    (h : IsPlist nil c r (p :: ps) (e :: es)) (hn : ¬ notPresent nil nilMeans e.2 = true) :
    Next (canonicalizeStep nil nilMeans same) ⟨c, head, r, none⟩
      ⟨c, head, r, some (p.2, e.1, start)⟩ := by
  obtain ⟨rfl, hcdr, rfl, -⟩ := h.entry
  have hnil : ¬ (nilMeans = true ∧ c.car p.2 = nil) := by
    simpa [notPresent] using hn
  have henter : Canonicalizing.enter nil nilMeans ⟨c, head, .cell p.1, none⟩ =
      .ok ⟨c, head, .cell p.1, some (p.2, c.car p.1, start)⟩ := by
    simp only [Canonicalizing.enter, fcar, fcdr, bind, Except.bind, hcdr, if_neg hnil]
    rfl
  rw [Next, canonicalizeStep]
  simp only [henter, reduceCtorEq, if_false]

/-- The rest of the loop, behind an entry that stays. -/
theorem IsPlist.canonicalize_rest (key : α → κ) (nilMeans : Bool) {ps₁ : List (Nat × Nat)}
    {es₁ : List (α × α)} {r : Ref α} (h : IsPlist nil c head (ps₁ ++ ps₂) (es₁ ++ es₂)) (hlen : ps₁.length = es₁.length)
    (hne : ps₁ ≠ []) (hr : r = c.tail head (2 * ps₁.length)) :
    ∃ c' ps', Ends (canonicalizeStep nil nilMeans (sameKey key)) ⟨c, head, r, none⟩
        (.ok (head, c')) ∧
      IsPlist nil c' head ps' (es₁ ++ canonicalizedRest nil nilMeans key es₂) := by
  induction hn : es₂.length using Nat.strong_induction_on generalizing c ps₁ ps₂ es₁ es₂ r with
  | _ n ih =>
  have hrest := h.split hlen
  rw [← hr] at hrest
  cases es₂ with
  | nil =>
    obtain rfl : ps₂ = [] := eq_nil_of_length_eq_zero hrest.length_eq
    obtain rfl : r = .atom nil := by
      cases hrest
      rfl
    refine ⟨c, _, .done ?_, by rwa [canonicalizedRest]⟩
    simp only [canonicalizeStep, if_true]
  | cons e es₂ =>
    cases ps₂ with
    | nil => cases hrest.length_eq
    | cons p ps₂ =>
      have happend : ∀ {β : Type} (l₁ l₂ : List β) (b : β), l₁ ++ b :: l₂ = l₁ ++ [b] ++ l₂ :=
        fun l₁ l₂ b => append_cons l₁ b l₂
      have hlen' : (ps₁ ++ [p]).length = (es₁ ++ [e]).length := by simp [hlen]
      -- where the list goes on
      have htail : ∀ {c' : Cells α} {ps' : List (Nat × Nat)} {es' : List (α × α)},
          IsPlist nil c' head (ps₁ ++ p :: ps') (es₁ ++ e :: es') →
            c'.cdr p.2 = c'.tail head (2 * (ps₁ ++ [p]).length) := by
        intro c' ps' es' h'
        obtain ⟨hp, hcdr, -, -⟩ := (h'.split hlen).entry
        have hsucc : 2 * (ps₁ ++ [p]).length = 2 * ps₁.length + 1 + 1 := by simp; omega
        rw [hsucc, Cells.tail_succ_of_cell ((Cells.tail_succ_of_cell hp).trans hcdr)]
      rw [canonicalizedRest]
      by_cases hnil : notPresent nil nilMeans e.2 = true
      · have hhead : head ≠ r := by
          rw [hr]
          have hpos : 0 < 2 * ps₁.length :=
            Nat.mul_pos Nat.two_pos (List.length_pos_iff.mpr hne)
          exact Cells.tail_ne h.tails.1 h.tails.2 hpos (by rw [length_append]; omega)
        have hskip := hrest.step_skip (sameKey key) head hnil
        rw [if_neg hhead] at hskip
        have h' := h
        rw [happend ps₁, happend es₁] at h'
        obtain ⟨c', ps', hends, hplist⟩ := ih es₂.length (by rw [← hn]; simp) h' hlen' (by simp)
          (htail h) rfl
        refine ⟨c', ps', .next hskip hends, ?_⟩
        rw [if_pos hnil, happend es₁]
        exact hplist
      · have henter := hrest.step_enter (sameKey key) head hnil
        obtain ⟨c₁, ps₁', hreach, h₁⟩ := h.remove_run key nilMeans r hlen
        have h₁' := h₁
        rw [happend ps₁, happend es₁] at h₁'
        obtain ⟨c', ps', hends, hplist⟩ := ih _ (by
          rw [← hn]
          exact Nat.lt_succ_of_le (length_filter_le _ _)) h₁' hlen' (by simp) (htail h₁) rfl
        refine ⟨c', ps', .next henter (hends.of_reaches hreach), ?_⟩
        rw [if_neg hnil, happend es₁]
        exact hplist

end XEmacs.Plists
