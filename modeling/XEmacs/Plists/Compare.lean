import XEmacs.Plists.CanonicalKeys

/-!
# Comparing property lists (fns.c)

`plists_differ` writes down the entries of the first list and marks those that an entry of the
second list has the key of; with a key that is repeated it marks the first one only.
-/

namespace XEmacs.Plists

open ConsLists Machines FirstEntries
open XEmacs.Lists (Fault xcar xcdr)

variable {α β κ ν σ ρ : Type} [DecidableEq α] [DecidableEq β] [DecidableEq κ] [DecidableEq ν]

/-! ### The functions -/

section functions

variable (nil : α) (c : Cells α)

omit [DecidableEq β] [DecidableEq κ] [DecidableEq ν] in
/-- `for (rest = a; !NILP (rest); rest = XCDR (XCDR (rest)))`, with the property and the value; the
body may leave the loop. -/
def propertyLoop (body : α → α → σ → Except ρ σ) (s : Ref α × σ) :
    Except Fault (Outcome (Ref α × σ) (Except ρ σ)) :=
  if s.1 = .atom nil then .ok (.done (.ok s.2))
  else do
    let k ← xcar c s.1
    let rest ← xcdr c s.1
    let v ← xcar c rest
    match body k v s.2 with
    | .ok s' => do return .next (← xcdr c rest, s')
    | .error r => return .done (.error r)

/-- `keys [i]`, `vals [i]` and `flags [i]`. -/
structure Noted (α : Type) where
  key : α
  val : α
  flag : Bool

variable (nilMeansNotPresent : Bool)

/-- An entry of the first list is written down. -/
def note (k v : α) (noted : List (Noted α)) : Except Empty (List (Noted α)) :=
  if notPresent nil nilMeansNotPresent v then .ok noted else .ok (noted ++ [⟨k, v, false⟩])

/-- An entry of the second list: the first one noted with its key is marked. -/
def mark (keysMatch valsMatch : α → α → Bool) (k v : α) :
    List (Noted α) → Except Unit (List (Noted α))
  | [] => .error ()
  | n :: noted =>
    if keysMatch k n.key then
      if valsMatch v n.val then .ok ({ n with flag := true } :: noted) else .error ()
    else (mark keysMatch valsMatch k v noted).map (n :: ·)

/-- An entry of the second list. -/
def check (keysMatch valsMatch : α → α → Bool) (k v : α) (noted : List (Noted α)) :
    Except Unit (List (Noted α)) :=
  if notPresent nil nilMeansNotPresent v then .ok noted else mark keysMatch valsMatch k v noted

/-- `plists_differ`. Of `laxp` and `depth` only the tests on keys and on values that they choose
are left. -/
def PlistsDiffer (keysMatch valsMatch : α → α → Bool) (a b : Ref α)
    (d : Except (PlistError α) Bool) : Prop :=
  (a = .atom nil ∧ b = .atom nil ∧ d = .ok false) ∨
    ¬ (a = .atom nil ∧ b = .atom nil) ∧
      ((∃ e, CheckValidPlist nil c a (some e) ∧ d = .error e) ∨
        CheckValidPlist nil c a none ∧
          ((∃ e, CheckValidPlist nil c b (some e) ∧ d = .error e) ∨
            CheckValidPlist nil c b none ∧
              ∃ noted o, Ends (propertyLoop nil c (note nil nilMeansNotPresent)) (a, [])
                  (.ok noted) ∧
                Ends (propertyLoop nil c (check nil nilMeansNotPresent keysMatch valsMatch))
                  (b, noted) o ∧
                d = .ok (match o with
                  | .ok noted => noted.any fun n => !n.flag
                  | .error () => true)))

variable (contents : α → β) (a b : Ref α)

def PlistsEq (r : Except (PlistError α) Bool) : Prop :=
  ∃ d, PlistsDiffer nil c nilMeansNotPresent (sameKey id) (sameKey id) a b d ∧ r = d.map not

/-- `plists-equal`; `equal` compares what the objects contain. -/
def PlistsEqual (r : Except (PlistError α) Bool) : Prop :=
  ∃ d, PlistsDiffer nil c nilMeansNotPresent (sameKey id) (sameKey contents) a b d ∧ r = d.map not

def LaxPlistsEq (r : Except (PlistError α) Bool) : Prop :=
  ∃ d, PlistsDiffer nil c nilMeansNotPresent (sameKey contents) (sameKey id) a b d ∧ r = d.map not

/-- `lax-plists-equal`. -/
def LaxPlistsEqual (r : Except (PlistError α) Bool) : Prop :=
  ∃ d, PlistsDiffer nil c nilMeansNotPresent (sameKey contents) (sameKey contents) a b d ∧
    r = d.map not

end functions

/-! ### Runs -/

variable {nil : α} {c : Cells α} {nilMeans : Bool} {key : α → κ} {val : α → ν} {a b : Ref α}
  {ps qs : List (Nat × Nat)} {es fs : List (α × α)}

theorem IsPlist.propertyLoop_ends {r : Ref α} (h : IsPlist nil c r ps es)
    (body : α → α → σ → Except ρ σ) (s : σ) :
    Ends (propertyLoop nil c body) (r, s) (es.foldlM (fun s e => body e.1 e.2 s) s) := by
  induction h generalizing s with
  | nil =>
    refine .done ?_
    rw [propertyLoop, if_pos rfl]
    rfl
  | @cons p q ps es hq h ih =>
    have hstep : propertyLoop nil c body (.cell p, s) =
        .ok (match body (c.car p) (c.car q) s with
          | .ok s' => .next (c.cdr q, s')
          | .error r => .done (.error r)) := by
      rw [propertyLoop, if_neg nofun]
      simp only [xcar, xcdr, hq, bind, Except.bind]
      cases body (c.car p) (c.car q) s <;> rfl
    rw [List.foldlM_cons]
    cases hbody : body (c.car p) (c.car q) s with
    | error r =>
      rw [hbody] at hstep
      exact .done hstep
    | ok s' =>
      rw [hbody] at hstep
      exact .next hstep (ih s')

/-- The entries that count. -/
def counted (nil : α) (nilMeans : Bool) (es : List (α × α)) : List (α × α) :=
  es.filter fun e => !notPresent nil nilMeans e.2

theorem foldlM_note (es : List (α × α)) (noted : List (Noted α)) :
    es.foldlM (fun noted e => note nil nilMeans e.1 e.2 noted) noted =
      .ok (noted ++ (counted nil nilMeans es).map fun e => ⟨e.1, e.2, false⟩) := by
  induction es generalizing noted with
  | nil => exact congrArg Except.ok (List.append_nil noted).symm
  | cons e es ih =>
    rw [List.foldlM_cons, note, counted, List.filter_cons]
    by_cases hnil : notPresent nil nilMeans e.2 = true
    · rw [if_pos hnil, hnil]
      exact ih noted
    · rw [Bool.not_eq_true] at hnil
      rw [hnil, if_neg Bool.false_ne_true]
      refine (ih _).trans ?_
      rw [List.append_assoc]
      rfl

theorem foldlM_check {keysMatch valsMatch : α → α → Bool} (fs : List (α × α))
    (noted : List (Noted α)) :
    fs.foldlM (fun noted e => check nil nilMeans keysMatch valsMatch e.1 e.2 noted) noted =
      (counted nil nilMeans fs).foldlM (fun noted e => mark keysMatch valsMatch e.1 e.2 noted)
        noted := by
  induction fs generalizing noted with
  | nil => rfl
  | cons e fs ih =>
    rw [List.foldlM_cons, check, counted, List.filter_cons]
    by_cases hnil : notPresent nil nilMeans e.2 = true
    · rw [if_pos hnil, hnil]
      exact ih noted
    · rw [Bool.not_eq_true] at hnil
      rw [hnil, if_neg Bool.false_ne_true]
      refine bind_congr fun noted => ?_
      exact ih noted

/-! ### Marks -/

section Marks

omit [DecidableEq α]

/-- What is noted when entries with these keys have come: of each key the first one is marked. -/
def marks (key : α → κ) : (κ → Bool) → List (α × α) → List (Noted α)
  | _, [] => []
  | seen, e :: es =>
    ⟨e.1, e.2, seen (propKey key e)⟩ ::
      marks key (fun k => seen k && !decide (k = propKey key e)) es

variable (key) in
theorem marks_start (es : List (α × α)) :
    (es.map fun e => ⟨e.1, e.2, false⟩) = marks key (fun _ => false) es := by
  induction es with
  | nil => rfl
  | cons e es ih =>
    rw [List.map_cons, ih]
    rfl

theorem mark_marks (key : α → κ) (val : α → ν) (seen : κ → Bool) (es : List (α × α)) (f : α × α) :
    mark (sameKey key) (sameKey val) f.1 f.2 (marks key seen es) =
      if (value key es (propKey key f)).any fun v => val f.2 = val v then
        .ok (marks key (fun k => seen k || decide (k = propKey key f)) es)
      else .error () := by
  induction es generalizing seen with
  | nil => rfl
  | cons e es ih =>
    rw [marks, mark]
    by_cases hkey : propKey key e = propKey key f
    · have hvalue : value key (e :: es) (propKey key f) = some e.2 := by
        rw [value, ← hkey, first_cons_self]
        rfl
      have hsame : sameKey key f.1 e.1 = true := decide_eq_true hkey.symm
      have hseen : (fun k => (seen k || decide (k = propKey key f)) && !decide (k = propKey key e)) =
          fun k => seen k && !decide (k = propKey key e) := by
        funext k
        rw [hkey]
        cases seen k <;> cases decide (k = propKey key f) <;> rfl
      rw [if_pos hsame, hvalue, marks, hseen, hkey, decide_eq_true rfl, Bool.or_true]
      rfl
    · have hvalue : value key (e :: es) (propKey key f) = value key es (propKey key f) := by
        rw [value, value, first_cons_of_ne hkey]
      have hsame : ¬ sameKey key f.1 e.1 = true := fun h => hkey (of_decide_eq_true h).symm
      have hseen : (fun k => (seen k || decide (k = propKey key f)) && !decide (k = propKey key e)) =
          fun k => (seen k && !decide (k = propKey key e)) || decide (k = propKey key f) := by
        funext k
        by_cases hk : k = propKey key f
        · subst hk
          simp [Ne.symm hkey]
        · simp [hk]
      rw [if_neg hsame, ih, hvalue, marks, hseen, decide_eq_false hkey, Bool.or_false]
      split <;> rfl

/-- The entries all have a key that is noted first with their value. -/
def Matches (key : α → κ) (val : α → ν) (es fs : List (α × α)) : Prop :=
  ∀ f ∈ fs, (value key es (propKey key f)).any (fun v => val f.2 = val v) = true

theorem foldlM_mark (key : α → κ) (val : α → ν) (seen : κ → Bool) (es fs : List (α × α)) :
    fs.foldlM (fun noted e => mark (sameKey key) (sameKey val) e.1 e.2 noted) (marks key seen es) =
        .ok (marks key (fun k => seen k || decide (k ∈ fs.map (propKey key))) es) ∧
      Matches key val es fs ∨
    fs.foldlM (fun noted e => mark (sameKey key) (sameKey val) e.1 e.2 noted) (marks key seen es) =
        .error () ∧
      ¬ Matches key val es fs := by
  induction fs generalizing seen with
  | nil =>
    refine .inl ⟨?_, nofun⟩
    have hseen : (fun k => seen k || decide (k ∈ List.map (propKey key) [])) = seen := by
      funext k
      simp
    rw [hseen]
    rfl
  | cons f fs ih =>
    rw [List.foldlM_cons, mark_marks]
    by_cases hmatch : ((value key es (propKey key f)).any fun v => val f.2 = val v) = true
    · have hseen : (fun k => (seen k || decide (k = propKey key f)) ||
            decide (k ∈ fs.map (propKey key))) =
          fun k => seen k || decide (k ∈ (f :: fs).map (propKey key)) := by
        funext k
        rw [Bool.or_assoc, ← Bool.decide_or]
        exact congrArg (seen k || ·)
          (decide_eq_decide.mpr (by rw [List.map_cons, List.mem_cons]))
      rw [if_pos hmatch, ← hseen]
      refine (ih _).imp (fun ⟨hfold, hmatches⟩ => ⟨hfold, ?_⟩) fun ⟨hfold, hmatches⟩ => ⟨hfold, ?_⟩
      · exact List.forall_mem_cons.mpr ⟨hmatch, hmatches⟩
      · exact fun h => hmatches (List.forall_mem_cons.mp h).2
    · rw [if_neg hmatch]
      exact .inr ⟨rfl, fun h => hmatch (h f (List.mem_cons_self ..))⟩

theorem marks_all (seen : κ → Bool) (es : List (α × α)) :
    ((marks key seen es).any fun n => !n.flag) = false ↔
      (es.map (propKey key)).Nodup ∧ ∀ e ∈ es, seen (propKey key e) = true := by
  induction es generalizing seen with
  | nil => exact iff_of_true rfl ⟨List.nodup_nil, nofun⟩
  | cons e es ih =>
    rw [marks, List.any_cons, Bool.or_eq_false_iff, ih, List.map_cons, List.nodup_cons,
      List.forall_mem_cons, Bool.not_eq_false']
    simp only [Bool.and_eq_true, Bool.not_eq_true', decide_eq_false_iff_not, List.mem_map,
      not_exists, not_and]
    constructor
    · rintro ⟨hseen, hnodup, hes⟩
      exact ⟨⟨fun f hf => (hes f hf).2, hnodup⟩, hseen, fun f hf => (hes f hf).1⟩
    · rintro ⟨⟨hne, hnodup⟩, hseen, hes⟩
      exact ⟨hseen, hnodup, fun f hf => ⟨hes f hf, hne f hf⟩⟩

/-- The entries of the first list have different keys, those of the second one with the same key
have the same value, and the first values of each key are the same. -/
structure Regular (key : α → κ) (val : α → ν) (es fs : List (α × α)) : Prop where
  nodup : (es.map (propKey key)).Nodup
  agree : ∀ f ∈ fs, ∀ f' ∈ fs, propKey key f = propKey key f' → val f.2 = val f'.2
  same : ∀ k, (value key es k).map val = (value key fs k).map val

theorem value_mem {k : κ} {v : α} (h : value key es k = some v) :
    ∃ e ∈ es, propKey key e = k ∧ e.2 = v := by
  obtain ⟨e, he, rfl⟩ := Option.map_eq_some_iff.mp h
  exact ⟨e, (key_of_first he).2, (key_of_first he).1, rfl⟩

theorem matches_iff : Matches key val es fs ↔
    ∀ f ∈ fs, ∃ v, value key es (propKey key f) = some v ∧ val f.2 = val v := by
  refine forall₂_congr fun f _ => ?_
  cases value key es (propKey key f) with
  | none => simp
  | some v => simp

theorem regular_iff : Regular key val es fs ↔
    Matches key val es fs ∧ (es.map (propKey key)).Nodup ∧
      ∀ e ∈ es, propKey key e ∈ fs.map (propKey key) := by
  rw [matches_iff]
  constructor
  · rintro ⟨hnodup, hagree, hsame⟩
    refine ⟨fun f hf => ?_, hnodup, fun e he => ?_⟩
    · obtain ⟨v', hv'⟩ := exists_value key hf
      obtain ⟨f', hf', hkey, rfl⟩ := value_mem hv'
      have hval := hsame (propKey key f)
      rw [hv', Option.map_some, Option.map_eq_some_iff] at hval
      obtain ⟨v, hv, heq⟩ := hval
      exact ⟨v, hv, (hagree f hf f' hf' hkey.symm).trans heq.symm⟩
    · obtain ⟨v, hv⟩ := exists_value key he
      have hval := hsame (propKey key e)
      rw [hv, Option.map_some] at hval
      obtain ⟨v', hv', -⟩ := Option.map_eq_some_iff.mp hval.symm
      obtain ⟨f, hf, hkey, -⟩ := value_mem hv'
      exact List.mem_map.mpr ⟨f, hf, hkey⟩
  · rintro ⟨hmatch, hnodup, hkeys⟩
    refine ⟨hnodup, fun f hf f' hf' hkey => ?_, fun k => ?_⟩
    · obtain ⟨v, hv, heq⟩ := hmatch f hf
      obtain ⟨v', hv', heq'⟩ := hmatch f' hf'
      rw [hkey, hv'] at hv
      cases hv
      rw [heq, heq']
    · cases hv' : value key fs k with
      | none =>
        have hnone : value key es k = none := value_eq_none_iff.mpr fun e he hkey => by
          obtain ⟨f, hf, hfk⟩ := List.mem_map.mp (hkeys e he)
          exact value_eq_none_iff.mp hv' f hf (hfk.trans hkey)
        rw [hnone]
      | some v' =>
        obtain ⟨f, hf, rfl, rfl⟩ := value_mem hv'
        obtain ⟨v, hv, heq⟩ := hmatch f hf
        rw [hv, Option.map_some, Option.map_some, heq]

end Marks

/-! ### What is found -/

/-- The lists have the same keys, with the same values. -/
def Same (nil : α) (nilMeans : Bool) (key : α → κ) (val : α → ν) (es fs : List (α × α)) : Prop :=
  ∀ k, (presentValue nil nilMeans key es k).map val = (presentValue nil nilMeans key fs k).map val

omit [DecidableEq ν] in
theorem regular_nil : Regular key val (counted nil nilMeans []) (counted nil nilMeans []) :=
  ⟨List.nodup_nil, nofun, fun _ => rfl⟩

/-- **`plists_differ`** finds no difference if and only if the entries that count are regular. -/
theorem IsPlist.differ_iff (nilMeans : Bool) (key : α → κ) (val : α → ν) (ha : IsPlist nil c a ps es)
    (hb : IsPlist nil c b qs fs) : ∃ d,
      (d = false ↔ Regular key val (counted nil nilMeans es) (counted nil nilMeans fs)) ∧
        ∀ r, PlistsDiffer nil c nilMeans (sameKey key) (sameKey val) a b r ↔ r = .ok d := by
  by_cases hnil : a = .atom nil ∧ b = .atom nil
  · obtain ⟨rfl, rfl⟩ := hnil
    cases ha
    cases hb
    refine ⟨false, iff_of_true rfl regular_nil, fun r => ⟨?_, fun hr => .inl ⟨rfl, rfl, hr⟩⟩⟩
    rintro (⟨-, -, hr⟩ | ⟨hnot, -⟩)
    · exact hr
    · exact absurd ⟨rfl, rfl⟩ hnot
  · have hnote := ha.propertyLoop_ends (note nil nilMeans) []
    rw [foldlM_note, List.nil_append, marks_start key] at hnote
    have hcheck := hb.propertyLoop_ends (check nil nilMeans (sameKey key) (sameKey val))
      (marks key (fun _ => false) (counted nil nilMeans es))
    rw [foldlM_check] at hcheck
    obtain ⟨o, d, hends, hd, hregular⟩ : ∃ o d, Ends
        (propertyLoop nil c (check nil nilMeans (sameKey key) (sameKey val)))
          (b, marks key (fun _ => false) (counted nil nilMeans es)) o ∧
        d = (match o with
          | .ok noted => noted.any fun n => !n.flag
          | .error () => true) ∧
        (d = false ↔ Regular key val (counted nil nilMeans es) (counted nil nilMeans fs)) := by
      refine ⟨_, _, hcheck, rfl, ?_⟩
      rw [regular_iff]
      obtain ⟨hfold, hmatch⟩ | ⟨hfold, hmatch⟩ := foldlM_mark key val (fun _ => false)
        (counted nil nilMeans es) (counted nil nilMeans fs)
      · rw [hfold]
        simp only [marks_all, Bool.false_or, decide_eq_true_eq, hmatch, true_and]
      · rw [hfold]
        exact iff_of_false nofun fun h => hmatch h.1
    refine ⟨d, hregular, fun r => ⟨?_, ?_⟩⟩
    · rintro (⟨rfl, rfl, -⟩ | ⟨-, hr⟩)
      · exact absurd ⟨rfl, rfl⟩ hnil
      obtain ⟨e, he, -⟩ | ⟨-, ⟨e, he, -⟩ | ⟨-, noted, o', hnoted, ho', hr⟩⟩ := hr
      · cases (ha.check_iff _).mp he
      · cases (hb.check_iff _).mp he
      · cases hnoted.unique hnote
        cases ho'.unique hends
        rw [hr, hd]
    · rintro rfl
      exact .inr ⟨hnil, .inr ⟨(ha.check_iff _).mpr rfl, .inr ⟨(hb.check_iff _).mpr rfl,
        _, o, hnote, hends, congrArg Except.ok hd⟩⟩⟩

/-- What is said of a function that compares lists. -/
structure Extensional (nil : α) (nilMeans : Bool) (key : α → κ) (val : α → ν)
    (es fs : List (α × α)) (F : Except (PlistError α) Bool → Prop) : Prop where
  ends : ∃ r, F r
  exact : ∀ r, F r → ∃ t, r = .ok t ∧ (t = true ↔ Same nil nilMeans key val es fs)

theorem extensional_iff (ha : IsPlist nil c a ps es) (hb : IsPlist nil c b qs fs) :
    Extensional nil nilMeans key val es fs (fun r => ∃ d,
        PlistsDiffer nil c nilMeans (sameKey key) (sameKey val) a b d ∧ r = d.map not) ↔
      (Same nil nilMeans key val es fs ↔
        Regular key val (counted nil nilMeans es) (counted nil nilMeans fs)) := by
  obtain ⟨d, hd, hresult⟩ := ha.differ_iff nilMeans key val hb
  rw [← hd]
  constructor
  · rintro ⟨-, hexact⟩
    obtain ⟨t, ht, hsame⟩ := hexact _ ⟨_, (hresult _).mpr rfl, rfl⟩
    cases ht
    rw [← hsame, Bool.not_eq_true']
  · intro hsame
    refine ⟨⟨_, _, (hresult _).mpr rfl, rfl⟩, ?_⟩
    rintro r ⟨d', hd', rfl⟩
    cases (hresult _).mp hd'
    exact ⟨!d, rfl, by rw [hsame, Bool.not_eq_true']⟩

/-- The list `(1 1 1 1)`. -/
def oneFourTimes : Cells Nat where
  next := 4
  car _ := 1
  cdr p := if p = 3 then .atom 0 else .cell (p + 1)

theorem oneFourTimes_isPlist : IsPlist 0 oneFourTimes (.cell 0) [(0, 1), (2, 3)] [(1, 1), (1, 1)] :=
  .cons rfl (.cons rfl .nil)

end XEmacs.Plists
