import XEmacs.Specifier.Adding

/-!
# The order of what is added

`build_up_processed_list` puts the list of each round in front of what it has, and reverses the
whole in the end.
-/

namespace XEmacs.Specifier

open List

variable {Tag α : Type*} [DecidableEq Tag] (types : SpecifierTypes Tag α) (now : Moment Tag)

/-! ## The processed list -/

/-- The list that is to be added: what `going_to_add` gives for each pair, canonicalized, in its
order, one after the other. -/
def processedInOrder (meths : SpecifierMethods Tag α) (specifier : ℕ) (locale : Locale)
    (instList : InstList Tag α) : InstList Tag α :=
  instList.flatMap (subInstList types meths specifier locale)

variable {types} {meths : SpecifierMethods Tag α} {specifier : ℕ} {locale : Locale}
  {instList : InstList Tag α}

theorem buildUpProcessedList_inOrder_iff :
    buildUpProcessedList types meths specifier locale instList =
        processedInOrder types meths specifier locale instList ↔
      ∀ pair ∈ instList, (subInstList types meths specifier locale pair).reverse =
        subInstList types meths specifier locale pair := by
  rw [buildUpProcessedList_eq, processedInOrder]
  induction instList with
  | nil => simp
  | cons pair l ih =>
    rw [flatMap_cons, flatMap_cons, forall_mem_cons, ← ih]
    constructor
    · intro h
      exact append_inj h length_reverse
    · rintro ⟨hpair, hl⟩
      rw [hpair, hl]

/-! ## Listing and instancing -/

@[simp]
theorem processInstList_nil (l : InstList Tag α) : processInstList l [] false = l := by
  simp [processInstList]

theorem specifierSpecList_locale (sp : Lisp_Specifier Tag α) {l : InstList Tag α}
    (h : specifierGetInstList sp locale = some l) :
    specifierSpecList types now sp (some [.locale locale]) [] false =
      if l.isEmpty ∧ locale ≠ .global then none
      else some (if l.isEmpty then [] else [(locale, l)]) := by
  have hparts : mapParts (some [.locale locale]) = [.locale locale] := rfl
  have hnil : canonicalizeTagSet types.symbolName [] = [] := rfl
  rw [specifierSpecList, hparts, hnil, mapM_cons, mapM_nil, specListPart,
    specifierGetExternalInstList, h]
  cases l with
  | nil => by_cases hg : locale = .global <;> simp [hg]
  | cons pair l => simp

/-- What instancing does with a pair. -/
def tryInstance (instantiate : Option (α → Option α)) (device : Device Tag)
    (pair : InstPair Tag α) : Option α :=
  if deviceMatchesTagSetP device pair.1 then instantiate.elim (some pair.2) fun f => f pair.2
  else none

theorem specifierInstanceFromInstList_eq (instantiate : Option (α → Option α))
    (device : Device Tag) (l : InstList Tag α) :
    specifierInstanceFromInstList instantiate device l =
      l.findSome? (tryInstance instantiate device) := by
  induction l with
  | nil => rfl
  | cons pair l ih =>
    rw [specifierInstanceFromInstList, findSome?_cons, tryInstance, ih]
    split_ifs <;> rfl

/-! ## The order after an addition -/

variable (types)

/-- The locale has the inst-list `l`, as `specifier-spec-list` and instancing see it. -/
structure Shows (sp : Lisp_Specifier Tag α) (locale : Locale) (l : InstList Tag α) : Prop where
  listed : specifierSpecList types now sp (some [.locale locale]) [] false =
    some (if l.isEmpty then [] else [(locale, l)])
  tried : ∀ instantiate device, specifierInstanceFromInstList instantiate device
    ((specifierGetInstList sp locale).getD []) = l.findSome? (tryInstance instantiate device)

/-- Adding the inst-list keeps its order: the processed list is the one in order, and it shows so
before the old pairs after `prepend`, and behind them after `append`. -/
structure KeepsOrder (sp : Lisp_Specifier Tag α) (specifier : ℕ) (locale : Locale)
    (instList : InstList Tag α) (new old : InstList Tag α) : Prop where
  built : processed types sp specifier locale instList = new
  prepended : ∃ sp', specifierAddSpec types now sp specifier locale instList .prepend = some sp' ∧
    Shows types now sp' locale (new ++ old)
  appended : ∃ sp', specifierAddSpec types now sp specifier locale instList .append = some sp' ∧
    Shows types now sp' locale (old ++ new)

variable {types now}

theorem shows_iff {sp : Lisp_Specifier Tag α} {l : InstList Tag α}
    (h : specifierGetInstList sp locale = some l) :
    Shows types now sp locale l ↔ locale = .global ∨ l ≠ [] := by
  have hlist : specifierSpecList types now sp (some [.locale locale]) [] false = _ :=
    specifierSpecList_locale now sp h
  constructor
  · rintro ⟨hlisted, -⟩
    rw [hlist] at hlisted
    by_contra hno
    rw [not_or, not_not] at hno
    simp [hno.1, hno.2] at hlisted
  · intro hsome
    refine ⟨?_, fun instantiate device => ?_⟩
    · rw [hlist, if_neg]
      rintro ⟨hl, hg⟩
      exact hsome.elim hg fun hne => hne (List.isEmpty_iff.mp hl)
    · rw [h, Option.getD_some, specifierInstanceFromInstList_eq]

/-- **Adding keeps order**, for every specifier, locale, inst-list and `going_to_add` method,
exactly if every list this method returns reads the same backwards, and the locale is left with a
pair if it is not `global`. -/
theorem addSpec_keepsOrder_iff (sp : Lisp_Specifier Tag α) (self : ℕ) (locale : Locale)
    (instList : InstList Tag α) :
    KeepsOrder types now sp self locale instList
        (processedInOrder types (types.methods sp.methods) (sp.magicParent.getD self) locale
          instList)
        ((specifierGetInstList sp locale).getD []) ↔
      (∀ pair ∈ instList,
        (subInstList types (types.methods sp.methods) (sp.magicParent.getD self) locale
          pair).reverse =
        subInstList types (types.methods sp.methods) (sp.magicParent.getD self) locale pair) ∧
      (locale = .global ∨
        processedInOrder types (types.methods sp.methods) (sp.magicParent.getD self) locale
          instList ++ (specifierGetInstList sp locale).getD [] ≠ []) := by
  rw [← buildUpProcessedList_inOrder_iff]
  generalize hnew : processedInOrder types (types.methods sp.methods) (sp.magicParent.getD self)
    locale instList = new
  generalize hold : (specifierGetInstList sp locale).getD [] = old
  have hset : ∀ l : InstList Tag α, specifierGetInstList
      (setInstList (withSpec sp locale) locale l) locale = some l := by
    intro l
    refine getInstList_setInstList_self ?_
    rw [getInstList_withSpec_self]
    rfl
  have hpre : specifierAddSpec types now sp self locale instList .prepend =
      some (setInstList (withSpec sp locale) locale
        (processed types sp self locale instList ++ old)) := by
    rw [addSpec_spec, ← hold]
    rfl
  have happ : specifierAddSpec types now sp self locale instList .append =
      some (setInstList (withSpec sp locale) locale
        (old ++ processed types sp self locale instList)) := by
    rw [addSpec_spec, ← hold]
    rfl
  constructor
  · rintro ⟨hproc, ⟨sp', hsp', hshows⟩, -⟩
    rw [hpre, hproc, Option.some.injEq] at hsp'
    subst hsp'
    exact ⟨hproc, (shows_iff (hset _)).mp hshows⟩
  · rintro ⟨hproc, hsome⟩
    have hproc' : processed types sp self locale instList = new := hproc
    refine ⟨hproc', ⟨_, hpre, ?_⟩, ⟨_, happ, ?_⟩⟩
    · rw [hproc']
      exact (shows_iff (hset _)).mpr hsome
    · rw [hproc']
      refine (shows_iff (hset _)).mpr (hsome.imp_right fun hne => ?_)
      simp only [ne_eq, List.append_eq_nil_iff] at hne ⊢
      exact fun h => hne ⟨h.2, h.1⟩

/-- A type of specifiers whose `going_to_add` gives a pair for each of two tags. -/
def twoTags : SpecifierTypes ℕ ℕ where
  symbolName tag := [tag + 1]
  methods _ := ⟨none, some fun _ _ _ inst => some [([0], inst), ([1], inst)]⟩
  validate _ _ := true

/-- The two pairs are listed in the order in which they were not given. -/
theorem twoTags_reversed :
    processedInOrder twoTags (twoTags.methods 0) 0 .global [([], 7)] = [([0], 7), ([1], 7)] ∧
      buildUpProcessedList twoTags (twoTags.methods 0) 0 .global [([], 7)] =
        [([1], 7), ([0], 7)] ∧
      ∀ now, ¬ KeepsOrder twoTags now ⟨0, none, [], fun _ => []⟩ 0 .global [([], 7)]
        [([0], 7), ([1], 7)] [] := by
  refine ⟨by decide, by decide, fun now h => ?_⟩
  have hproc : processed twoTags ⟨0, none, [], fun _ => []⟩ 0 .global [([], 7)] =
      [([1], 7), ([0], 7)] := by decide
  rw [h.built] at hproc
  exact absurd hproc (by decide)

end XEmacs.Specifier
