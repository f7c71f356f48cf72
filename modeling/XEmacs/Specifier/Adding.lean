import XEmacs.Specifier.Specifiers

/-!
# What an addition does

`specifier_add_spec` fails only where it is told to remove the locale type of `global`. Otherwise
it clears what the add method clears, and then changes the inst-list of its locale alone:
`addSpec_spec` says to what.
-/

namespace XEmacs.Specifier

open List

variable {Tag α : Type*} {loc loc' : Locale} {l : InstList Tag α}

theorem eq_global_of_type (h : loc.type = .global) : loc = .global := by
  cases loc with
  | global => rfl
  | device | frame | window | buffer => cases h

/-! ## Reading and writing inst-lists -/

theorem lookup_setSpec_self {specs : SpecList Tag α} (h : (specs.lookup loc).isSome) :
    (setSpec loc l specs).lookup loc = some l := by
  induction specs with
  | nil => cases h
  | cons spec rest ih =>
    obtain ⟨k, v⟩ := spec
    rw [setSpec]
    split_ifs with hk
    · exact lookup_cons_self
    · have hk' : (loc == k) = false := beq_false_of_ne (Ne.symm hk)
      rw [List.lookup_cons, hk'] at h
      rw [List.lookup_cons, hk']
      exact ih h

theorem lookup_setSpec_of_ne {specs : SpecList Tag α} (h : loc' ≠ loc) :
    (setSpec loc l specs).lookup loc' = specs.lookup loc' := by
  induction specs with
  | nil => rfl
  | cons spec rest ih =>
    obtain ⟨k, v⟩ := spec
    rw [setSpec]
    split_ifs with hk
    · have hk' : (loc' == k) = false := beq_false_of_ne (fun he => h (he.trans hk))
      have hl' : (loc' == loc) = false := beq_false_of_ne h
      rw [List.lookup_cons, List.lookup_cons, hk', hl']
    · rw [List.lookup_cons, List.lookup_cons, ih]

theorem map_fst_setSpec (loc : Locale) (l : InstList Tag α) (specs : SpecList Tag α) :
    (setSpec loc l specs).map Prod.fst = specs.map Prod.fst := by
  induction specs with
  | nil => rfl
  | cons spec rest ih =>
    rw [setSpec]
    split_ifs with hk
    · rw [map_cons, map_cons, hk]
    · rw [map_cons, map_cons, ih]

variable {sp : Lisp_Specifier Tag α} {type : SpecLocaleType}

@[simp]
theorem specs_setSpecList_self (specs : SpecList Tag α) :
    (sp.setSpecList type specs).specs type = specs := Function.update_self ..

theorem specs_setSpecList_of_ne {type' : SpecLocaleType} (h : type' ≠ type)
    (specs : SpecList Tag α) : (sp.setSpecList type specs).specs type' = sp.specs type' :=
  Function.update_of_ne h ..

@[simp]
theorem globalSpecs_setSpecList (specs : SpecList Tag α) :
    (sp.setSpecList type specs).globalSpecs = sp.globalSpecs := rfl

theorem getInstList_global : specifierGetInstList sp .global = some sp.globalSpecs := if_pos rfl

theorem getInstList_of_type (h : loc.type ≠ .global) :
    specifierGetInstList sp loc = (sp.specs loc.type).lookup loc := if_neg h

theorem getInstList_setInstList_self (h : (specifierGetInstList sp loc).isSome) :
    specifierGetInstList (setInstList sp loc l) loc = some l := by
  by_cases hg : loc.type = .global
  · rw [specifierGetInstList, setInstList, if_pos hg, if_pos hg]
  · rw [getInstList_of_type hg] at h ⊢
    rw [setInstList, if_neg hg, specs_setSpecList_self, lookup_setSpec_self h]

theorem getInstList_setInstList_of_ne (h : loc' ≠ loc) :
    specifierGetInstList (setInstList sp loc l) loc' = specifierGetInstList sp loc' := by
  by_cases hg : loc.type = .global
  · have hg' : loc'.type ≠ .global := fun hg' =>
      h ((eq_global_of_type hg').trans (eq_global_of_type hg).symm)
    rw [getInstList_of_type hg', getInstList_of_type hg', setInstList, if_pos hg]
  · by_cases hg' : loc'.type = .global
    · rw [eq_global_of_type hg', getInstList_global, getInstList_global, setInstList, if_neg hg,
        globalSpecs_setSpecList]
    · rw [getInstList_of_type hg', getInstList_of_type hg', setInstList, if_neg hg]
      by_cases ht : loc'.type = loc.type
      · rw [ht, specs_setSpecList_self, lookup_setSpec_of_ne h]
      · rw [specs_setSpecList_of_ne ht]

theorem specs_setInstList_of_ne (h : type ≠ loc.type) :
    (setInstList sp loc l).specs type = sp.specs type := by
  rw [setInstList]
  split_ifs
  · rfl
  · exact specs_setSpecList_of_ne h _

theorem map_fst_specs_setInstList :
    ((setInstList sp loc l).specs type).map Prod.fst = (sp.specs type).map Prod.fst := by
  by_cases ht : type = loc.type
  · rw [setInstList, ht]
    split_ifs
    · rfl
    · rw [specs_setSpecList_self, map_fst_setSpec]
  · rw [specs_setInstList_of_ne ht]

/-! ## A new spec -/

/-- The specifier with a spec for the locale, a new one if it has none. -/
def withSpec (sp : Lisp_Specifier Tag α) (loc : Locale) : Lisp_Specifier Tag α :=
  if (specifierGetInstList sp loc).isNone then
    sp.setSpecList loc.type ((loc, []) :: sp.specs loc.type)
  else sp

theorem getInstList_withSpec_self :
    specifierGetInstList (withSpec sp loc) loc = some ((specifierGetInstList sp loc).getD []) := by
  rw [withSpec]
  split_ifs with hnone
  · have hg : loc.type ≠ .global := by
      intro hg
      rw [specifierGetInstList, if_pos hg] at hnone
      cases hnone
    rw [Option.isNone_iff_eq_none.mp hnone, getInstList_of_type hg, specs_setSpecList_self]
    exact lookup_cons_self
  · cases hget : specifierGetInstList sp loc with
    | none =>
      rw [hget] at hnone
      exact absurd rfl hnone
    | some instList => rfl

theorem getInstList_withSpec_of_ne (h : loc' ≠ loc) :
    specifierGetInstList (withSpec sp loc) loc' = specifierGetInstList sp loc' := by
  rw [withSpec]
  split_ifs with hnone
  · by_cases hg' : loc'.type = .global
    · rw [eq_global_of_type hg', getInstList_global, getInstList_global, globalSpecs_setSpecList]
    · rw [getInstList_of_type hg', getInstList_of_type hg']
      by_cases ht : loc'.type = loc.type
      · rw [ht, specs_setSpecList_self, List.lookup_cons, beq_false_of_ne h]
      · rw [specs_setSpecList_of_ne ht]
  · rfl

/-! ## An addition -/

variable [DecidableEq Tag] {types : SpecifierTypes Tag α} {now : Moment Tag} {self : ℕ}
  {instList : InstList Tag α} {addMeth : SpecAddMeth}

variable (types) in
/-- An inst-list after a new one is added to it. -/
def combine (addMeth : SpecAddMeth) (orig new : InstList Tag α) : InstList Tag α :=
  if (handleMultipleAddInsts types orig new addMeth).2 = .append then
    (handleMultipleAddInsts types orig new addMeth).1 ++ new
  else new ++ (handleMultipleAddInsts types orig new addMeth).1

variable (types) in
/-- The list that `specifier_add_spec` adds. -/
def processed (sp : Lisp_Specifier Tag α) (self : ℕ) (loc : Locale) (instList : InstList Tag α) :
    InstList Tag α :=
  buildUpProcessedList types (types.methods sp.methods) (sp.magicParent.getD self) loc instList

/-- **An addition** clears what its method clears; then it changes one inst-list. -/
theorem addSpec_spec : specifierAddSpec types now sp self loc instList addMeth =
    (handleRemoveMeths now sp loc.type addMeth).map fun sp' =>
      setInstList (withSpec sp' loc) loc
        (combine types addMeth ((specifierGetInstList sp' loc).getD [])
          (processed types sp self loc instList)) := by
  rw [specifierAddSpec]
  cases handleRemoveMeths now sp loc.type addMeth with
  | none => rfl
  | some sp' =>
    have hnew : (if (specifierGetInstList sp' loc).isNone then specifierNewSpec sp' loc
        else some sp') = some (withSpec sp' loc) := by
      rw [withSpec, specifierNewSpec]
      split_ifs with hnone hg
      · rw [specifierGetInstList, if_pos hg] at hnone
        cases hnone
      · rfl
      · rfl
    simp only [Option.bind_some, Option.map_some, hnew, getInstList_withSpec_self,
      Option.getD_some, combine, processed]
    cases addMeth <;> rfl

theorem buildUpProcessedList_eq {meths : SpecifierMethods Tag α} {specifier : ℕ} :
    buildUpProcessedList types meths specifier loc instList =
    instList.flatMap fun pair => (subInstList types meths specifier loc pair).reverse := by
  have hloop : ∀ (l acc : InstList Tag α),
      (l.foldl (fun listToBuildUp pair =>
        subInstList types meths specifier loc pair ++ listToBuildUp) acc).reverse =
      acc.reverse ++ l.flatMap fun pair =>
        (subInstList types meths specifier loc pair).reverse := by
    intro l
    induction l with
    | nil => simp
    | cons pair l ih =>
      intro acc
      rw [foldl_cons, ih, reverse_append, append_assoc, flatMap_cons]
  exact hloop instList []

theorem handleRemoveMeths_isSome_iff :
    (handleRemoveMeths now sp type addMeth).isSome ↔
      ¬ (addMeth = .removeLocaleType ∧ type = .global) := by
  cases addMeth with
  | removeLocaleType =>
    by_cases ht : type = .global
    · simp [handleRemoveMeths, specifierRemoveLocaleType, ht]
    · simp [handleRemoveMeths, specifierRemoveLocaleType, ht]
  | prepend | append | removeTagSetPrepend | removeTagSetAppend | removeLocale | removeAll =>
    simp [handleRemoveMeths, specifierRemoveLocaleType]

end XEmacs.Specifier
