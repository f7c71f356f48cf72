import XEmacs.Specifier.Adding

/-!
# What a specifier keeps to

Every spec is in the list of its locale's type, and no locale has two. So the lists say the same
as reading the inst-list of each locale (`Sound.stored_iff`), and an operation is known by what
it leaves stored.
-/

namespace XEmacs.Specifier

open List

variable {Tag α : Type*} {sp sp' : Lisp_Specifier Tag α} {loc loc' : Locale}
  {l l' : InstList Tag α} {type : SpecLocaleType}

/-- A locale has one spec at most, in the list for its type. -/
structure Sound (sp : Lisp_Specifier Tag α) : Prop where
  unique : ∀ type, ((sp.specs type).map Prod.fst).Nodup
  typed : ∀ type, ∀ spec ∈ sp.specs type, spec.1.type = type ∧ type ≠ .global

/-- The inst-list is in the specifier, for the locale. -/
def Stored (sp : Lisp_Specifier Tag α) (loc : Locale) (l : InstList Tag α) : Prop :=
  loc = .global ∧ l = sp.globalSpecs ∨ ∃ type, (loc, l) ∈ sp.specs type

variable (symbolName : Tag → List ℕ) in
/-- The representation invariant of specifiers. -/
structure Valid (sp : Lisp_Specifier Tag α) : Prop extends Sound sp where
  filled : ∀ loc l, Stored sp loc l → loc ≠ .global → l ≠ []
  canonical : ∀ loc l, Stored sp loc l → ∀ pair ∈ l,
    SortedByName symbolName pair.1 ∧ pair.1.Nodup

/-! ## Specs and inst-lists -/

theorem lookup_of_mem {specs : SpecList Tag α} (hnodup : (specs.map Prod.fst).Nodup)
    (h : (loc, l) ∈ specs) : specs.lookup loc = some l := by
  induction specs with
  | nil => cases h
  | cons spec rest ih =>
    obtain ⟨k, v⟩ := spec
    rw [map_cons, nodup_cons] at hnodup
    obtain heq | hmem := List.mem_cons.mp h
    · cases heq
      exact lookup_cons_self
    · have hne : loc ≠ k := by
        rintro rfl
        exact hnodup.1 (List.mem_map.mpr ⟨_, hmem, rfl⟩)
      rw [List.lookup_cons, beq_false_of_ne hne]
      exact ih hnodup.2 hmem

theorem mem_of_lookup {specs : SpecList Tag α} (h : specs.lookup loc = some l) :
    (loc, l) ∈ specs := by
  obtain ⟨l₁, l₂, rfl, -⟩ := List.lookup_eq_some_iff.mp h
  exact mem_append_right _ (mem_cons_self ..)

theorem Sound.stored_iff (h : Sound sp) :
    Stored sp loc l ↔ specifierGetInstList sp loc = some l := by
  by_cases hg : loc.type = .global
  · rw [eq_global_of_type hg, getInstList_global]
    constructor
    · rintro (⟨-, rfl⟩ | ⟨type, hmem⟩)
      · rfl
      · exact absurd (h.typed type _ hmem).1.symm (h.typed type _ hmem).2
    · intro hl
      exact .inl ⟨rfl, (Option.some.inj hl).symm⟩
  · rw [getInstList_of_type hg]
    constructor
    · rintro (⟨rfl, -⟩ | ⟨type, hmem⟩)
      · exact absurd rfl hg
      · have htype : loc.type = type := (h.typed type _ hmem).1
        rw [htype]
        exact lookup_of_mem (h.unique type) hmem
    · intro hl
      exact .inr ⟨_, mem_of_lookup hl⟩

theorem Sound.setSpecList (h : Sound sp) {specs : SpecList Tag α} (ht : type ≠ .global)
    (hnodup : (specs.map Prod.fst).Nodup) (htyped : ∀ spec ∈ specs, spec.1.type = type) :
    Sound (sp.setSpecList type specs) where
  unique t := by
    by_cases hte : t = type
    · rw [hte, specs_setSpecList_self]
      exact hnodup
    · rw [specs_setSpecList_of_ne hte]
      exact h.unique t
  typed t spec hmem := by
    by_cases hte : t = type
    · rw [hte, specs_setSpecList_self] at hmem
      rw [hte]
      exact ⟨htyped spec hmem, ht⟩
    · rw [specs_setSpecList_of_ne hte] at hmem
      exact h.typed t spec hmem

theorem Sound.setInstList (h : Sound sp) : Sound (setInstList sp loc l) where
  unique t := by
    rw [map_fst_specs_setInstList]
    exact h.unique t
  typed t spec hmem := by
    have hkeys : ((Specifier.setInstList sp loc l).specs t).map Prod.fst =
        (sp.specs t).map Prod.fst := map_fst_specs_setInstList
    have hfst : spec.1 ∈ (sp.specs t).map Prod.fst := hkeys ▸ mem_map_of_mem hmem
    obtain ⟨spec', hmem', heq⟩ := List.mem_map.mp hfst
    rw [← heq]
    exact h.typed t spec' hmem'

theorem Sound.withSpec (h : Sound sp) : Sound (withSpec sp loc) := by
  unfold Specifier.withSpec
  split_ifs with hnone
  · have hg : loc.type ≠ .global := by
      intro hg
      rw [specifierGetInstList, if_pos hg] at hnone
      cases hnone
    refine h.setSpecList hg ?_ ?_
    · rw [map_cons, nodup_cons]
      refine ⟨fun hmem => ?_, h.unique _⟩
      obtain ⟨⟨k, v⟩, hspec, heq⟩ := List.mem_map.mp hmem
      cases heq
      have hlookup := lookup_of_mem (h.unique _) hspec
      rw [getInstList_of_type hg, hlookup] at hnone
      cases hnone
    · rintro spec (_ | ⟨_, hmem⟩)
      · rfl
      · exact (h.typed _ spec hmem).1
  · exact h

/-! ## Removing -/

/-- Something was removed: an inst-list that is left is an old one, or a part of it that is not
empty. -/
structure Shrinks (sp sp' : Lisp_Specifier Tag α) : Prop where
  sound : Sound sp'
  stored : ∀ loc l, Stored sp' loc l → ∃ l₀, Stored sp loc l₀ ∧ l ⊆ l₀ ∧
    (l₀ ≠ [] → loc ≠ .global → l ≠ [])

theorem Valid.shrinks {symbolName : Tag → List ℕ} (h : Valid symbolName sp)
    (hs : Shrinks sp sp') : Valid symbolName sp' where
  toSound := hs.sound
  filled loc l hl hg := by
    obtain ⟨l₀, hl₀, -, hne⟩ := hs.stored loc l hl
    exact hne (h.filled loc l₀ hl₀ hg) hg
  canonical loc l hl pair hpair := by
    obtain ⟨l₀, hl₀, hsub, -⟩ := hs.stored loc l hl
    exact h.canonical loc l₀ hl₀ pair (hsub hpair)

theorem Shrinks.refl (h : Sound sp) : Shrinks sp sp :=
  ⟨h, fun _ l hl => ⟨l, hl, List.Subset.refl _, fun hne _ => hne⟩⟩

theorem Shrinks.trans {sp₁ sp₂ sp₃ : Lisp_Specifier Tag α} (h₁ : Shrinks sp₁ sp₂)
    (h₂ : Shrinks sp₂ sp₃) : Shrinks sp₁ sp₃ where
  sound := h₂.sound
  stored loc l hl := by
    obtain ⟨l', hl', hsub, hne⟩ := h₂.stored loc l hl
    obtain ⟨l₀, hl₀, hsub₀, hne₀⟩ := h₁.stored loc l' hl'
    exact ⟨l₀, hl₀, List.Subset.trans hsub hsub₀, fun h hg => hne (hne₀ h hg) hg⟩

variable [DecidableEq Tag] {types : SpecifierTypes Tag α} {now : Moment Tag}

theorem shrinks_removeLocaleType (h : Sound sp) {tagSet : List Tag} {exactP : Bool}
    (hr : specifierRemoveLocaleType now sp type tagSet exactP = some sp') : Shrinks sp sp' := by
  rw [specifierRemoveLocaleType] at hr
  split_ifs at hr with ht
  cases hr
  -- a spec that is left has the locale of the spec it comes from
  have hleft : ∀ spec ∈ (sp.specs type).filterMap (fun spec =>
      if now.dropped spec.1 || (processRemoveInstList spec.2 tagSet exactP).isEmpty then none
      else some (spec.1, processRemoveInstList spec.2 tagSet exactP)),
      ∃ l₀, (spec.1, l₀) ∈ sp.specs type ∧ spec.2 ⊆ l₀ ∧ spec.2 ≠ [] := by
    intro spec hmem
    obtain ⟨spec₀, hmem₀, hsome⟩ := List.mem_filterMap.mp hmem
    split_ifs at hsome with hcond
    cases hsome
    rw [Bool.or_eq_true, not_or, List.isEmpty_iff] at hcond
    exact ⟨spec₀.2, hmem₀, List.filter_sublist.subset, hcond.2⟩
  have hsub : (((sp.specs type).filterMap (fun spec =>
      if now.dropped spec.1 || (processRemoveInstList spec.2 tagSet exactP).isEmpty then none
      else some (spec.1, processRemoveInstList spec.2 tagSet exactP))).map Prod.fst).Sublist
        ((sp.specs type).map Prod.fst) := by
    rw [map_filterMap]
    induction sp.specs type with
    | nil => exact List.Sublist.slnil
    | cons spec rest ih =>
      rw [filterMap_cons]
      split_ifs
      · exact ih.cons _
      · exact ih.cons_cons _
  constructor
  · refine h.setSpecList ht ((h.unique type).sublist hsub) fun spec hmem => ?_
    obtain ⟨l₀, hmem₀, -, -⟩ := hleft spec hmem
    exact (h.typed type _ hmem₀).1
  · rintro loc l (⟨rfl, rfl⟩ | ⟨t, hmem⟩)
    · exact ⟨_, .inl ⟨rfl, rfl⟩, List.Subset.refl _, fun _ hg => absurd rfl hg⟩
    · by_cases hte : t = type
      · rw [hte, specs_setSpecList_self] at hmem
        obtain ⟨l₀, hmem₀, hl, hne⟩ := hleft _ hmem
        exact ⟨l₀, .inr ⟨type, hmem₀⟩, hl, fun _ _ => hne⟩
      · rw [specs_setSpecList_of_ne hte] at hmem
        exact ⟨l, .inr ⟨t, hmem⟩, List.Subset.refl _, fun hne _ => hne⟩

theorem shrinks_removeSpec (h : Sound sp) (loc : Locale) (tagSet : List Tag) (exactP : Bool) :
    Shrinks sp (specifierRemoveSpec sp loc tagSet exactP) := by
  rw [specifierRemoveSpec]
  split_ifs with hg
  · constructor
    · exact ⟨h.unique, h.typed⟩
    · rintro loc' l (⟨rfl, rfl⟩ | ⟨t, hmem⟩)
      · exact ⟨_, .inl ⟨rfl, rfl⟩, List.filter_sublist.subset, fun _ hg' => absurd rfl hg'⟩
      · exact ⟨l, .inr ⟨t, hmem⟩, List.Subset.refl _, fun hne _ => hne⟩
  · cases hlookup : (sp.specs loc.type).lookup loc with
    | none => exact .refl h
    | some l₀ =>
      have hget : specifierGetInstList sp loc = some l₀ := (getInstList_of_type hg).trans hlookup
      simp only [Option.elim_some]
      split_ifs with hempty
      · constructor
        · exact h.setSpecList hg ((h.unique _).sublist (List.filter_sublist.map _))
            fun spec hmem => (h.typed _ spec (mem_of_mem_filter hmem)).1
        · rintro loc' l (⟨rfl, rfl⟩ | ⟨t, hmem⟩)
          · exact ⟨_, .inl ⟨rfl, rfl⟩, List.Subset.refl _, fun _ hg' => absurd rfl hg'⟩
          · refine ⟨l, .inr ⟨t, ?_⟩, List.Subset.refl _, fun hne _ => hne⟩
            by_cases hte : t = loc.type
            · rw [hte, specs_setSpecList_self] at hmem
              rw [hte]
              exact mem_of_mem_filter hmem
            · rwa [specs_setSpecList_of_ne hte] at hmem
      · refine ⟨h.setInstList, fun loc' l hl => ?_⟩
        rw [h.setInstList.stored_iff] at hl
        by_cases hloc : loc' = loc
        · subst hloc
          rw [getInstList_setInstList_self (hget ▸ rfl), Option.some.injEq] at hl
          subst hl
          refine ⟨l₀, h.stored_iff.mpr hget, List.filter_sublist.subset, fun _ _ hnil => ?_⟩
          exact hempty (List.isEmpty_iff.mpr hnil)
        · rw [getInstList_setInstList_of_ne hloc] at hl
          exact ⟨l, h.stored_iff.mpr hl, List.Subset.refl _, fun hne _ => hne⟩

theorem shrinks_handleRemoveMeths (h : Sound sp) {addMeth : SpecAddMeth}
    (hr : handleRemoveMeths now sp type addMeth = some sp') : Shrinks sp sp' := by
  cases addMeth with
  | removeLocaleType => exact shrinks_removeLocaleType h hr
  | removeAll =>
    rw [handleRemoveMeths] at hr
    obtain ⟨sp₁, h₁, hr⟩ := Option.bind_eq_some_iff.mp hr
    obtain ⟨sp₂, h₂, hr⟩ := Option.bind_eq_some_iff.mp hr
    obtain ⟨sp₃, h₃, hr⟩ := Option.bind_eq_some_iff.mp hr
    obtain ⟨sp₄, h₄, rfl⟩ := Option.map_eq_some_iff.mp hr
    have hs₁ := shrinks_removeLocaleType h h₁
    have hs₂ := shrinks_removeLocaleType hs₁.sound h₂
    have hs₃ := shrinks_removeLocaleType hs₂.sound h₃
    have hs₄ := shrinks_removeLocaleType hs₃.sound h₄
    exact hs₁.trans (hs₂.trans (hs₃.trans (hs₄.trans (shrinks_removeSpec hs₄.sound _ _ _))))
  | prepend | append | removeTagSetPrepend | removeTagSetAppend | removeLocale =>
    cases hr
    exact .refl h

/-! ## Adding -/

/-- Whether an add method leaves the pairs that a locale has, but for those with the tag sets of
the new ones. -/
def SpecAddMeth.keepsLocale : SpecAddMeth → Bool
  | .prepend | .append | .removeTagSetPrepend | .removeTagSetAppend => true
  | .removeLocale | .removeLocaleType | .removeAll => false

theorem removeTagSets_subset (instList newList : InstList Tag α) :
    handleMultipleAddInsts.removeTagSets types instList newList ⊆ instList := by
  unfold handleMultipleAddInsts.removeTagSets
  induction newList generalizing instList with
  | nil => exact List.Subset.refl _
  | cons new newList ih => exact List.Subset.trans (ih _) List.filter_sublist.subset

theorem mem_combine {addMeth : SpecAddMeth} {orig new : InstList Tag α} {pair : InstPair Tag α}
    (h : pair ∈ combine types addMeth orig new) : pair ∈ orig ∨ pair ∈ new := by
  have hsub : (handleMultipleAddInsts types orig new addMeth).1 ⊆ orig := by
    cases addMeth with
    | removeTagSetPrepend | removeTagSetAppend => exact removeTagSets_subset orig new
    | removeLocale => exact nil_subset _
    | prepend | append | removeLocaleType | removeAll => exact List.Subset.refl _
  unfold combine at h
  split_ifs at h
  · exact (List.mem_append.mp h).imp_left fun hm => hsub hm
  · exact (List.mem_append.mp h).symm.imp_left fun hm => hsub hm

theorem combine_ne_nil {addMeth : SpecAddMeth} {orig new : InstList Tag α}
    (h : new ≠ [] ∨ addMeth.keepsLocale = true ∧ orig ≠ []) :
    combine types addMeth orig new ≠ [] := by
  by_cases hnew : new = []
  · obtain ⟨hkeeps, horig⟩ := h.resolve_left fun hne => hne hnew
    subst hnew
    cases addMeth with
    | prepend | append | removeTagSetPrepend | removeTagSetAppend =>
      simpa [combine, handleMultipleAddInsts, handleMultipleAddInsts.removeTagSets] using horig
    | removeLocale | removeLocaleType | removeAll => cases hkeeps
  · unfold combine
    split_ifs <;> simp [hnew]

theorem handleRemoveMeths_of_keepsLocale {addMeth : SpecAddMeth}
    (h : addMeth.keepsLocale = true) : handleRemoveMeths now sp type addMeth = some sp := by
  cases addMeth with
  | prepend | append | removeTagSetPrepend | removeTagSetAppend => rfl
  | removeLocale | removeLocaleType | removeAll => cases h

variable (types now) in
/-- What an addition of an inst-list needs to leave a valid specifier: it does not remove the
locale type of `global`, and it leaves another locale with a pair. -/
def AddOk (addMeth : SpecAddMeth) (sp : Lisp_Specifier Tag α) (spec : Spec Tag α) : Prop :=
  (addMeth = .removeLocaleType → spec.1 ≠ .global) ∧
  (spec.1 ≠ .global → spec.2 ≠ [] ∨
    addMeth.keepsLocale = true ∧ (specifierGetInstList sp spec.1).isSome)

/-- **An addition** of canonical pairs that leaves the locale with a pair keeps a specifier
valid. -/
theorem Valid.addSpec {self : ℕ} {instList : InstList Tag α} {addMeth : SpecAddMeth}
    (h : Valid types.symbolName sp)
    (hok : AddOk addMeth sp (loc, processed types sp self loc instList))
    (hcanonical : ∀ pair ∈ processed types sp self loc instList,
      SortedByName types.symbolName pair.1 ∧ pair.1.Nodup) :
    ∃ sp', specifierAddSpec types now sp self loc instList addMeth = some sp' ∧
      Valid types.symbolName sp' := by
  obtain ⟨hmeth, hfilled⟩ := hok
  have hsome : (handleRemoveMeths now sp loc.type addMeth).isSome :=
    handleRemoveMeths_isSome_iff.mpr fun ⟨hm, ht⟩ => hmeth hm (eq_global_of_type ht)
  obtain ⟨sp₁, hsp₁⟩ := Option.isSome_iff_exists.mp hsome
  have hshrinks := shrinks_handleRemoveMeths h.toSound hsp₁
  have hvalid₁ := h.shrinks hshrinks
  refine ⟨_, by rw [addSpec_spec, hsp₁]; rfl, hvalid₁.toSound.withSpec.setInstList, ?_, ?_⟩
  · intro loc' l hl hg
    rw [hvalid₁.toSound.withSpec.setInstList.stored_iff] at hl
    by_cases hloc : loc' = loc
    · subst hloc
      rw [getInstList_setInstList_self (by rw [getInstList_withSpec_self]; rfl),
        Option.some.injEq] at hl
      rw [← hl]
      refine combine_ne_nil ((hfilled hg).imp_right fun ⟨hkeeps, hget⟩ => ⟨hkeeps, ?_⟩)
      rw [handleRemoveMeths_of_keepsLocale hkeeps, Option.some.injEq] at hsp₁
      subst hsp₁
      obtain ⟨l₀, hl₀⟩ := Option.isSome_iff_exists.mp hget
      rw [hl₀]
      exact h.filled loc' l₀ (h.toSound.stored_iff.mpr hl₀) hg
    · rw [getInstList_setInstList_of_ne hloc, getInstList_withSpec_of_ne hloc] at hl
      exact hvalid₁.filled loc' l (hvalid₁.toSound.stored_iff.mpr hl) hg
  · intro loc' l hl pair hpair
    rw [hvalid₁.toSound.withSpec.setInstList.stored_iff] at hl
    by_cases hloc : loc' = loc
    · subst hloc
      rw [getInstList_setInstList_self (by rw [getInstList_withSpec_self]; rfl),
        Option.some.injEq] at hl
      subst hl
      obtain horig | hnew := mem_combine hpair
      · cases hget : specifierGetInstList sp₁ loc' with
        | none =>
          rw [hget] at horig
          cases horig
        | some l₁ =>
          rw [hget] at horig
          exact hvalid₁.canonical loc' l₁ (hvalid₁.toSound.stored_iff.mpr hget) pair horig
      · exact hcanonical pair hnew
    · rw [getInstList_setInstList_of_ne hloc, getInstList_withSpec_of_ne hloc] at hl
      exact hvalid₁.canonical loc' l (hvalid₁.toSound.stored_iff.mpr hl) pair hpair

end XEmacs.Specifier
