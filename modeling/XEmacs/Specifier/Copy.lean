import XEmacs.Specifier.Calls

/-!
# Copying a specifier

With HOW-TO-ADD nil, `copy-specifier` is to erase what the destination has for the types of
locales that are copied. It leaves that to the additions: each one, for one locale, erases the
whole type.
-/

namespace XEmacs.Specifier

open List Function Option

variable {Tag α : Type*} [DecidableEq Tag] {types : SpecifierTypes Tag α} {now : Moment Tag}
  {s : Specifiers Tag α} {specifier dest : ℕ} {tagSet : List Tag} {exactP : Bool}
  {sp : Lisp_Specifier Tag α} {loc : Locale} {t : SpecLocaleType}

/-! ## Sound specifiers

A copy relies on this: no locale has two specs of a type. Every call keeps it. -/

/-- No specifier has two specs for a locale. -/
def AllSound (s : Specifiers Tag α) : Prop := ∀ specifier, Sound (s.get specifier)

omit [DecidableEq Tag] in
theorem AllSound.set (h : AllSound s) (hsp : Sound sp) : AllSound (s.set dest sp) := by
  intro id
  by_cases hid : id = dest
  · rw [hid, Specifiers.set]
    simpa using hsp
  · rw [Specifiers.set]
    simpa [update_of_ne hid] using h id

theorem AllSound.addSpecIn (h : AllSound s) {addMeth : SpecAddMeth} {spec : Spec Tag α}
    {s' : Specifiers Tag α} (hs' : addSpecIn types now dest addMeth s spec = some s') :
    AllSound s' := by
  obtain ⟨sp', hadd, rfl⟩ := Option.map_eq_some_iff.mp hs'
  rw [addSpec_spec] at hadd
  obtain ⟨sp₁, hremoved, rfl⟩ := Option.map_eq_some_iff.mp hadd
  exact h.set (shrinks_handleRemoveMeths (h dest) hremoved).sound.withSpec.setInstList

theorem AllSound.copyPart (h : AllSound s) {addMeth : Option SpecAddMeth} {part : Part}
    {s' : Specifiers Tag α}
    (hs' : copySpecifierMapfun types now specifier dest tagSet exactP addMeth s part = some s') :
    AllSound s' := by
  cases part with
  | type t =>
    refine Runs.keeps_after (fun s loc s' hs hround => ?_) h hs'
    rw [copyRound] at hround
    split_ifs at hround
    · cases hround
      exact hs
    · exact hs.addSpecIn hround
  | locale loc =>
    obtain ⟨instList, -, hadd⟩ := Option.bind_eq_some_iff.mp hs'
    exact h.addSpecIn hadd

theorem AllSound.removePart (h : AllSound s) {part : Part} {s' : Specifiers Tag α}
    (hs' : removeSpecifierMapfun now specifier tagSet exactP s part = some s') : AllSound s' := by
  cases part with
  | type t =>
    obtain ⟨sp', hremoved, rfl⟩ := Option.map_eq_some_iff.mp hs'
    exact h.set (shrinks_removeLocaleType (h specifier) hremoved).sound
  | locale loc =>
    cases hs'
    exact h.set (shrinks_removeSpec (h specifier) ..).sound

omit [DecidableEq Tag] in
theorem sound_makeSpecifier (h : AllSound s) (methods : ℕ) :
    AllSound (makeSpecifier methods s) := by
  intro id
  by_cases hid : id = s.count
  · have hnew : (makeSpecifier methods s).get id = ⟨methods, none, [], fun _ => []⟩ :=
      hid ▸ update_self ..
    rw [hnew]
    exact ⟨fun _ => nodup_nil, fun _ _ hmem => absurd hmem not_mem_nil⟩
  · have hold : (makeSpecifier methods s).get id = s.get id := update_of_ne hid ..
    rw [hold]
    exact h id

theorem AllSound.step (h : AllSound s) {call : Moment Tag × Call Tag α} {s' : Specifiers Tag α}
    (hs' : specifierStep types s call = some s') : AllSound s' := by
  rw [specifierStep] at hs'
  split_ifs at hs'
  swap
  · cases hs'
    exact h
  obtain ⟨now, call⟩ := call
  cases call with
  | addSpec specifier instantiator locale tagSet howToAdd => exact h.addSpecIn hs'
  | addSpecList specifier specList howToAdd =>
    exact Runs.keeps_after (fun _ _ _ hs => hs.addSpecIn) h hs'
  | copy specifier dest locale tagSet exactP howToAdd =>
    obtain ⟨⟨d, s''⟩, hcopy, rfl⟩ := Option.map_eq_some_iff.mp hs'
    obtain ⟨s'', hrun, heq⟩ := Option.map_eq_some_iff.mp hcopy
    obtain ⟨-, rfl⟩ := Prod.mk.inj heq
    refine Runs.keeps_after (fun _ _ _ hs => hs.copyPart) ?_ hrun
    split_ifs
    · exact sound_makeSpecifier h _
    · exact h
  | remove specifier locale tagSet exactP =>
    exact Runs.keeps_after (fun _ _ _ hs => hs.removePart) h hs'

/-- After any run of calls specifiers are sound that were sound before it. -/
theorem AllSound.after_calls (h : AllSound s) {calls : List (Moment Tag × Call Tag α)}
    {s' : Specifiers Tag α} (hs' : Runs.after (specifierStep types) s calls = some s') :
    AllSound s' :=
  Runs.keeps_after (fun _ _ _ hs => hs.step) h hs'

/-- An addition, and a copy to a new specifier. -/
theorem after_copied_buffer :
    ∃ s', Runs.after (specifierStep plainTypes) oneSpecifier
        [(allLive, .addSpec 0 7 (.buffer 1) [0, 1] none),
          (allLive, .copy 0 none none [] false none)] = some s' ∧ AllSound s' :=
  Exists.imp (fun _ hs' => ⟨hs', AllSound.after_calls (fun id => (oneSpecifier_valid id).1) hs'⟩)
    ⟨_, rfl⟩

/-! ## Erasing a type -/

theorem removeLocaleType_nil (ht : t ≠ .global) :
    specifierRemoveLocaleType now sp t [] false = some (sp.setSpecList t []) := by
  have hleft : ∀ l : InstList Tag α, processRemoveInstList l [] false = [] := by
    simp [processRemoveInstList]
  simp [specifierRemoveLocaleType, ht, hleft]

omit [DecidableEq Tag] in
theorem setSpecList_setSpecList (specs specs' : SpecList Tag α) :
    (sp.setSpecList t specs).setSpecList t specs' = sp.setSpecList t specs' := by
  simp [Lisp_Specifier.setSpecList]

theorem addSpec_removeLocaleType {self : ℕ} {instList : InstList Tag α} (ht : loc.type ≠ .global) :
    specifierAddSpec types now sp self loc instList .removeLocaleType =
      some (sp.setSpecList loc.type [(loc, processed types sp self loc instList)]) := by
  rw [addSpec_spec, handleRemoveMeths, removeLocaleType_nil ht, map_some]
  have hget : specifierGetInstList (sp.setSpecList loc.type []) loc = none := by
    rw [getInstList_of_type ht, specs_setSpecList_self]
    rfl
  have hnone : (specifierGetInstList (sp.setSpecList loc.type []) loc).isNone = true := by
    rw [hget]
    rfl
  have hcombine : ∀ new : InstList Tag α, combine types .removeLocaleType [] new = new :=
    fun new => append_nil new
  rw [withSpec, if_pos hnone, hget, getD_none, hcombine, setInstList, if_neg ht,
    specs_setSpecList_self, specs_setSpecList_self, setSpecList_setSpecList,
    setSpecList_setSpecList, setSpec, if_pos rfl]

/-! ## Copying a type -/

/-- The locales of a spec-list for which `specifier_copy_locale_type` adds. -/
def copiedLocales (now : Moment Tag) (specs : SpecList Tag α) : List Locale :=
  (specs.map Prod.fst).filter fun loc => !now.dropped loc

/-- What a copy of the spec-list `source` leaves of the spec-list `old` of the destination, which
makes `make` of an inst-list: the last locale only. In a copy to itself (`same`) the inst-list of
the last locale has been erased, too, unless it is the first. -/
def copiedSpecs (make : Locale → InstList Tag α → InstList Tag α) (tagSet : List Tag)
    (exactP same : Bool) (source old : SpecList Tag α) (locales : List Locale) : SpecList Tag α :=
  locales.getLast?.elim old fun last =>
    [(last, make last (if same ∧ locales.length ≠ 1 then []
      else processInstList ((source.lookup last).getD []) tagSet exactP))]

omit [DecidableEq Tag] in
@[simp]
theorem get_set_self : (s.set dest sp).get dest = sp := update_self ..

omit [DecidableEq Tag] in
theorem get_set_of_ne {id : ℕ} (h : id ≠ dest) : (s.set dest sp).get id = s.get id :=
  update_of_ne h ..

omit [DecidableEq Tag] in
theorem set_set (sp' : Lisp_Specifier Tag α) : (s.set dest sp).set dest sp' = s.set dest sp' := by
  simp [Specifiers.set]

omit [DecidableEq Tag] in
theorem set_specs_self : s.set dest ((s.get dest).setSpecList t ((s.get dest).specs t)) = s := by
  simp [Specifiers.set, Lisp_Specifier.setSpecList]

theorem copyRound_removeLocaleType (ht : loc.type ≠ .global) :
    copyRound types now specifier dest tagSet exactP .removeLocaleType s loc =
      some (if now.dropped loc then s
        else s.set dest ((s.get dest).setSpecList loc.type
          [(loc, processed types (s.get dest) dest loc (processInstList
            (((s.get specifier).specs loc.type).lookup loc |>.getD []) tagSet exactP))])) := by
  rw [copyRound]
  split_ifs
  · rfl
  · rw [addSpecIn, addSpec_removeLocaleType ht, map_some]

theorem read_copiedSpecs {make : Locale → InstList Tag α → InstList Tag α} {before : List Locale}
    (hloc : loc ∉ before) :
    processInstList ((((s.set dest ((s.get dest).setSpecList t (copiedSpecs make tagSet exactP
        (specifier = dest) ((s.get specifier).specs t) ((s.get dest).specs t) before))).get
          specifier).specs t).lookup loc |>.getD []) tagSet exactP =
      if decide (specifier = dest) = true ∧ (before ++ [loc]).length ≠ 1 then []
      else processInstList (((s.get specifier).specs t).lookup loc |>.getD []) tagSet exactP := by
  by_cases hsame : specifier = dest
  · subst hsame
    rw [get_set_self, specs_setSpecList_self]
    cases before using List.reverseRecOn with
    | nil => simp [copiedSpecs]
    | append_singleton init last =>
      have hne : loc ≠ last := fun h => hloc (h ▸ mem_append_right _ (mem_singleton_self _))
      have hlookup : ∀ v : InstList Tag α, List.lookup loc [(last, v)] = none := by
        intro v
        rw [List.lookup_cons, beq_false_of_ne hne]
        rfl
      simp [copiedSpecs, hlookup, processInstList]
  · rw [get_set_of_ne hsame, if_neg fun h => hsame (of_decide_eq_true h.1)]

/-- **A copy of a type** leaves the specs of the destination if there is no locale to copy, and
otherwise one spec. The induction goes over the locales from the last one back: the rounds before
it have left one spec. -/
theorem copyLocaleType_spec (ht : t ≠ .global)
    (hnodup : (((s.get specifier).specs t).map Prod.fst).Nodup)
    (htyped : ∀ spec ∈ (s.get specifier).specs t, spec.1.type = t) :
    specifierCopyLocaleType types now specifier dest tagSet exactP .removeLocaleType s t =
      some (s.set dest ((s.get dest).setSpecList t
        (copiedSpecs (processed types (s.get dest) dest) tagSet exactP (specifier = dest)
          ((s.get specifier).specs t) ((s.get dest).specs t)
          (copiedLocales now ((s.get specifier).specs t))))) := by
  replace htyped : ∀ loc ∈ ((s.get specifier).specs t).map Prod.fst, loc.type = t := by
    intro loc hloc
    obtain ⟨spec, hspec, rfl⟩ := List.mem_map.mp hloc
    exact htyped spec hspec
  rw [specifierCopyLocaleType, copiedLocales]
  generalize hkeys : ((s.get specifier).specs t).map Prod.fst = keys at hnodup htyped
  clear hkeys
  induction keys using List.reverseRecOn with
  | nil =>
    rw [Runs.after]
    exact congrArg some set_specs_self.symm
  | append_singleton keys loc ih =>
    obtain ⟨hnodup, -, hnotmem⟩ := List.nodup_append.mp hnodup
    have hloc : loc.type = t := htyped loc (by simp)
    rw [Runs.after_append, ih hnodup (fun k hk => htyped k (mem_append_left _ hk)),
      bind_some, Runs.after, copyRound_removeLocaleType (hloc ▸ ht), bind_some,
      Runs.after, List.filter_append]
    congr 1
    by_cases hdropped : now.dropped loc = true
    · rw [if_pos hdropped]
      simp [hdropped]
    · rw [if_neg hdropped, hloc, get_set_self, set_set, setSpecList_setSpecList]
      have hbefore : loc ∉ keys.filter fun loc => !now.dropped loc :=
        fun hmem => hnotmem loc (mem_of_mem_filter hmem) loc (mem_singleton_self _) rfl
      have hfilter : [loc].filter (fun loc => !now.dropped loc) = [loc] := by simp [hdropped]
      rw [read_copiedSpecs hbefore, hfilter]
      simp only [copiedSpecs, getLast?_append_cons, getLast?_singleton, elim_some]
      rfl

/-! ## Copying several types -/

/-- What `map_specifier` calls its function for where a type of locales is given. -/
def partOf (t : SpecLocaleType) : Part :=
  if t = .global then .locale .global else .type t

/-- The types of locales that are copied where LOCALE is nil, or a type. -/
def copiedTypes : Option SpecLocaleType → List SpecLocaleType
  | none => [.buffer, .window, .frame, .device, .global]
  | some t => [t]

theorem mapParts_eq (t : Option SpecLocaleType) :
    mapParts (t.map fun t => [.type t]) = (copiedTypes t).map partOf := by
  cases t with
  | none => rfl
  | some t => cases t <;> rfl

theorem copiedTypes_nodup (t : Option SpecLocaleType) : (copiedTypes t).Nodup := by
  cases t with
  | none => decide
  | some t => exact nodup_singleton t

variable (types now) in
/-- The destination after the types have been copied. -/
def copiedSpecifier (s : Specifiers Tag α) (specifier dest : ℕ) (tagSet : List Tag) (exactP : Bool)
    (ts : List SpecLocaleType) : Lisp_Specifier Tag α :=
  { s.get dest with
    globalSpecs :=
      if .global ∈ ts then processed types (s.get dest) dest .global
        (selected s specifier tagSet exactP .global)
      else (s.get dest).globalSpecs
    specs := fun t =>
      if t ∈ ts ∧ t ≠ .global then
        copiedSpecs (processed types (s.get dest) dest) tagSet exactP (specifier = dest)
          ((s.get specifier).specs t) ((s.get dest).specs t)
          (copiedLocales now ((s.get specifier).specs t))
      else (s.get dest).specs t }

theorem copySpec_global :
    specifierCopySpec types now specifier dest tagSet exactP .removeLocale s .global =
      some (s.set dest { s.get dest with
        globalSpecs := processed types (s.get dest) dest .global
          (selected s specifier tagSet exactP .global) }) := by
  have hget : specifierGetExternalInstList (s.get specifier) .global tagSet exactP =
      some (selected s specifier tagSet exactP .global) := by
    rw [specifierGetExternalInstList, selected, getInstList_global]
    simp only [elim_some, getD_some]
    split_ifs with hempty
    · rw [List.isEmpty_iff.mp hempty]
      rfl
    · rfl
  have hcombine : ∀ orig new : InstList Tag α, combine types .removeLocale orig new = new :=
    fun _ new => append_nil new
  rw [specifierCopySpec, hget, bind_some, addSpecIn, addSpec_spec]
  simp only [handleRemoveMeths, map_some, hcombine]
  rfl

theorem copyTypes_spec (hsound : Sound (s.get specifier)) {ts : List SpecLocaleType}
    (hts : ts.Nodup) :
    Runs.after (copySpecifierMapfun types now specifier dest tagSet exactP none) s
        (ts.map partOf) =
      some (s.set dest (copiedSpecifier types now s specifier dest tagSet exactP ts)) := by
  induction ts using List.reverseRecOn with
  | nil =>
    have hself : copiedSpecifier types now s specifier dest tagSet exactP [] = s.get dest := by
      simp [copiedSpecifier]
    rw [map_nil, Runs.after, hself]
    exact congrArg some (by simp [Specifiers.set])
  | append_singleton ts t ih =>
    obtain ⟨hts, -, hnotmem⟩ := List.nodup_append.mp hts
    have ht : t ∉ ts := fun hmem => hnotmem t hmem t (mem_singleton_self t) rfl
    have hsource : ((s.set dest (copiedSpecifier types now s specifier dest tagSet exactP
        ts)).get specifier).specs t = (s.get specifier).specs t := by
      by_cases hsame : specifier = dest
      · subst hsame
        rw [get_set_self]
        exact if_neg fun h => ht h.1
      · rw [get_set_of_ne hsame]
    have hdest : (copiedSpecifier types now s specifier dest tagSet exactP ts).specs t =
        (s.get dest).specs t := if_neg fun h => ht h.1
    have hmake : processed types (copiedSpecifier types now s specifier dest tagSet exactP ts) dest =
        processed types (s.get dest) dest := rfl
    rw [map_append, Runs.after_append, ih hts, bind_some, map_singleton,
      Runs.after, partOf]
    split_ifs with hg
    · subst hg
      have hselected : selected (s.set dest (copiedSpecifier types now s specifier dest tagSet
          exactP ts)) specifier tagSet exactP .global =
          selected s specifier tagSet exactP .global := by
        by_cases hsame : specifier = dest
        · subst hsame
          rw [selected, get_set_self, getInstList_global, selected, getInstList_global]
          simp [copiedSpecifier, ht]
        · rw [selected, get_set_of_ne hsame, selected]
      rw [copySpecifierMapfun, getD_none, copySpec_global, hselected, get_set_self, set_set,
        hmake, bind_some, Runs.after]
      congr 2
      simp only [copiedSpecifier, mem_append, mem_singleton, or_true, if_true]
      congr 1
      funext t'
      by_cases ht' : t' = .global
      · simp [ht']
      · simp [ht']
    · rw [copySpecifierMapfun, getD_none, copyLocaleType_spec hg
        (hsource ▸ hsound.unique t) (fun spec hspec => (hsound.typed t spec (hsource ▸ hspec)).1),
        hsource, get_set_self, hdest, set_set, hmake, bind_some, Runs.after]
      congr 2
      simp only [copiedSpecifier, Lisp_Specifier.setSpecList, mem_append,
        mem_singleton, Ne.symm hg, or_false]
      congr 1
      funext t'
      by_cases ht' : t' = t
      · subst ht'
        simp [hg]
      · rw [update_of_ne ht']
        simp [ht']

/-! ## What a copy is for -/

/-- The locale `global`, or a live object. -/
def Moment.Live (now : Moment Tag) (loc : Locale) : Prop :=
  loc = .global ∨ now.objectDeadP loc = false

variable (now) in
/-- Everything selected is copied: from `s` to `s'` the destination gets, for every live locale of
the types `ts`, the selected pairs of the specifier in their order, and keeps all else. -/
structure CopiedAll (s s' : Specifiers Tag α) (specifier dest : ℕ) (tagSet : List Tag)
    (exactP : Bool) (ts : List SpecLocaleType) : Prop where
  copied : ∀ loc, now.Live loc → loc.type ∈ ts →
    (specifierGetInstList (s'.get dest) loc).getD [] = selected s specifier tagSet exactP loc
  others : ∀ t, t ∉ ts → t ≠ .global → (s'.get dest).specs t = (s.get dest).specs t
  otherGlobal : .global ∉ ts → (s'.get dest).globalSpecs = (s.get dest).globalSpecs

variable (types now) in
/-- Where a copy of the type `t` copies all: the specifier has pairs to copy for the last of its
locales only, which the methods of the destination leave as they are; and where it has no locale,
the destination has no pairs to erase. A copy to itself must have no other locale, or nothing to
copy. -/
structure CopiesType (s : Specifiers Tag α) (specifier dest : ℕ) (tagSet : List Tag)
    (exactP : Bool) (t : SpecLocaleType) : Prop where
  empty : copiedLocales now ((s.get specifier).specs t) = [] →
    ∀ loc, loc.type = t → now.Live loc → (specifierGetInstList (s.get dest) loc).getD [] = []
  before : ∀ loc ∈ copiedLocales now ((s.get specifier).specs t), now.Live loc →
    (copiedLocales now ((s.get specifier).specs t)).getLast? ≠ some loc →
    selected s specifier tagSet exactP loc = []
  last : ∀ loc, (copiedLocales now ((s.get specifier).specs t)).getLast? = some loc →
    now.Live loc →
    processed types (s.get dest) dest loc (selected s specifier tagSet exactP loc) =
        selected s specifier tagSet exactP loc ∧
      (specifier = dest → (copiedLocales now ((s.get specifier).specs t)).length ≠ 1 →
        selected s specifier tagSet exactP loc = [])

variable (types now) in
/-- Where a copy of the type `t`, or of the locale `global`, copies all. -/
def Copies (s : Specifiers Tag α) (specifier dest : ℕ) (tagSet : List Tag) (exactP : Bool)
    (t : SpecLocaleType) : Prop :=
  if t = .global then
    processed types (s.get dest) dest .global (selected s specifier tagSet exactP .global) =
      selected s specifier tagSet exactP .global
  else CopiesType types now s specifier dest tagSet exactP t

theorem processed_nil {self : ℕ} : processed types sp self loc [] = [] := by
  rw [processed, buildUpProcessedList_eq, flatMap_nil]

omit [DecidableEq Tag] in
theorem mem_copiedLocales {specs : SpecList Tag α} (ht : loc.type ≠ .global) (hlive : now.Live loc)
    (h : (specs.lookup loc).isSome) : loc ∈ copiedLocales now specs := by
  obtain ⟨l, hl⟩ := Option.isSome_iff_exists.mp h
  have hdead : now.objectDeadP loc = false :=
    hlive.resolve_left fun hg => ht (hg ▸ rfl)
  refine List.mem_filter.mpr ⟨List.mem_map.mpr ⟨_, mem_of_lookup hl, rfl⟩, ?_⟩
  simp [Moment.dropped, hdead]

theorem selected_of_not_mem (ht : loc.type ≠ .global) (hlive : now.Live loc)
    (h : loc ∉ copiedLocales now ((s.get specifier).specs loc.type)) :
    selected s specifier tagSet exactP loc = [] := by
  rw [selected, getInstList_of_type ht]
  cases hlookup : ((s.get specifier).specs loc.type).lookup loc with
  | none => rfl
  | some l => exact absurd (mem_copiedLocales ht hlive (hlookup ▸ rfl)) h

/-- The inst-lists a copy of a type leaves are the selected ones exactly where it copies all. -/
theorem copiedSpecs_iff (ht : t ≠ .global)
    (htyped : ∀ spec ∈ (s.get specifier).specs t, spec.1.type = t) :
    (∀ loc, loc.type = t → now.Live loc →
      ((copiedSpecs (processed types (s.get dest) dest) tagSet exactP (specifier = dest)
        ((s.get specifier).specs t) ((s.get dest).specs t)
        (copiedLocales now ((s.get specifier).specs t))).lookup loc).getD [] =
      selected s specifier tagSet exactP loc) ↔
    CopiesType types now s specifier dest tagSet exactP t := by
  have hselected : ∀ loc, loc.type = t → selected s specifier tagSet exactP loc =
      processInstList (((s.get specifier).specs t).lookup loc |>.getD []) tagSet exactP := by
    rintro loc rfl
    rw [selected, getInstList_of_type ht]
  cases hlast : (copiedLocales now ((s.get specifier).specs t)).getLast? with
  | none =>
    have hnil := List.getLast?_eq_none_iff.mp hlast
    have hold : ∀ loc, loc.type = t → specifierGetInstList (s.get dest) loc =
        ((s.get dest).specs t).lookup loc := by
      rintro loc rfl
      rw [getInstList_of_type ht]
    have hsel : ∀ loc, loc.type = t → now.Live loc →
        selected s specifier tagSet exactP loc = [] := by
      rintro loc rfl hlive
      exact selected_of_not_mem ht hlive (by rw [hnil]; exact not_mem_nil)
    rw [copiedSpecs, hlast, elim_none]
    constructor
    · intro h
      refine ⟨fun _ loc hloc hlive => ?_, fun loc hmem => ?_, fun loc hl => ?_⟩
      · rw [hold loc hloc, h loc hloc hlive, hsel loc hloc hlive]
      · rw [hnil] at hmem
        cases hmem
      · rw [hlast] at hl
        cases hl
    · intro h loc hloc hlive
      rw [hsel loc hloc hlive, ← hold loc hloc]
      exact h.empty hnil loc hloc hlive
  | some last =>
    have hmem : last ∈ copiedLocales now ((s.get specifier).specs t) :=
      mem_of_getLast? hlast
    have hlastType : last.type = t := by
      obtain ⟨spec, hspec, heq⟩ := List.mem_map.mp (mem_of_mem_filter hmem)
      rw [← heq]
      exact htyped spec hspec
    have hlookup : ∀ (loc : Locale) (v : InstList Tag α),
        (List.lookup loc [(last, v)]).getD [] = if loc = last then v else [] := by
      intro loc v
      split_ifs with hloc
      · rw [hloc, lookup_cons_self, getD_some]
      · rw [List.lookup_cons, beq_false_of_ne hloc]
        rfl
    rw [copiedSpecs, hlast, elim_some]
    simp only [hlookup]
    constructor
    · intro h
      refine ⟨fun hnil => ?_, fun loc hmem hlive hne => ?_, fun loc hl hlive => ?_⟩
      · rw [hnil] at hmem
        cases hmem
      · have hloc : loc.type = t := by
          obtain ⟨spec, hspec, heq⟩ := List.mem_map.mp (mem_of_mem_filter hmem)
          rw [← heq]
          exact htyped spec hspec
        rw [← h loc hloc hlive, if_neg fun heq => hne (by rw [hlast, heq])]
      · rw [hlast, Option.some.injEq] at hl
        subst hl
        have hdone := h last hlastType hlive
        rw [if_pos rfl] at hdone
        split_ifs at hdone with hself
        · rw [processed_nil] at hdone
          rw [← hdone, processed_nil]
          exact ⟨rfl, fun _ _ => rfl⟩
        · rw [← hselected last hlastType] at hdone
          exact ⟨hdone, fun hsame hlen => absurd ⟨decide_eq_true hsame, hlen⟩ hself⟩
    · intro h loc hloc hlive
      split_ifs with heq hself
      · subst heq
        rw [processed_nil, (h.last loc hlast hlive).2 (of_decide_eq_true hself.1) hself.2]
      · subst heq
        rw [← hselected loc hloc, (h.last loc hlast hlive).1]
      · by_cases hmem' : loc ∈ copiedLocales now ((s.get specifier).specs t)
        · refine (h.before loc hmem' hlive fun hl => ?_).symm
          rw [hlast, Option.some.injEq] at hl
          exact heq hl.symm
        · subst hloc
          exact (selected_of_not_mem ht hlive hmem').symm

/-! ## The whole copy -/

/-- The specifiers when a copy begins: a new one is made where DEST is nil. -/
def beforeCopy (s : Specifiers Tag α) (specifier : ℕ) (dest : Option ℕ) : Specifiers Tag α :=
  if dest.isNone then makeSpecifier (s.get specifier).methods s else s

theorem copySpecifier_spec {dest : Option ℕ} {type : Option SpecLocaleType}
    (hsound : Sound ((beforeCopy s specifier dest).get specifier)) :
    copySpecifier types now s specifier dest (type.map fun t => [.type t]) tagSet exactP none =
      some (dest.getD s.count, (beforeCopy s specifier dest).set (dest.getD s.count)
        (copiedSpecifier types now (beforeCopy s specifier dest) specifier (dest.getD s.count)
          (canonicalizeTagSet types.symbolName tagSet) exactP (copiedTypes type))) := by
  have hrun : Runs.after (copySpecifierMapfun types now specifier (dest.getD s.count)
      (canonicalizeTagSet types.symbolName tagSet) exactP none) (beforeCopy s specifier dest)
      ((copiedTypes type).map partOf) = some _ := copyTypes_spec hsound (copiedTypes_nodup type)
  rw [copySpecifier, mapParts_eq, ← beforeCopy, hrun, map_some]

theorem copiedAll_iff (hsound : Sound (s.get specifier)) (ts : List SpecLocaleType) :
    CopiedAll now s (s.set dest (copiedSpecifier types now s specifier dest tagSet exactP ts))
        specifier dest tagSet exactP ts ↔
      ∀ t ∈ ts, Copies types now s specifier dest tagSet exactP t := by
  have hspecs : ∀ t ∈ ts, t ≠ .global →
      (copiedSpecifier types now s specifier dest tagSet exactP ts).specs t =
        copiedSpecs (processed types (s.get dest) dest) tagSet exactP (specifier = dest)
          ((s.get specifier).specs t) ((s.get dest).specs t)
          (copiedLocales now ((s.get specifier).specs t)) :=
    fun t hmem ht => if_pos ⟨hmem, ht⟩
  have hglobal : .global ∈ ts →
      (copiedSpecifier types now s specifier dest tagSet exactP ts).globalSpecs =
        processed types (s.get dest) dest .global (selected s specifier tagSet exactP .global) :=
    fun hmem => if_pos hmem
  have htype : ∀ t, t ≠ .global → ∀ spec ∈ (s.get specifier).specs t, spec.1.type = t :=
    fun t _ spec hspec => (hsound.typed t spec hspec).1
  constructor
  · intro h t hmem
    rw [Copies]
    split_ifs with ht
    · have hmem' : .global ∈ ts := ht ▸ hmem
      have hdone := h.copied .global (.inl rfl) hmem'
      rwa [get_set_self, getInstList_global, getD_some, hglobal hmem'] at hdone
    · refine (copiedSpecs_iff ht (htype t ht)).mp fun loc hloc hlive => ?_
      have hdone := h.copied loc hlive (hloc ▸ hmem)
      rwa [get_set_self, getInstList_of_type (hloc ▸ ht), hloc, hspecs t hmem ht] at hdone
  · intro h
    refine ⟨fun loc hlive hmem => ?_, fun t hmem ht => ?_, fun hmem => ?_⟩
    · have hcopies := h loc.type hmem
      rw [Copies] at hcopies
      split_ifs at hcopies with ht
      · rw [eq_global_of_type ht] at hmem ⊢
        rw [get_set_self, getInstList_global, getD_some, hglobal hmem, hcopies]
      · rw [get_set_self, getInstList_of_type ht, hspecs loc.type hmem ht]
        exact (copiedSpecs_iff ht (htype _ ht)).mpr hcopies loc rfl hlive
    · rw [get_set_self]
      exact if_neg fun h => hmem h.1
    · rw [get_set_self]
      exact if_neg hmem

/-- A specifier with instantiators for `global` and for the buffers `buffers`. -/
def withBuffers (buffers : List ℕ) : Specifiers ℕ ℕ where
  get id :=
    if id = 0 then
      { methods := 0
        magicParent := none
        globalSpecs := [([], 5)]
        specs := fun t =>
          if t = .buffer then buffers.map fun n => (.buffer n, [([0], 7), ([], n)]) else [] }
    else ⟨0, none, [], fun _ => []⟩
  count := 1

end XEmacs.Specifier
