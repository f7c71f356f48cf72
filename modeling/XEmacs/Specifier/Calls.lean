import XEmacs.Specifier.Valid

/-!
# Runs of calls on specifiers

The four functions that change specifiers, for types without the methods `going_to_add` and
`copy_instantiator`. Removing keeps specifiers valid. Adding does if every single addition is
`AddOk`.
-/

namespace XEmacs.Specifier

open List

variable {Tag α : Type*} [DecidableEq Tag] {types : SpecifierTypes Tag α} {now : Moment Tag}
  {s : Specifiers Tag α} {specifier dest : ℕ} {tagSet : List Tag} {exactP : Bool}
  {addMeth : SpecAddMeth}

/-! ## What a call needs -/

section

variable (types now)

/-- The inst-list that is copied for a locale. -/
def selected (s : Specifiers Tag α) (specifier : ℕ) (tagSet : List Tag) (exactP : Bool)
    (locale : Locale) : InstList Tag α :=
  processInstList ((specifierGetInstList (s.get specifier) locale).getD []) tagSet exactP

/-- What `copy_specifier_mapfun` needs for a part. -/
def PartOk (specifier dest : ℕ) (tagSet : List Tag) (exactP : Bool) (addMeth : Option SpecAddMeth)
    (s : Specifiers Tag α) : Part → Prop
  | .type t =>
    Runs.StepsMeet
      (copyRound types now specifier dest tagSet exactP (addMeth.getD .removeLocaleType))
      (fun s loc => now.dropped loc = true ∨
        AddOk (addMeth.getD .removeLocaleType) (s.get dest)
          (loc, processInstList (((s.get specifier).specs loc.type).lookup loc |>.getD []) tagSet
            exactP))
      s (((s.get specifier).specs t).map Prod.fst)
  | .locale loc =>
    AddOk (addMeth.getD .removeLocale) (s.get dest)
      (loc, selected s specifier tagSet exactP loc)

/-- What a call needs to leave valid specifiers: its tag sets keep no equal tags apart, and each of
its additions is fine in the state it comes to. -/
def Call.Ok (s : Specifiers Tag α) : Call Tag α → Prop
  | .addSpec specifier instantiator locale tagSet howToAdd =>
    Distinguished types.symbolName tagSet ∧
      AddOk (decodeHowToAdd howToAdd) (s.get specifier) (locale, [(tagSet, instantiator)])
  | .addSpecList specifier specList howToAdd =>
    Runs.StepsMeet (addSpecIn types now specifier (decodeHowToAdd howToAdd))
      (fun s spec => (∀ pair ∈ spec.2, Distinguished types.symbolName pair.1) ∧
        AddOk (decodeHowToAdd howToAdd) (s.get specifier) spec) s specList
  | .copy specifier dest locale tagSet exactP howToAdd =>
    Runs.StepsMeet
      (copySpecifierMapfun types now specifier (dest.getD s.count)
        (canonicalizeTagSet types.symbolName tagSet) exactP howToAdd)
      (PartOk types now specifier (dest.getD s.count)
        (canonicalizeTagSet types.symbolName tagSet) exactP howToAdd)
      (if dest.isNone then makeSpecifier (s.get specifier).methods s else s) (mapParts locale)
  | .remove _ _ _ _ => True

end

/-! ## Additions -/

variable (types) in
/-- All specifiers are valid. -/
def AllValid (s : Specifiers Tag α) : Prop :=
  ∀ specifier, Valid types.symbolName (s.get specifier)

variable (types) in
/-- No type has a method `going_to_add` or `copy_instantiator`. -/
def Plain : Prop := ∀ type, types.methods type = ⟨none, none⟩

theorem processed_plain (hplain : Plain types) {sp : Lisp_Specifier Tag α} {self : ℕ}
    {loc : Locale} {instList : InstList Tag α} : processed types sp self loc instList =
      instList.map fun pair => (canonicalizeTagSet types.symbolName pair.1, pair.2) := by
  rw [processed, hplain, buildUpProcessedList_eq, map_eq_flatMap]
  rfl

omit [DecidableEq Tag] in
theorem AllValid.set (h : AllValid types s) {sp : Lisp_Specifier Tag α}
    (hsp : Valid types.symbolName sp) : AllValid types (s.set specifier sp) := by
  intro id
  by_cases hid : id = specifier
  · rw [hid, Specifiers.set]
    simpa using hsp
  · rw [Specifiers.set]
    simpa [Function.update_of_ne hid] using h id

theorem AllValid.addSpecIn (hplain : Plain types) (h : AllValid types s) {spec : Spec Tag α}
    (hok : AddOk addMeth (s.get specifier) spec)
    (htags : ∀ pair ∈ spec.2, Distinguished types.symbolName pair.1) :
    ∃ s', addSpecIn types now specifier addMeth s spec = some s' ∧ AllValid types s' := by
  have hok' : AddOk addMeth (s.get specifier)
      (spec.1, processed types (s.get specifier) specifier spec.1 spec.2) := by
    refine ⟨hok.1, fun hg => (hok.2 hg).imp_left fun hne => ?_⟩
    rw [processed_plain hplain]
    simpa using hne
  have hcanonical : ∀ pair ∈ processed types (s.get specifier) specifier spec.1 spec.2,
      SortedByName types.symbolName pair.1 ∧ pair.1.Nodup := by
    rw [processed_plain hplain]
    intro pair hpair
    obtain ⟨pair₀, hmem, rfl⟩ := List.mem_map.mp hpair
    exact ⟨(canonical_canonicalizeTagSet _).sorted,
      (nodup_canonicalizeTagSet_iff _).mpr (htags pair₀ hmem)⟩
  obtain ⟨sp', hadd, hvalid⟩ :
      ∃ sp', specifierAddSpec types now (s.get specifier) specifier spec.1 spec.2 addMeth =
        some sp' ∧ Valid types.symbolName sp' := (h specifier).addSpec hok' hcanonical
  exact ⟨s.set specifier sp', by rw [Specifier.addSpecIn, hadd]; rfl, h.set hvalid⟩

omit [DecidableEq Tag] in
theorem Valid.distinguished {sp : Lisp_Specifier Tag α} (h : Valid types.symbolName sp)
    {loc : Locale} {l : InstList Tag α} (hl : Stored sp loc l) {pair : InstPair Tag α}
    (hpair : pair ∈ l) : Distinguished types.symbolName pair.1 := by
  obtain ⟨hsorted, hnodup⟩ := h.canonical loc l hl pair hpair
  have hcanonical : Canonical types.symbolName pair.1 :=
    ⟨hsorted, (List.nodup_iff_pairwise_ne.mp hnodup).isChain⟩
  exact hcanonical.nodup_iff.mp hnodup

theorem Valid.distinguished_selected (h : AllValid types s) {loc : Locale} :
    ∀ pair ∈ selected s specifier tagSet exactP loc,
      Distinguished types.symbolName pair.1 := by
  intro pair hpair
  have hmem := mem_of_mem_filter hpair
  cases hget : specifierGetInstList (s.get specifier) loc with
  | none =>
    rw [hget] at hmem
    cases hmem
  | some l =>
    rw [hget] at hmem
    exact (h specifier).distinguished ((h specifier).toSound.stored_iff.mpr hget) hmem

/-! ## Copying and removing -/

theorem AllValid.copyRound (hplain : Plain types) (h : AllValid types s) {loc : Locale}
    (hok : now.dropped loc = true ∨ AddOk addMeth (s.get dest)
      (loc, processInstList (((s.get specifier).specs loc.type).lookup loc |>.getD []) tagSet
        exactP)) :
    ∃ s', copyRound types now specifier dest tagSet exactP addMeth s loc = some s' ∧
      AllValid types s' := by
  rw [Specifier.copyRound]
  split_ifs with hdropped
  · exact ⟨s, rfl, h⟩
  · refine h.addSpecIn hplain (hok.resolve_left hdropped) fun pair hpair => ?_
    have hmem := mem_of_mem_filter hpair
    cases hlookup : ((s.get specifier).specs loc.type).lookup loc with
    | none =>
      rw [hlookup] at hmem
      cases hmem
    | some l =>
      rw [hlookup] at hmem
      exact (h specifier).distinguished (.inr ⟨_, mem_of_lookup hlookup⟩) hmem

theorem getExternalInstList_of_valid (h : AllValid types s) (loc : Locale) :
    specifierGetExternalInstList (s.get specifier) loc tagSet exactP =
      some (selected s specifier tagSet exactP loc) := by
  rw [specifierGetExternalInstList, selected]
  cases hget : specifierGetInstList (s.get specifier) loc with
  | none => rfl
  | some l =>
    simp only [Option.elim_some, Option.getD_some]
    split_ifs with hempty hg
    · rw [List.isEmpty_iff.mp hempty]
      rfl
    · have hne := (h specifier).filled loc l ((h specifier).toSound.stored_iff.mpr hget) hg
      exact absurd (List.isEmpty_iff.mp hempty) hne
    · rfl

theorem AllValid.copyPart (hplain : Plain types) (h : AllValid types s)
    {addMeth : Option SpecAddMeth} {part : Part}
    (hok : PartOk types now specifier dest tagSet exactP addMeth s part) :
    ∃ s', copySpecifierMapfun types now specifier dest tagSet exactP addMeth s part = some s' ∧
      AllValid types s' := by
  cases part with
  | type t =>
    exact (Runs.Always.of_step (fun _ _ hs hloc => hs.copyRound hplain hloc) h hok).after
  | locale loc =>
    rw [copySpecifierMapfun, specifierCopySpec, getExternalInstList_of_valid h]
    exact h.addSpecIn hplain hok (Valid.distinguished_selected h)

theorem AllValid.removePart (h : AllValid types s) {part : Part}
    (hpart : part ≠ .type .global) :
    ∃ s', removeSpecifierMapfun now specifier tagSet exactP s part = some s' ∧
      AllValid types s' := by
  cases part with
  | type t =>
    have ht : t ≠ .global := fun ht => hpart (ht ▸ rfl)
    have hsome : ∃ sp', specifierRemoveLocaleType now (s.get specifier) t tagSet exactP =
        some sp' := by
      rw [specifierRemoveLocaleType, if_neg ht]
      exact ⟨_, rfl⟩
    obtain ⟨sp', hsp'⟩ := hsome
    have hvalid := (h specifier).shrinks (shrinks_removeLocaleType (h specifier).toSound hsp')
    exact ⟨s.set specifier sp', by rw [removeSpecifierMapfun, hsp']; rfl, h.set hvalid⟩
  | locale loc =>
    exact ⟨_, rfl, h.set ((h specifier).shrinks (shrinks_removeSpec (h specifier).toSound ..))⟩

theorem ne_global_of_mem_mapParts {locale : Option (List LocaleOrType)} {part : Part}
    (h : part ∈ mapParts locale) : part ≠ .type .global := by
  rintro rfl
  obtain ⟨elt, -, helt⟩ := List.mem_flatMap.mp h
  cases elt with
  | all => simp [LocaleOrType.parts] at helt
  | locale loc => simp [LocaleOrType.parts] at helt
  | type t => cases t <;> simp [LocaleOrType.parts] at helt

omit [DecidableEq Tag] in
theorem valid_makeSpecifier (h : AllValid types s) (methods : ℕ) :
    AllValid types (makeSpecifier methods s) := by
  intro id
  by_cases hid : id = s.count
  · have hnew : (makeSpecifier methods s).get id = ⟨methods, none, [], fun _ => []⟩ :=
      hid ▸ Function.update_self ..
    rw [hnew]
    refine ⟨⟨fun _ => nodup_nil, fun _ _ hmem => absurd hmem not_mem_nil⟩, ?_, ?_⟩
    · rintro loc l (⟨rfl, -⟩ | ⟨t, hmem⟩) hg
      · exact absurd rfl hg
      · exact absurd hmem not_mem_nil
    · rintro loc l (⟨-, rfl⟩ | ⟨t, hmem⟩) pair hpair
      · exact absurd hpair not_mem_nil
      · exact absurd hmem not_mem_nil
  · have hold : (makeSpecifier methods s).get id = s.get id := Function.update_of_ne hid ..
    rw [hold]
    exact h id

/-! ## Calls -/

/-- **A call** whose additions are fine completes and leaves valid specifiers. -/
theorem AllValid.run (hplain : Plain types) (h : AllValid types s) {call : Call Tag α}
    (hok : call.Ok types now s) :
    ∃ s', call.run types now s = some s' ∧ AllValid types s' := by
  cases call with
  | addSpec specifier instantiator locale tagSet howToAdd =>
    refine h.addSpecIn hplain hok.2 fun pair hpair => ?_
    rw [List.mem_singleton.mp hpair]
    exact hok.1
  | addSpecList specifier specList howToAdd =>
    exact (Runs.Always.of_step (fun _ _ hs hspec => hs.addSpecIn hplain hspec.2 hspec.1) h
      hok).after
  | copy specifier dest locale tagSet exactP howToAdd =>
    have hmade : AllValid types
        (if dest.isNone then makeSpecifier (s.get specifier).methods s else s) := by
      split_ifs
      · exact valid_makeSpecifier h _
      · exact h
    obtain ⟨s', hs', hvalid⟩ :=
      (Runs.Always.of_step (fun _ _ hs hpart => hs.copyPart hplain hpart) hmade hok).after
    exact ⟨s', by rw [Call.run, copySpecifier, hs']; rfl, hvalid⟩
  | remove specifier locale tagSet exactP =>
    exact (Runs.Always.of_step (fun _ _ hs hpart => hs.removePart hpart) h
      (.of_forall fun _ => ne_global_of_mem_mapParts)).after

/-- **Specifiers stay valid**: in a run of calls on specifiers without the two methods whose
additions are all fine, each call completes, and after it no locale has two specs, none but
`global` an empty inst-list, and every tag set is sorted by name without duplicates. -/
theorem specifiers_stay_valid (hplain : Plain types) (h : AllValid types s)
    {calls : List (Moment Tag × Call Tag α)}
    (hcalls : Runs.StepsMeet (specifierStep types) (fun s call =>
      checkArguments types call.1 s call.2 = true → call.2.Ok types call.1 s) s calls) :
    Runs.Always (specifierStep types) (AllValid types) s calls := by
  refine .of_step (fun s call hs hok => ?_) h hcalls
  rw [specifierStep]
  split_ifs with hcheck
  · exact hs.run hplain (hok hcheck)
  · exact ⟨s, rfl, hs⟩

/-- Tags that are named by one letter each, for specifiers without methods. -/
def plainTypes : SpecifierTypes ℕ ℕ where
  symbolName tag := [tag + 1]
  methods _ := ⟨none, none⟩
  validate _ _ := true

/-- A moment when all objects are live and all tags defined. -/
def allLive : Moment ℕ where
  objectDeadP _ := false
  validSpecifierTagP _ := true
  unlockGhostSpecifiers := false

/-- One specifier, without specs. -/
def oneSpecifier : Specifiers ℕ ℕ where
  get _ := ⟨0, none, [], fun _ => []⟩
  count := 1

theorem oneSpecifier_valid : AllValid plainTypes oneSpecifier := by
  intro id
  refine ⟨⟨fun _ => nodup_nil, fun _ _ hmem => absurd hmem not_mem_nil⟩, ?_, ?_⟩
  · rintro loc l (⟨rfl, -⟩ | ⟨t, hmem⟩) hg
    · exact absurd rfl hg
    · exact absurd hmem not_mem_nil
  · rintro loc l (⟨-, rfl⟩ | ⟨t, hmem⟩) pair hpair
    · exact absurd hpair not_mem_nil
    · exact absurd hmem not_mem_nil

/-- An instantiator for a buffer, and a copy of its specification. -/
theorem copied_buffer_valid :
    Runs.Always (specifierStep plainTypes) (AllValid plainTypes) oneSpecifier
      [(allLive, .addSpec 0 7 (.buffer 1) [0, 1] none),
        (allLive, .copy 0 none (some [.locale (.buffer 1)]) [] false none)] := by
  have hnames : Function.Injective (cString plainTypes.symbolName) := by
    intro a b h
    simpa [cString, plainTypes] using h
  refine specifiers_stay_valid (fun _ => rfl) oneSpecifier_valid ⟨fun _ => ⟨?_, ?_⟩, ?_⟩
  · exact .of_injective hnames _
  · exact ⟨fun _ => Locale.noConfusion, fun _ => .inl (by simp)⟩
  · rintro s ⟨⟩
    refine ⟨fun _ => ⟨⟨fun _ => Locale.noConfusion, fun _ => .inl ?_⟩, fun _ _ => trivial⟩,
      fun _ _ => trivial⟩
    decide

/-- A spec without pairs passes the check of the spec-list, and a copy of it fails the assertion
that only `global` has none; and removing the locale type of `global` fails at once. -/
theorem emptySpec_aborts :
    AllValid plainTypes oneSpecifier ∧
      Runs.after (specifierStep plainTypes) oneSpecifier
        [(allLive, .addSpecList 0 [(.buffer 1, [])] none),
          (allLive, .copy 0 none (some [.locale (.buffer 1)]) [] false none)] = none ∧
      specifierStep plainTypes oneSpecifier
        (allLive, .addSpec 0 7 .global [] (some .removeLocaleType)) = none :=
  ⟨oneSpecifier_valid, by rfl, by rfl⟩

end XEmacs.Specifier
