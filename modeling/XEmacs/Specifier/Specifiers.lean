import XEmacs.Lib.Runs
import XEmacs.Specifier.TagSets

/-!
# Specifiers

A specifier (`specifier.c`) holds instantiators, each with a tag set, for locales: a list of
pairs for the locale `global`, and for each other type of locale a list of specs, a locale with
its list of pairs.
-/

namespace XEmacs.Specifier

variable {Tag α : Type*}

/-! ## The data -/

/-- `enum spec_locale_type`. -/
inductive SpecLocaleType
  | global
  | device
  | frame
  | window
  | buffer
deriving DecidableEq

/-- The locales: the symbol `global`, and objects of four types. -/
inductive Locale
  | global
  | device (n : ℕ)
  | frame (n : ℕ)
  | window (n : ℕ)
  | buffer (n : ℕ)
deriving DecidableEq

/-- `Fspecifier_locale_type_from_locale`, decoded. -/
def Locale.type : Locale → SpecLocaleType
  | global => .global
  | device _ => .device
  | frame _ => .frame
  | window _ => .window
  | buffer _ => .buffer

/-- An inst-pair `(TAG-SET . INSTANTIATOR)`. -/
abbrev InstPair (Tag α : Type*) := List Tag × α

abbrev InstList (Tag α : Type*) := List (InstPair Tag α)

/-- A specification `(LOCALE . INST-LIST)`. -/
abbrev Spec (Tag α : Type*) := Locale × InstList Tag α

abbrev SpecList (Tag α : Type*) := List (Spec Tag α)

/-- `enum spec_add_meth`. -/
inductive SpecAddMeth
  | prepend
  | append
  | removeTagSetPrepend
  | removeTagSetAppend
  | removeLocale
  | removeLocaleType
  | removeAll
deriving DecidableEq

/-- The methods of a type of specifiers that the functions below use; none is a method the type
does not have. `goingToAdd` gives none for t. -/
structure SpecifierMethods (Tag α : Type*) where
  copyInstantiator : Option (α → α)
  goingToAdd : Option (ℕ → Locale → List Tag → α → Option (InstList Tag α))

/-- `struct Lisp_Specifier`: the type, the bodily specifier if this one is a ghost,
`global_specs`, and `device_specs`, `frame_specs`, `window_specs` and `buffer_specs`. -/
structure Lisp_Specifier (Tag α : Type*) where
  methods : ℕ
  magicParent : Option ℕ
  globalSpecs : InstList Tag α
  specs : SpecLocaleType → SpecList Tag α

/-- What stays as it is: the names of symbols, the methods of each type of specifiers, and which
instantiators they accept. -/
structure SpecifierTypes (Tag α : Type*) where
  symbolName : Tag → List ℕ
  methods : ℕ → SpecifierMethods Tag α
  validate : ℕ → α → Bool

/-- What may be different from call to call: the dead objects, the tags that are defined, and
whether ghosts may be modified. -/
structure Moment (Tag : Type*) where
  objectDeadP : Locale → Bool
  validSpecifierTagP : Tag → Bool
  unlockGhostSpecifiers : Bool

/-! ## Inst-lists -/

variable [DecidableEq Tag] (types : SpecifierTypes Tag α) (now : Moment Tag)

/-- `specifier_process_inst_list` in the long form. -/
def processInstList (instList : InstList Tag α) (tagSet : List Tag) (exactP : Bool) :
    InstList Tag α :=
  instList.filter fun pair => tagSetsMatchP tagSet pair.1 exactP

/-- `specifier_process_remove_inst_list`. -/
def processRemoveInstList (instList : InstList Tag α) (tagSet : List Tag) (exactP : Bool) :
    InstList Tag α :=
  instList.filter fun pair => !tagSetsMatchP tagSet pair.1 exactP

/-- `handle_multiple_add_insts`: what is left of the inst-list, and how to add the new one. -/
def handleMultipleAddInsts (instList newList : InstList Tag α) :
    SpecAddMeth → InstList Tag α × SpecAddMeth
  | .removeTagSetAppend => (removeTagSets, .append)
  | .removeTagSetPrepend => (removeTagSets, .prepend)
  | .removeLocale => ([], .prepend)
  | .append => (instList, .append)
  | .prepend | .removeLocaleType | .removeAll => (instList, .prepend)
where
  removeTagSets : InstList Tag α :=
    newList.foldl (fun l new =>
      l.filter fun pair => canonicalizeTagSet types.symbolName new.1 ≠ pair.1) instList

/-- A round of `build_up_processed_list`: what `going_to_add` makes of a pair, canonicalized. -/
def subInstList (meths : SpecifierMethods Tag α) (specifier : ℕ) (locale : Locale)
    (pair : InstPair Tag α) : InstList Tag α :=
  let instantiator := meths.copyInstantiator.elim pair.2 fun copy => copy pair.2
  let subInstList := meths.goingToAdd.bind fun add => add specifier locale pair.1 instantiator
  subInstList.elim [(canonicalizeTagSet types.symbolName pair.1, instantiator)] fun l =>
    l.map fun p => (canonicalizeTagSet types.symbolName p.1, p.2)

/-- `build_up_processed_list`: each round puts its list in front, and the whole is reversed. -/
def buildUpProcessedList (meths : SpecifierMethods Tag α) (specifier : ℕ) (locale : Locale)
    (instList : InstList Tag α) : InstList Tag α :=
  (instList.foldl (fun listToBuildUp pair =>
    subInstList types meths specifier locale pair ++ listToBuildUp) []).reverse

/-! ## Spec-lists -/

variable (sp : Lisp_Specifier Tag α)

/-- `SPECIFIER_GET_SPEC_LIST` as a place to write to. -/
def Lisp_Specifier.setSpecList (type : SpecLocaleType) (specList : SpecList Tag α) :
    Lisp_Specifier Tag α :=
  { sp with specs := Function.update sp.specs type specList }

/-- `specifier_get_inst_list`; none is no inst-list. -/
def specifierGetInstList (locale : Locale) : Option (InstList Tag α) :=
  if locale.type = .global then some sp.globalSpecs
  else (sp.specs locale.type).lookup locale

/-- Writing to the cdr of the spec that `assq_no_quit` finds. -/
def setSpec (locale : Locale) (instList : InstList Tag α) : SpecList Tag α → SpecList Tag α
  | [] => []
  | spec :: rest =>
    if spec.1 = locale then (locale, instList) :: rest else spec :: setSpec locale instList rest

/-- Writing to the inst-list that `specifier_get_inst_list` found. -/
def setInstList (locale : Locale) (instList : InstList Tag α) : Lisp_Specifier Tag α :=
  if locale.type = .global then { sp with globalSpecs := instList }
  else sp.setSpecList locale.type (setSpec locale instList (sp.specs locale.type))

/-- `specifier_get_external_inst_list` in the long form. -/
def specifierGetExternalInstList (locale : Locale) (tagSet : List Tag) (exactP : Bool) :
    Option (InstList Tag α) :=
  (specifierGetInstList sp locale).elim (some []) fun instList =>
    -- nil should only occur in `global`
    if instList.isEmpty then (if locale = .global then some [] else none)
    else some (processInstList instList tagSet exactP)

def specifierNewSpec (locale : Locale) : Option (Lisp_Specifier Tag α) :=
  if locale.type = .global then none
  else some (sp.setSpecList locale.type ((locale, []) :: sp.specs locale.type))

def specifierRemoveSpec (locale : Locale) (tagSet : List Tag) (exactP : Bool) :
    Lisp_Specifier Tag α :=
  if locale.type = .global then
    { sp with globalSpecs := processRemoveInstList sp.globalSpecs tagSet exactP }
  else ((sp.specs locale.type).lookup locale).elim sp fun instList =>
    let left := processRemoveInstList instList tagSet exactP
    if left.isEmpty then
      sp.setSpecList locale.type ((sp.specs locale.type).filter fun spec => spec.1 ≠ locale)
    else setInstList sp locale left

/-- Whether a spec is dropped as dead: dead windows can become alive again. -/
def Moment.dropped (locale : Locale) : Bool :=
  locale.type ≠ .window && now.objectDeadP locale

def specifierRemoveLocaleType (type : SpecLocaleType) (tagSet : List Tag) (exactP : Bool) :
    Option (Lisp_Specifier Tag α) :=
  if type = .global then none
  else some (sp.setSpecList type ((sp.specs type).filterMap fun spec =>
    let left := processRemoveInstList spec.2 tagSet exactP
    if now.dropped spec.1 || left.isEmpty then none else some (spec.1, left)))

/-! ## Adding -/

/-- The add methods that affect other locales. -/
def handleRemoveMeths (type : SpecLocaleType) :
    SpecAddMeth → Option (Lisp_Specifier Tag α)
  | .removeLocaleType => specifierRemoveLocaleType now sp type [] false
  | .removeAll =>
    (specifierRemoveLocaleType now sp .buffer [] false).bind fun sp =>
    (specifierRemoveLocaleType now sp .window [] false).bind fun sp =>
    (specifierRemoveLocaleType now sp .frame [] false).bind fun sp =>
    (specifierRemoveLocaleType now sp .device [] false).map fun sp =>
    specifierRemoveSpec sp .global [] false
  | _ => some sp

/-- `specifier_add_spec` for the specifier `self`. -/
def specifierAddSpec (self : ℕ) (locale : Locale) (instList : InstList Tag α)
    (addMeth : SpecAddMeth) : Option (Lisp_Specifier Tag α) :=
  let new := buildUpProcessedList types (types.methods sp.methods) (sp.magicParent.getD self)
    locale instList
  (handleRemoveMeths now sp locale.type addMeth).bind fun sp =>
    (if (specifierGetInstList sp locale).isNone then specifierNewSpec sp locale
      else some sp).bind fun sp =>
      let orig := handleMultipleAddInsts types ((specifierGetInstList sp locale).getD []) new
        addMeth
      if orig.2 = .prepend then some (setInstList sp locale (new ++ orig.1))
      else if orig.2 = .append then some (setInstList sp locale (orig.1 ++ new))
      else none

/-! ## All specifiers -/

/-- The specifiers; those from `count` on are not made yet. -/
structure Specifiers (Tag α : Type*) where
  get : ℕ → Lisp_Specifier Tag α
  count : ℕ

def Specifiers.set (s : Specifiers Tag α) (specifier : ℕ) (sp : Lisp_Specifier Tag α) :
    Specifiers Tag α :=
  { s with get := Function.update s.get specifier sp }

def makeSpecifier (methods : ℕ) (s : Specifiers Tag α) : Specifiers Tag α where
  get := Function.update s.get s.count ⟨methods, none, [], fun _ => []⟩
  count := s.count + 1

/-- `specifier_add_spec` in place. -/
def addSpecIn (specifier : ℕ) (addMeth : SpecAddMeth) (s : Specifiers Tag α)
    (spec : Spec Tag α) : Option (Specifiers Tag α) :=
  (specifierAddSpec types now (s.get specifier) specifier spec.1 spec.2 addMeth).map
    (s.set specifier)

def specifierCopySpec (specifier dest : ℕ) (tagSet : List Tag) (exactP : Bool)
    (addMeth : SpecAddMeth) (s : Specifiers Tag α) (locale : Locale) :
    Option (Specifiers Tag α) :=
  (specifierGetExternalInstList (s.get specifier) locale tagSet exactP).bind fun instList =>
    addSpecIn types now dest addMeth s (locale, instList)

/-- A round of `specifier_copy_locale_type`, for the spec of a locale that was in the list when the
loop began. Where the specifier is copied to itself, a spec may be out of the list by then; its
inst-list is empty then, as `specifier_remove_locale_type` removes the pairs first. -/
def copyRound (specifier dest : ℕ) (tagSet : List Tag) (exactP : Bool) (addMeth : SpecAddMeth)
    (s : Specifiers Tag α) (locale : Locale) : Option (Specifiers Tag α) :=
  if now.dropped locale then some s
  else
    let instList := (((s.get specifier).specs locale.type).lookup locale).getD []
    addSpecIn types now dest addMeth s (locale, processInstList instList tagSet exactP)

def specifierCopyLocaleType (specifier dest : ℕ) (tagSet : List Tag) (exactP : Bool)
    (addMeth : SpecAddMeth) (s : Specifiers Tag α) (type : SpecLocaleType) :
    Option (Specifiers Tag α) :=
  Runs.after (copyRound types now specifier dest tagSet exactP addMeth) s
    (((s.get specifier).specs type).map Prod.fst)

/-! ## Locale arguments -/

/-- An element of a list of locales: `all`, a locale, or the name of a type of locales. -/
inductive LocaleOrType
  | all
  | locale (loc : Locale)
  | type (t : SpecLocaleType)

/-- What `map_specifier` calls its function for: a locale, or all locales of a type. -/
inductive Part
  | locale (loc : Locale)
  | type (t : SpecLocaleType)
deriving DecidableEq

/-- The calls of `map_specifier` for an element; the symbol `global` is a locale. -/
def LocaleOrType.parts : LocaleOrType → List Part
  | .all => [.type .buffer, .type .window, .type .frame, .type .device, .locale .global]
  | .locale loc => [.locale loc]
  | .type .global => [.locale .global]
  | .type t => [.type t]

/-- `decode_locale_list` and the loop of `map_specifier`; none stands for nil, and a single locale
for a list of one. -/
def mapParts (locale : Option (List LocaleOrType)) : List Part :=
  (locale.getD [.all]).flatMap LocaleOrType.parts

/-- `copy_specifier_mapfun`; no add method stands for nil. -/
def copySpecifierMapfun (specifier dest : ℕ) (tagSet : List Tag) (exactP : Bool)
    (addMeth : Option SpecAddMeth) (s : Specifiers Tag α) : Part → Option (Specifiers Tag α)
  | .type t =>
    specifierCopyLocaleType types now specifier dest tagSet exactP
      (addMeth.getD .removeLocaleType) s t
  | .locale loc =>
    specifierCopySpec types now specifier dest tagSet exactP (addMeth.getD .removeLocale) s loc

def removeSpecifierMapfun (specifier : ℕ) (tagSet : List Tag) (exactP : Bool)
    (s : Specifiers Tag α) : Part → Option (Specifiers Tag α)
  | .type t =>
    (specifierRemoveLocaleType now (s.get specifier) t tagSet exactP).map (s.set specifier)
  | .locale loc =>
    some (s.set specifier (specifierRemoveSpec (s.get specifier) loc tagSet exactP))

/-! ## The Lisp functions -/

/-- `Fvalid_specifier_locale_p`: dead windows are allowed. -/
def Moment.validSpecifierLocaleP (locale : Locale) : Bool := !now.dropped locale

def Moment.validSpecifierTagSetP (tagSet : List Tag) : Bool := tagSet.all now.validSpecifierTagP

/-- `check_valid_locale_or_locale_type` for all elements. -/
def Moment.validLocales (locale : Option (List LocaleOrType)) : Bool :=
  (mapParts locale).all fun part => match part with
    | .locale loc => now.validSpecifierLocaleP loc
    | .type _ => true

/-- `CHECK_SPECIFIER`. -/
def Specifiers.specifierp (s : Specifiers Tag α) (specifier : ℕ) : Bool := specifier < s.count

/-- `check_modifiable_specifier`. -/
def Specifiers.modifiable (s : Specifiers Tag α) (specifier : ℕ) : Bool :=
  s.specifierp specifier &&
    (now.unlockGhostSpecifiers || (s.get specifier).magicParent.isNone)

/-- `check_valid_inst_list`. -/
def validInstList (specifier : ℕ) (s : Specifiers Tag α) (instList : InstList Tag α) : Bool :=
  instList.all fun pair => now.validSpecifierTagSetP pair.1 &&
    types.validate (s.get specifier).methods pair.2

/-- A call of one of the four functions, with its arguments decoded. -/
inductive Call (Tag α : Type*)
  | addSpec (specifier : ℕ) (instantiator : α) (locale : Locale) (tagSet : List Tag)
      (howToAdd : Option SpecAddMeth)
  | addSpecList (specifier : ℕ) (specList : SpecList Tag α)
      (howToAdd : Option SpecAddMeth)
  | copy (specifier : ℕ) (dest : Option ℕ) (locale : Option (List LocaleOrType))
      (tagSet : List Tag) (exactP : Bool) (howToAdd : Option SpecAddMeth)
  | remove (specifier : ℕ) (locale : Option (List LocaleOrType)) (tagSet : List Tag)
      (exactP : Bool)

/-- The argument checks of a call. -/
def checkArguments (s : Specifiers Tag α) : Call Tag α → Bool
  | .addSpec specifier instantiator locale tagSet _ =>
    s.modifiable now specifier && now.validSpecifierLocaleP locale &&
      validInstList types now specifier s [(tagSet, instantiator)]
  | .addSpecList specifier specList _ =>
    s.modifiable now specifier && specList.all fun spec =>
      now.validSpecifierLocaleP spec.1 && validInstList types now specifier s spec.2
  | .copy specifier dest locale tagSet _ _ =>
    s.specifierp specifier && (dest.all fun dest => s.modifiable now dest &&
      (s.get dest).methods == (s.get specifier).methods) &&
      now.validLocales locale && now.validSpecifierTagSetP tagSet
  | .remove specifier locale tagSet _ =>
    s.modifiable now specifier && now.validLocales locale && now.validSpecifierTagSetP tagSet

/-- `decode_how_to_add_specification` for the functions that add. -/
def decodeHowToAdd (howToAdd : Option SpecAddMeth) : SpecAddMeth :=
  howToAdd.getD .removeTagSetPrepend

/-- `Fcopy_specifier`: the destination, and the specifiers afterwards. -/
def copySpecifier (s : Specifiers Tag α) (specifier : ℕ) (dest : Option ℕ)
    (locale : Option (List LocaleOrType)) (tagSet : List Tag) (exactP : Bool)
    (howToAdd : Option SpecAddMeth) : Option (ℕ × Specifiers Tag α) :=
  let made := if dest.isNone then makeSpecifier (s.get specifier).methods s else s
  let dest := dest.getD s.count
  (Runs.after (copySpecifierMapfun types now specifier dest
    (canonicalizeTagSet types.symbolName tagSet) exactP howToAdd) made (mapParts locale)).map
    fun s => (dest, s)

/-- What a call does that passes its checks. -/
def Call.run (s : Specifiers Tag α) : Call Tag α → Option (Specifiers Tag α)
  | .addSpec specifier instantiator locale tagSet howToAdd =>
    addSpecIn types now specifier (decodeHowToAdd howToAdd) s (locale, [(tagSet, instantiator)])
  | .addSpecList specifier specList howToAdd =>
    Runs.after (addSpecIn types now specifier (decodeHowToAdd howToAdd)) s specList
  | .copy specifier dest locale tagSet exactP howToAdd =>
    (copySpecifier types now s specifier dest locale tagSet exactP howToAdd).map Prod.snd
  | .remove specifier locale tagSet exactP =>
    Runs.after (removeSpecifierMapfun now specifier (canonicalizeTagSet types.symbolName tagSet)
      exactP) s (mapParts locale)

/-- A call at a moment; one that does not pass its checks signals an error and changes nothing. -/
def specifierStep (s : Specifiers Tag α) (call : Moment Tag × Call Tag α) :
    Option (Specifiers Tag α) :=
  if checkArguments types call.1 s call.2 then call.2.run types call.1 s else some s

/-! ## Listing and instancing -/

/-- `specifier_spec_list_mapfun`: the specs a locale or a type contributes. Those of dead locales
are not listed. -/
def specListPart (tagSet : List Tag) (exactP : Bool) : Part → Option (SpecList Tag α)
  | .type t =>
    if t = .global then none
    else some ((sp.specs t).filterMap fun spec =>
      let instList := processInstList spec.2 tagSet exactP
      if now.dropped spec.1 || instList.isEmpty then none else some (spec.1, instList))
  | .locale loc =>
    (specifierGetExternalInstList sp loc tagSet exactP).map fun instList =>
      if instList.isEmpty then [] else [(loc, instList)]

def specifierSpecList (locale : Option (List LocaleOrType)) (tagSet : List Tag) (exactP : Bool) :
    Option (SpecList Tag α) :=
  ((mapParts locale).mapM (specListPart now sp (canonicalizeTagSet types.symbolName tagSet)
    exactP)).map List.flatten

/-- What `device_matches_specifier_tag_set_p` reads of a device. -/
structure Device (Tag : Type*) where
  type : Tag
  class_ : Tag
  userDefinedTags : List (Tag × Bool)

/-- `device_matches_specifier_tag_set_p`. -/
def deviceMatchesTagSetP (device : Device Tag) : List Tag → Bool
  | [] => true
  | tag :: rest =>
    if tag = device.type ∨ tag = device.class_ then deviceMatchesTagSetP device rest
    else if device.userDefinedTags.lookup tag = some true then deviceMatchesTagSetP device rest
    else false

/-- `specifier_instance_from_inst_list`; none is `Qunbound`. Without a method `instantiate` the
instantiator is its own instance. -/
def specifierInstanceFromInstList (instantiate : Option (α → Option α)) (device : Device Tag) :
    InstList Tag α → Option α
  | [] => none
  | pair :: rest =>
    if deviceMatchesTagSetP device pair.1 then
      match instantiate.elim (some pair.2) fun f => f pair.2 with
      | some val => some val
      | none => specifierInstanceFromInstList instantiate device rest
    else specifierInstanceFromInstList instantiate device rest

end XEmacs.Specifier
