import XEmacs.Variables.BufferLocal

/-!
# The cache of a buffer-local variable

What a variable with values in the buffers stands for is a `Model`: a default, and for each
buffer a local value or none. The newest of these values may be in the cache only
(`PerBuffer.model`).
-/

namespace XEmacs.Variables

open List Function Option

/-- One default, and in each buffer a local value or none. -/
@[ext]
structure Model (V B : Type*) where
  automatic : Bool
  default : Option V
  locals : B → Option (Option V)
  currentBuffer : B

namespace Model

variable {V B : Type*} [DecidableEq B] (m : Model V B)

omit [DecidableEq B] in
/-- The value seen in a buffer. -/
def seen (b : B) : Option V := (m.locals b).getD m.default

/-- The local value of the current buffer becomes `value`. -/
def setLocal (value : Option (Option V)) : Model V B :=
  { m with locals := Function.update m.locals m.currentBuffer value }

/-- Assignment to the variable. -/
def set (value : Option V) : Model V B :=
  if (m.locals m.currentBuffer).isSome ∨ m.automatic then m.setLocal (some value)
  else { m with default := value }

/-- The current buffer gets a local value, if it has none. -/
def makeLocalVariable (nil : V) : Model V B :=
  if (m.locals m.currentBuffer).isSome then m else m.setLocal (some (some (m.default.getD nil)))

end Model

namespace PerBuffer

variable {V B : Type*} {s : PerBuffer V B} {b buf : B} {e : Nat}

/-- The value of an alist element, which may be in the cache. -/
def elementValue (s : PerBuffer V B) (e : Nat) : Option V :=
  if s.currentAlistElement = some e then s.currentValue else s.cdr e

/-- What the variable stands for. -/
def model (s : PerBuffer V B) : Model V B where
  automatic := s.automatic
  default := s.getDefault
  locals b := (s.localVarAlist b).head?.map s.elementValue
  currentBuffer := s.currentBuffer

/-- Each buffer has at most one element, and its own; the cache is for the element of its buffer,
and when it is for none it holds the default. -/
structure Consistent (s : PerBuffer V B) : Prop where
  single (b : B) : s.localVarAlist b = [] ∨ ∃ e, s.localVarAlist b = [e]
  apart {b b' : B} {e : Nat} : e ∈ s.localVarAlist b → e ∈ s.localVarAlist b' → b = b'
  lt {b : B} {e : Nat} : e ∈ s.localVarAlist b → e < s.consCount
  cached {b : B} : s.cacheBuffer = some b →
    s.currentAlistElement = (s.localVarAlist b).head?
  idle : s.cacheBuffer = none → s.currentAlistElement = none ∧ s.currentValue = s.defaultValue

/-- The cache holds nothing that is newer than what it is for. -/
def Clean (s : PerBuffer V B) : Prop :=
  match s.currentAlistElement with
  | none => s.currentValue = s.defaultValue
  | some e => s.currentValue = s.cdr e

instance [DecidableEq V] (s : PerBuffer V B) : Decidable s.Clean :=
  match h : s.currentAlistElement with
  | none => decidable_of_iff (s.currentValue = s.defaultValue) (by rw [Clean, h])
  | some e => decidable_of_iff (s.currentValue = s.cdr e) (by rw [Clean, h])

theorem Clean.getDefault (h : s.Clean) : s.getDefault = s.defaultValue := by
  unfold Clean at h
  unfold PerBuffer.getDefault
  split
  · rename_i hnone
    rw [hnone] at h
    exact h
  · rfl

theorem Clean.elementValue (h : s.Clean) (e : Nat) : s.elementValue e = s.cdr e := by
  unfold PerBuffer.elementValue
  split
  · rename_i hsome
    unfold Clean at h
    rw [hsome] at h
    exact h
  · rfl

theorem model_congr {s' : PerBuffer V B} (hauto : s'.automatic = s.automatic)
    (hdefault : s'.getDefault = s.getDefault) (hvalues : s'.elementValue = s.elementValue)
    (halist : s'.localVarAlist = s.localVarAlist) (hbuf : s'.currentBuffer = s.currentBuffer) :
    s'.model = s.model := by
  rw [model, model, hauto, hdefault, hvalues, halist, hbuf]

theorem Clean.model (h : s.Clean) : s.model =
    { automatic := s.automatic, default := s.defaultValue
      locals := fun b => (s.localVarAlist b).head?.map s.cdr
      currentBuffer := s.currentBuffer } := by
  have hvalues : s.elementValue = s.cdr := funext h.elementValue
  rw [PerBuffer.model, h.getDefault, hvalues]

theorem Clean.model_eq {s' : PerBuffer V B} (h : s.Clean) (h' : s'.Clean)
    (hauto : s'.automatic = s.automatic) (hdefault : s'.defaultValue = s.defaultValue)
    (hcdr : s'.cdr = s.cdr) (halist : s'.localVarAlist = s.localVarAlist)
    (hbuf : s'.currentBuffer = s.currentBuffer) : s'.model = s.model := by
  rw [h.model, h'.model, hauto, hdefault, hcdr, halist, hbuf]

theorem Consistent.head_ne (h : s.Consistent) {b' : B} (he : (s.localVarAlist b).head? = some e)
    (hne : b' ≠ b) : (s.localVarAlist b').head? ≠ some e := by
  intro he'
  exact hne (h.apart (mem_of_head? he') (mem_of_head? he))

theorem Consistent.seen_cached (h : s.Consistent) (hb : s.cacheBuffer = some b) :
    s.model.seen b = s.currentValue := by
  have hcached := h.cached hb
  rw [Model.seen, model]
  simp only [← hcached]
  cases helt : s.currentAlistElement with
  | none => simp only [map_none, getD_none, getDefault, helt]
  | some e => simp only [map_some, getD_some, elementValue, helt, if_true]

/-! ### Writing out and setting up -/

theorem model_writeOut (s : PerBuffer V B) : s.writeOutBufferLocalCache.model = s.model := by
  unfold writeOutBufferLocalCache
  split
  · rfl
  · split
    · rename_i helt
      have hvalues : ({ s with defaultValue := s.currentValue } : PerBuffer V B).elementValue
          = s.elementValue := rfl
      exact model_congr rfl (by simp only [getDefault, helt]) hvalues rfl rfl
    · rename_i e helt
      have hvalues : ({ s with cdr := Function.update s.cdr e s.currentValue } :
          PerBuffer V B).elementValue = s.elementValue := by
        funext e'
        simp only [elementValue, helt, Option.some.injEq]
        split
        · rfl
        · rename_i hne
          exact update_of_ne (Ne.symm hne) _ _
      exact model_congr rfl (by simp only [getDefault, helt]) hvalues rfl rfl

theorem Consistent.writeOut (h : s.Consistent) :
    s.writeOutBufferLocalCache.Consistent ∧ s.writeOutBufferLocalCache.Clean := by
  unfold writeOutBufferLocalCache
  split
  · rename_i hnone
    obtain ⟨helt, hvalue⟩ := h.idle hnone
    refine ⟨h, ?_⟩
    simp only [Clean, helt]
    exact hvalue
  · rename_i b hcache
    split
    · rename_i helt
      constructor
      · exact ⟨h.single, h.apart, h.lt, h.cached, fun hnone => by
          rw [hcache] at hnone
          cases hnone⟩
      · simp only [Clean, helt]
    · rename_i e helt
      constructor
      · exact ⟨h.single, h.apart, h.lt, h.cached, fun hnone => by
          rw [hcache] at hnone
          cases hnone⟩
      · simp only [Clean, helt, update_self]

theorem writeOut_frame (s : PerBuffer V B) :
    s.writeOutBufferLocalCache.automatic = s.automatic ∧
      s.writeOutBufferLocalCache.cacheBuffer = s.cacheBuffer ∧
      s.writeOutBufferLocalCache.localVarAlist = s.localVarAlist ∧
      s.writeOutBufferLocalCache.consCount = s.consCount ∧
      s.writeOutBufferLocalCache.currentBuffer = s.currentBuffer := by
  unfold writeOutBufferLocalCache
  split
  · exact ⟨rfl, rfl, rfl, rfl, rfl⟩
  · split
    · exact ⟨rfl, rfl, rfl, rfl, rfl⟩
    · exact ⟨rfl, rfl, rfl, rfl, rfl⟩

/-- The cache set up for a buffer, with the value from its place. -/
def recached (s : PerBuffer V B) (buf : B) : PerBuffer V B :=
  { s with
    currentAlistElement := (s.localVarAlist buf).head?, cacheBuffer := some buf
    currentValue := match (s.localVarAlist buf).head? with
      | none => s.defaultValue
      | some e => s.cdr e }

theorem clean_recached (s : PerBuffer V B) (buf : B) : (s.recached buf).Clean := by
  cases hhead : (s.localVarAlist buf).head? with
  | none => simp only [Clean, recached, hhead]
  | some e => simp only [Clean, recached, hhead]

theorem consistent_recached (hsingle : ∀ b, s.localVarAlist b = [] ∨ ∃ e, s.localVarAlist b = [e])
    (hapart : ∀ {b b' e}, e ∈ s.localVarAlist b → e ∈ s.localVarAlist b' → b = b')
    (hlt : ∀ {b e}, e ∈ s.localVarAlist b → e < s.consCount) (buf : B) :
    (s.recached buf).Consistent where
  single := hsingle
  apart := hapart
  lt := hlt
  cached hb := by
    obtain rfl := Option.some.inj hb
    rfl
  idle hnone := by cases hnone

theorem Clean.model_recached (h : s.Clean) (buf : B) : (s.recached buf).model = s.model :=
  h.model_eq (clean_recached s buf) rfl rfl rfl rfl rfl

variable [DecidableEq B]

theorem Consistent.bufferLocalAlistElement (h : s.Consistent) (b : B) :
    s.bufferLocalAlistElement b = (s.localVarAlist b).head? := by
  unfold PerBuffer.bufferLocalAlistElement
  split
  · rename_i hb
    exact h.cached hb
  · rfl

theorem Consistent.setUp (h : s.Consistent) {newAlistEl : Option Nat} {setItP : Bool}
    (hnew : newAlistEl = (s.localVarAlist buf).head? ∨ newAlistEl = none ∧ setItP = true) :
    s.setUpBufferLocalCache buf newAlistEl setItP
      = if s.cacheBuffer = some buf then s else s.writeOutBufferLocalCache.recached buf := by
  unfold setUpBufferLocalCache
  split
  · rfl
  · rename_i hb
    obtain ⟨hconsistent, -⟩ := h.writeOut
    obtain ⟨-, -, halist, -, -⟩ := writeOut_frame s
    have helement : s.writeOutBufferLocalCache.bufferLocalAlistElement buf
        = (s.localVarAlist buf).head? := by
      rw [hconsistent.bufferLocalAlistElement, halist]
    obtain rfl | ⟨rfl, rfl⟩ := hnew
    · cases hhead : (s.localVarAlist buf).head? with
      | none => simp only [recached, helement, halist, hhead, ite_self]
      | some e => simp only [recached, halist, hhead]
    · cases hhead : (s.localVarAlist buf).head? with
      | none => simp only [recached, helement, halist, hhead, if_true]
      | some e => simp only [recached, helement, halist, hhead, if_true]

theorem Consistent.setUp_spec (h : s.Consistent) (buf : B) {newAlistEl : Option Nat}
    {setItP : Bool} (hnew : newAlistEl = (s.localVarAlist buf).head? ∨
      newAlistEl = none ∧ setItP = true) :
    (s.setUpBufferLocalCache buf newAlistEl setItP).Consistent ∧
      (s.setUpBufferLocalCache buf newAlistEl setItP).model = s.model ∧
      (s.setUpBufferLocalCache buf newAlistEl setItP).cacheBuffer = some buf ∧
      (s.setUpBufferLocalCache buf newAlistEl setItP).localVarAlist = s.localVarAlist := by
  rw [h.setUp hnew]
  split
  · rename_i hb
    exact ⟨h, rfl, hb, rfl⟩
  · obtain ⟨hconsistent, hclean⟩ := h.writeOut
    refine ⟨consistent_recached hconsistent.single hconsistent.apart hconsistent.lt buf, ?_, rfl,
      (writeOut_frame s).2.2.1⟩
    rw [hclean.model_recached, model_writeOut]

/-! ### The operations -/

omit [DecidableEq B] in
theorem Consistent.setCurrentValue (h : s.Consistent) (hcache : s.cacheBuffer ≠ none)
    (value : Option V) : ({ s with currentValue := value } : PerBuffer V B).Consistent where
  single := h.single
  apart := h.apart
  lt := h.lt
  cached := h.cached
  idle hnone := absurd hnone hcache

theorem Consistent.model_setCurrentValue (h : s.Consistent)
    (hcache : s.cacheBuffer = some s.currentBuffer) (value : Option V) :
    ({ s with currentValue := value } : PerBuffer V B).model
      = if (s.model.locals s.currentBuffer).isSome then s.model.setLocal (some value)
        else { s.model with default := value } := by
  have hcached := h.cached hcache
  obtain helt | ⟨e, helt⟩ := eq_none_or_eq_some s.currentAlistElement
  · rw [helt] at hcached
    have hlocal : s.model.locals s.currentBuffer = none := by
      simp only [model, ← hcached, map_none]
    have hvalues : ({ s with currentValue := value } : PerBuffer V B).elementValue = s.elementValue := by
      funext e
      simp only [elementValue, helt, if_neg (some_ne_none e).symm]
    rw [hlocal, if_neg (by simp), model, hvalues]
    simp only [model, getDefault, helt]
  · rw [helt] at hcached
    have hlocal : s.model.locals s.currentBuffer = some (s.elementValue e) := by
      simp only [model, ← hcached, map_some]
    rw [hlocal, if_pos isSome_some]
    refine Model.ext rfl ?_ ?_ rfl
    · simp only [model, getDefault, helt, Model.setLocal]
    · funext b
      simp only [model, Model.setLocal]
      by_cases hb : b = s.currentBuffer
      · rw [hb, update_self, ← hcached, map_some]
        simp only [elementValue, helt, if_true]
      · rw [update_of_ne hb]
        -- the element of another buffer is another one
        have hother : ∀ e', (s.localVarAlist b).head? = some e' →
            ({ s with currentValue := value } : PerBuffer V B).elementValue e' = s.elementValue e' := by
          intro e' he'
          have hne : e ≠ e' := by
            rintro rfl
            exact h.head_ne hcached.symm hb he'
          simp only [elementValue, helt, Option.some.injEq, if_neg hne]
        cases hhead : (s.localVarAlist b).head? with
        | none => rfl
        | some e' => rw [map_some, map_some, hother e' hhead]

/-- A new element for the current buffer, with the cache for it. -/
def consCached (s : PerBuffer V B) (value : Option V) : PerBuffer V B :=
  { (s.cons value).2 with
    currentAlistElement := some (s.cons value).1, cacheBuffer := some s.currentBuffer
    currentValue := value }

theorem cons_consistent (h : s.Consistent) (hnone : s.localVarAlist s.currentBuffer = [])
    (value : Option V) :
    (∀ b, (s.cons value).2.localVarAlist b = [] ∨ ∃ e, (s.cons value).2.localVarAlist b = [e]) ∧
      (∀ b b' e, e ∈ (s.cons value).2.localVarAlist b → e ∈ (s.cons value).2.localVarAlist b' →
        b = b') ∧
      ∀ b e, e ∈ (s.cons value).2.localVarAlist b → e < (s.cons value).2.consCount := by
  have hself : (s.cons value).2.localVarAlist s.currentBuffer = [s.consCount] := by
    simp only [cons, update_self, hnone]
  have hother : ∀ b, b ≠ s.currentBuffer → (s.cons value).2.localVarAlist b = s.localVarAlist b :=
    fun b hb => update_of_ne hb _ _
  refine ⟨fun b => ?_, fun b b' e he he' => ?_, fun b e he => ?_⟩
  · by_cases hb : b = s.currentBuffer
    · exact .inr ⟨s.consCount, hb ▸ hself⟩
    · rw [hother b hb]
      exact h.single b
  · by_cases hb : b = s.currentBuffer
    · by_cases hb' : b' = s.currentBuffer
      · rw [hb, hb']
      · rw [hb, hself, mem_singleton] at he
        rw [hother b' hb', he] at he'
        exact absurd (h.lt he') (Nat.lt_irrefl _)
    · rw [hother b hb] at he
      by_cases hb' : b' = s.currentBuffer
      · rw [hb', hself, mem_singleton] at he'
        rw [he'] at he
        exact absurd (h.lt he) (Nat.lt_irrefl _)
      · rw [hother b' hb'] at he'
        exact h.apart he he'
  · by_cases hb : b = s.currentBuffer
    · rw [hb, hself, mem_singleton] at he
      rw [he]
      exact Nat.lt_succ_self _
    · rw [hother b hb] at he
      exact Nat.lt_succ_of_lt (h.lt he)

theorem consistent_consCached (h : s.Consistent) (hnone : s.localVarAlist s.currentBuffer = [])
    (value : Option V) : (s.consCached value).Consistent := by
  obtain ⟨hsingle, hapart, hlt⟩ := cons_consistent h hnone value
  refine ⟨hsingle, fun he he' => hapart _ _ _ he he', fun he => hlt _ _ he, fun hb => ?_,
    fun hnone => ?_⟩
  · obtain rfl := Option.some.inj hb
    simp only [consCached, cons, update_self, head?_cons]
  · cases hnone

theorem Clean.model_consCached (hclean : s.Clean) (h : s.Consistent)
    (value : Option V) : (s.consCached value).model = s.model.setLocal (some value) := by
  have hclean' : (s.consCached value).Clean := by
    simp only [Clean, consCached, cons, update_self]
  rw [hclean'.model, hclean.model]
  refine Model.ext rfl rfl ?_ rfl
  funext b
  simp only [Model.setLocal, consCached, cons]
  by_cases hb : b = s.currentBuffer
  · rw [hb, update_self, update_self, head?_cons, map_some,
      update_self]
  · rw [update_of_ne hb, update_of_ne hb]
    cases hhead : (s.localVarAlist b).head? with
    | none => rfl
    | some e =>
      rw [map_some, map_some,
        update_of_ne (Nat.ne_of_lt (h.lt (mem_of_head? hhead)))]

omit [DecidableEq B] in
theorem isSome_locals (s : PerBuffer V B) (b : B) :
    (s.model.locals b).isSome = true ↔ (s.localVarAlist b).head?.isSome = true := by
  simp only [model, isSome_map]

omit [DecidableEq B] in
theorem locals_eq_none {s : PerBuffer V B} {b : B} :
    s.model.locals b = none ↔ s.localVarAlist b = [] := by
  rw [← head?_eq_none_iff]
  exact map_eq_none_iff

theorem Consistent.fset_eq (h : s.Consistent) (newval : Option V) :
    ∃ t : PerBuffer V B, s.fset newval = { t with currentValue := newval } ∧ t.Consistent ∧
      t.cacheBuffer = some t.currentBuffer ∧ t.currentBuffer = s.currentBuffer ∧
      ((t.model = s.model ∧
          ((s.model.locals s.currentBuffer).isSome = true ∨ s.automatic = false)) ∨
        (∃ value, t.model = s.model.setLocal (some value)) ∧ s.automatic = true) := by
  obtain ⟨hconsistent, hclean⟩ := h.writeOut
  obtain ⟨hauto, -, halist, -, hbuf⟩ := writeOut_frame s
  have hlocals := isSome_locals s s.currentBuffer
  unfold PerBuffer.fset
  split
  · rename_i hvalid
    obtain ⟨hcache, hlocal⟩ := hvalid
    refine ⟨s, rfl, h, hcache, rfl, .inl ⟨rfl, ?_⟩⟩
    cases hautomatic : s.automatic with
    | false => exact .inr rfl
    | true =>
      left
      rw [hlocals, ← h.cached hcache]
      exact hlocal hautomatic
  · simp only
    rw [hconsistent.bufferLocalAlistElement, halist, hbuf]
    have hrecached : (s.writeOutBufferLocalCache.recached s.currentBuffer).Consistent :=
      consistent_recached hconsistent.single hconsistent.apart hconsistent.lt _
    have hmodel : (s.writeOutBufferLocalCache.recached s.currentBuffer).model = s.model := by
      rw [hclean.model_recached, model_writeOut]
    cases hhead : (s.localVarAlist s.currentBuffer).head? with
    | none =>
      simp only [hauto]
      cases hautomatic : s.automatic with
      | true =>
        refine ⟨s.writeOutBufferLocalCache.consCached s.writeOutBufferLocalCache.currentValue,
          ?_, ?_, rfl, hbuf, .inr ⟨⟨s.writeOutBufferLocalCache.currentValue, ?_⟩, rfl⟩⟩
        · rw [if_pos rfl]
          rfl
        · refine consistent_consCached hconsistent ?_ _
          rw [halist, hbuf]
          exact List.head?_eq_none_iff.mp hhead
        · rw [hclean.model_consCached hconsistent, model_writeOut]
      | false =>
        refine ⟨s.writeOutBufferLocalCache.recached s.currentBuffer, ?_, hrecached,
          congrArg some hbuf.symm, hbuf, .inl ⟨hmodel, .inr rfl⟩⟩
        rw [if_neg Bool.false_ne_true]
        simp only [recached, halist, hhead, hbuf, hauto, hautomatic]
    | some e =>
      refine ⟨s.writeOutBufferLocalCache.recached s.currentBuffer, ?_, hrecached,
        congrArg some hbuf.symm, hbuf, .inl ⟨hmodel, .inl ?_⟩⟩
      · simp only [recached, halist, hhead, hbuf]
      · rw [hlocals, hhead]
        rfl

/-- **Assignment.** -/
theorem Consistent.fset (h : s.Consistent) (newval : Option V) :
    (s.fset newval).Consistent ∧ (s.fset newval).model = s.model.set newval := by
  obtain ⟨t, heq, ht, hcache, hbuf, hmodel⟩ := h.fset_eq newval
  rw [heq]
  refine ⟨ht.setCurrentValue (by rw [hcache]; exact some_ne_none _) newval, ?_⟩
  rw [ht.model_setCurrentValue hcache, hbuf, Model.set]
  obtain ⟨hsame, hkind⟩ | ⟨⟨value, hlocal⟩, hautomatic⟩ := hmodel
  · rw [hsame]
    by_cases hsome : (s.model.locals s.currentBuffer).isSome = true
    · rw [if_pos hsome, if_pos (.inl hsome)]
    · rw [if_neg hsome, if_neg]
      rintro (hin | hin)
      · exact hsome hin
      · rw [show s.model.automatic = false from hkind.resolve_left hsome] at hin
        cases hin
  · have hsome : ((s.model.setLocal (some value)).locals s.currentBuffer).isSome = true := by
      simp only [Model.setLocal, model, update_self, isSome_some]
    have hset : (s.model.locals s.currentBuffer).isSome = true ∨ s.model.automatic = true :=
      .inr hautomatic
    rw [hlocal, if_pos hsome]
    refine Eq.trans ?_ (if_pos hset).symm
    simp only [Model.setLocal, update_idem]

omit [DecidableEq B] in
theorem Consistent.setDefault (h : s.Consistent) (value : V) :
    (s.setDefault value).Consistent ∧
      (s.setDefault value).model = { s.model with default := some value } := by
  unfold PerBuffer.setDefault
  split
  · rename_i helt
    constructor
    · exact ⟨h.single, h.apart, h.lt, h.cached, fun _ => ⟨helt, rfl⟩⟩
    · have hvalues : ({ s with defaultValue := some value, currentValue := some value } :
          PerBuffer V B).elementValue = s.elementValue := by
        funext e
        simp only [elementValue, helt, if_neg (some_ne_none e).symm]
      rw [model, hvalues]
      simp only [model, getDefault, helt]
  · rename_i e helt
    constructor
    · refine ⟨h.single, h.apart, h.lt, h.cached, fun hnone => ?_⟩
      rw [(h.idle hnone).1] at helt
      cases helt
    · have hvalues : ({ s with defaultValue := some value } : PerBuffer V B).elementValue
          = s.elementValue := rfl
      rw [model, hvalues]
      simp only [model, getDefault, helt]

/-- The newest default is in the cache only. -/
def Stale (s : PerBuffer V B) : Prop :=
  s.currentAlistElement = none ∧ s.currentValue ≠ s.defaultValue

omit [DecidableEq B] in
instance [DecidableEq V] (s : PerBuffer V B) : Decidable s.Stale :=
  inferInstanceAs (Decidable (_ ∧ _))

omit [DecidableEq B] in
theorem getDefault_of_not_stale (hstale : ¬ s.Stale) : s.getDefault = s.defaultValue := by
  unfold PerBuffer.getDefault
  split
  · rename_i helt
    by_contra hne
    exact hstale ⟨helt, hne⟩
  · rfl

theorem Consistent.symbolValueInBuffer (h : s.Consistent)
    (hok : ¬ (s.Stale ∧ s.cacheBuffer ≠ some buf ∧ s.localVarAlist buf = [])) :
    s.symbolValueInBuffer buf = s.model.seen buf := by
  unfold PerBuffer.symbolValueInBuffer
  split
  · rename_i hcache
    exact (h.seen_cached hcache).symm
  · rename_i hcache
    cases hhead : (s.localVarAlist buf).head? with
    | none =>
      have hstale : ¬ s.Stale := fun hstale =>
        hok ⟨hstale, hcache, List.head?_eq_none_iff.mp hhead⟩
      simp only [Model.seen, model, hhead, map_none, getD_none]
      exact (getDefault_of_not_stale hstale).symm
    | some e =>
      have hne : s.currentAlistElement ≠ some e := by
        intro helt
        cases hb : s.cacheBuffer with
        | none =>
          rw [(h.idle hb).1] at helt
          cases helt
        | some b =>
          rw [h.cached hb] at helt
          have hbb := h.apart (mem_of_head? helt) (mem_of_head? hhead)
          exact hcache (hb.trans (congrArg some hbb))
      simp only [Model.seen, model, hhead, map_some, getD_some, elementValue,
        if_neg hne]

/-- A local value for the current buffer, which has none. -/
theorem Consistent.makeLocal (h : s.Consistent) (nil : V)
    (hnone : s.localVarAlist s.currentBuffer = []) (hstale : ¬ s.Stale)
    (hvoid : s.defaultValue = none → s.Clean) :
    (s.makeLocal nil).Consistent ∧
      (s.makeLocal nil).model = s.model.setLocal (some (some (s.model.default.getD nil))) := by
  have hdefault : s.model.default = s.defaultValue := getDefault_of_not_stale hstale
  rw [hdefault]
  unfold PerBuffer.makeLocal
  split
  · rename_i hunbound
    have hclean := hvoid hunbound
    rw [hunbound]
    exact ⟨consistent_consCached h hnone (some nil), hclean.model_consCached h (some nil)⟩
  · rename_i value hbound
    rw [hbound]
    simp only
    obtain ⟨hsingle, hapart, hlt⟩ := cons_consistent h hnone (some value)
    have hself : (s.cons (some value)).2.localVarAlist s.currentBuffer = [s.consCount] := by
      simp only [cons, update_self, hnone]
    have hother : ∀ b, b ≠ s.currentBuffer →
        (s.cons (some value)).2.localVarAlist b = s.localVarAlist b :=
      fun b hb => update_of_ne hb _ _
    -- the values are those of before, and the new one
    have hmodel : (s.cons (some value)).2.model = s.model.setLocal (some (some value)) := by
      refine Model.ext rfl rfl ?_ rfl
      funext b
      simp only [model, Model.setLocal]
      have hfresh : ∀ {b}, s.currentAlistElement = some s.consCount → s.cacheBuffer = some b →
          False := by
        intro b helt hb
        rw [h.cached hb] at helt
        exact Nat.lt_irrefl _ (h.lt (mem_of_head? helt))
      have hnew : s.currentAlistElement ≠ some s.consCount := by
        intro helt
        cases hb : s.cacheBuffer with
        | none =>
          rw [(h.idle hb).1] at helt
          cases helt
        | some b => exact hfresh helt hb
      by_cases hb : b = s.currentBuffer
      · rw [hb, hself, update_self, head?_cons, map_some]
        simp only [elementValue, cons, if_neg hnew, update_self]
      · rw [hother b hb, update_of_ne hb]
        cases hhead : (s.localVarAlist b).head? with
        | none => rfl
        | some e =>
          have hne := Nat.ne_of_lt (h.lt (mem_of_head? hhead))
          simp only [map_some, elementValue, cons, update_of_ne hne]
    split
    · rename_i hcache
      have helt : s.currentAlistElement = none := by
        rw [h.cached (show s.cacheBuffer = some s.currentBuffer from hcache), hnone]
        rfl
      have hvalue : s.currentValue = s.defaultValue := by
        by_contra hne
        exact hstale ⟨helt, hne⟩
      refine ⟨⟨hsingle, fun he he' => hapart _ _ _ he he', fun he => hlt _ _ he,
        fun hb => absurd hb (some_ne_none _).symm, fun _ => ⟨helt, hvalue⟩⟩, hmodel⟩
    · rename_i hcache
      refine ⟨⟨hsingle, fun he he' => hapart _ _ _ he he', fun he => hlt _ _ he,
        fun {b} hb => ?_, h.idle⟩, hmodel⟩
      have hne : b ≠ s.currentBuffer := by
        rintro rfl
        exact hcache hb
      rw [hother b hne]
      exact h.cached hb

/-- The state after the current buffer's element has been taken out and the cache for it
discarded. -/
def dropped (s : PerBuffer V B) : PerBuffer V B :=
  let s := { s with localVarAlist := Function.update s.localVarAlist s.currentBuffer [] }
  if s.cacheBuffer = some s.currentBuffer then { s with cacheBuffer := none } else s

theorem dropped_currentBuffer (s : PerBuffer V B) : s.dropped.currentBuffer = s.currentBuffer := by
  unfold dropped
  simp only
  split
  · rfl
  · rfl

/-- Taking out the local value of the current buffer, which has one. -/
theorem Consistent.dropped (h : s.Consistent) (he : s.localVarAlist s.currentBuffer = [e])
    (setItP : Bool) :
    (s.dropped.setUpBufferLocalCache s.currentBuffer none setItP).Consistent ∧
      (s.dropped.setUpBufferLocalCache s.currentBuffer none setItP).model = s.model.setLocal none := by
  have hself : Function.update s.localVarAlist s.currentBuffer [] s.currentBuffer = [] :=
    update_self ..
  have hother : ∀ b, b ≠ s.currentBuffer →
      Function.update s.localVarAlist s.currentBuffer [] b = s.localVarAlist b :=
    fun b hb => update_of_ne hb _ _
  have hmem : ∀ {b e'}, e' ∈ Function.update s.localVarAlist s.currentBuffer [] b →
      b ≠ s.currentBuffer ∧ e' ∈ s.localVarAlist b := by
    intro b e' he'
    by_cases hb : b = s.currentBuffer
    · rw [hb, hself] at he'
      cases he'
    · exact ⟨hb, hother b hb ▸ he'⟩
  have hsingle : ∀ b, Function.update s.localVarAlist s.currentBuffer [] b = [] ∨
      ∃ e', Function.update s.localVarAlist s.currentBuffer [] b = [e'] := by
    intro b
    by_cases hb : b = s.currentBuffer
    · exact .inl (hb ▸ hself)
    · rw [hother b hb]
      exact h.single b
  have hdropped : s.dropped.localVarAlist = Function.update s.localVarAlist s.currentBuffer [] ∧
      s.dropped.consCount = s.consCount := by
    unfold PerBuffer.dropped
    simp only
    split
    · exact ⟨rfl, rfl⟩
    · exact ⟨rfl, rfl⟩
  by_cases hcache : s.cacheBuffer = some s.currentBuffer
  · -- nothing is written out; the default comes from its place
    have helt : s.currentAlistElement = some e := by rw [h.cached hcache, he, head?_cons]
    have heq : s.dropped = { s with
        localVarAlist := Function.update s.localVarAlist s.currentBuffer [], cacheBuffer := none } := by
      simp only [PerBuffer.dropped, hcache, if_true]
    have hsetup : s.dropped.setUpBufferLocalCache s.currentBuffer none setItP
        = s.dropped.recached s.currentBuffer := by
      rw [heq]
      cases setItP with
      | false => simp [setUpBufferLocalCache, writeOutBufferLocalCache, recached]
      | true =>
        simp [setUpBufferLocalCache, writeOutBufferLocalCache, recached,
          PerBuffer.bufferLocalAlistElement]
    rw [hsetup]
    constructor
    · refine consistent_recached ?_ ?_ ?_ _
      · rw [hdropped.1]
        exact hsingle
      · rw [hdropped.1]
        exact fun he he' => h.apart (hmem he).2 (hmem he').2
      · rw [hdropped.1, hdropped.2]
        exact fun he => h.lt (hmem he).2
    · rw [(clean_recached _ _).model, heq]
      refine Model.ext rfl ?_ ?_ rfl
      · simp only [recached, Model.setLocal, model, getDefault, helt]
      · funext b
        simp only [recached, Model.setLocal, model]
        by_cases hb : b = s.currentBuffer
        · rw [hb, hself, update_self, head?_nil, map_none]
        · rw [hother b hb, update_of_ne hb]
          cases hhead : (s.localVarAlist b).head? with
          | none => rfl
          | some e' =>
            have hne : e ≠ e' := by
              rintro rfl
              exact h.head_ne (b := s.currentBuffer) (by rw [he, head?_cons]) hb hhead
            simp only [map_some, elementValue, helt, Option.some.injEq, if_neg hne]
  · have heq : s.dropped = { s with
        localVarAlist := Function.update s.localVarAlist s.currentBuffer [] } := by
      simp only [PerBuffer.dropped, if_neg hcache]
    have hconsistent : s.dropped.Consistent := by
      rw [heq]
      refine ⟨hsingle, fun he he' => h.apart (hmem he).2 (hmem he').2, fun he => h.lt (hmem he).2,
        fun {b} hb => ?_, h.idle⟩
      have hne : b ≠ s.currentBuffer := by
        rintro rfl
        exact hcache hb
      simp only [hother b hne]
      exact h.cached hb
    have hmodel : s.dropped.model = s.model.setLocal none := by
      rw [heq]
      refine Model.ext rfl rfl ?_ rfl
      funext b
      simp only [Model.setLocal, model]
      by_cases hb : b = s.currentBuffer
      · rw [hb, hself, update_self, head?_nil, map_none]
      · rw [hother b hb, update_of_ne hb]
        rfl
    have hnone : none = (s.dropped.localVarAlist s.currentBuffer).head? := by
      rw [hdropped.1, hself, head?_nil]
    obtain ⟨hsetup, hsame, -⟩ := hconsistent.setUp_spec s.currentBuffer (.inl hnone)
    exact ⟨hsetup, hsame.trans hmodel⟩

theorem Consistent.killLocalVariable (h : s.Consistent)
    (hok : s.cacheBuffer = some s.currentBuffer → ¬ s.Stale) :
    s.killLocalVariable.Consistent ∧ s.killLocalVariable.model = s.model.setLocal none := by
  unfold PerBuffer.killLocalVariable
  rw [h.bufferLocalAlistElement]
  obtain hnil | ⟨e, he⟩ := h.single s.currentBuffer
  · have hsame : Function.update s.localVarAlist s.currentBuffer [] = s.localVarAlist := by
      rw [← hnil]
      exact update_eq_self ..
    have hlocal : s.model.setLocal none = s.model := by
      refine Model.ext rfl rfl ?_ rfl
      have hnone : none = s.model.locals s.currentBuffer := by
        simp only [model, hnil, head?_nil, map_none]
      simp only [Model.setLocal]
      rw [hnone]
      exact update_eq_self ..
    rw [hlocal]
    simp only [hnil, head?_nil, hsame]
    split
    · rename_i hcache
      have helt : s.currentAlistElement = none := by rw [h.cached hcache, hnil, head?_nil]
      have hvalue : s.currentValue = s.defaultValue := by
        by_contra hne
        exact hok hcache ⟨helt, hne⟩
      have hidle : ({ s with cacheBuffer := none } : PerBuffer V B).Consistent :=
        ⟨h.single, h.apart, h.lt, fun hb => absurd hb (some_ne_none _).symm,
          fun _ => ⟨helt, hvalue⟩⟩
      obtain ⟨hsetup, hmodel, -⟩ := hidle.setUp_spec s.currentBuffer (.inr ⟨rfl, rfl⟩)
      exact ⟨hsetup, hmodel⟩
    · obtain ⟨hsetup, hmodel, -⟩ := h.setUp_spec s.currentBuffer (.inr ⟨rfl, rfl⟩)
      exact ⟨hsetup, hmodel⟩
  · have hdropped := h.dropped he true
    rw [← dropped_currentBuffer s] at hdropped
    simp only [he, head?_cons]
    rw [filter_cons_of_neg (by simp), filter_nil]
    exact hdropped

theorem Consistent.killBufferLocalVariables (h : s.Consistent) (permanentLocal : Bool) :
    (s.killBufferLocalVariables s.currentBuffer permanentLocal).Consistent ∧
      (s.killBufferLocalVariables s.currentBuffer permanentLocal).model
        = if permanentLocal then s.model else s.model.setLocal none := by
  unfold PerBuffer.killBufferLocalVariables
  obtain hnil | ⟨e, he⟩ := h.single s.currentBuffer
  · rw [hnil, foldl_nil]
    refine ⟨h, ?_⟩
    split
    · rfl
    · refine Model.ext rfl rfl ?_ rfl
      have hnone : none = s.model.locals s.currentBuffer := by
        simp only [model, hnil, head?_nil, map_none]
      simp only [Model.setLocal]
      rw [hnone]
      exact (update_eq_self ..).symm
  · rw [he, foldl_cons, foldl_nil]
    unfold killElement
    split
    · exact ⟨h, rfl⟩
    · have hdropped := h.dropped he false
      simp only [he, erase_cons_head]
      rw [if_pos]
      · exact hdropped
      · exact (dropped_currentBuffer s).symm

theorem Consistent.swapInNew (h : s.Consistent) (b : B) :
    ((s.localVarAlist b).foldl (fun s e => s.setUpBufferLocalCache b (some e) true) s).Consistent ∧
      ((s.localVarAlist b).foldl
        (fun s e => s.setUpBufferLocalCache b (some e) true) s).model = s.model ∧
      (((s.localVarAlist b).foldl
        (fun s e => s.setUpBufferLocalCache b (some e) true) s).localVarAlist b = [] ∨
      ((s.localVarAlist b).foldl
        (fun s e => s.setUpBufferLocalCache b (some e) true) s).cacheBuffer = some b) := by
  obtain hnil | ⟨e, he⟩ := h.single b
  · rw [hnil, foldl_nil]
    exact ⟨h, rfl, .inl hnil⟩
  · have hhead : some e = (s.localVarAlist b).head? := by rw [he, head?_cons]
    rw [he, foldl_cons, foldl_nil]
    obtain ⟨hsetup, hsame, hcache, -⟩ := h.setUp_spec b (.inl hhead)
    exact ⟨hsetup, hsame, .inr hcache⟩

theorem Consistent.swapInOld (h : s.Consistent) (b : B)
    (hready : s.localVarAlist b = [] ∨ s.cacheBuffer = some b) (old : B) :
    ((s.localVarAlist old).foldl (fun s _ => s.setUpBufferLocalCache b none false) s).Consistent ∧
      ((s.localVarAlist old).foldl
        (fun s _ => s.setUpBufferLocalCache b none false) s).model = s.model := by
  obtain hnil | ⟨e, he⟩ := h.single old
  · rw [hnil, foldl_nil]
    exact ⟨h, rfl⟩
  · rw [he, foldl_cons, foldl_nil]
    obtain hnone | hcache := hready
    · have hhead : none = (s.localVarAlist b).head? := by rw [hnone, head?_nil]
      obtain ⟨hsetup, hsame, -⟩ := h.setUp_spec b (.inl hhead)
      exact ⟨hsetup, hsame⟩
    · unfold setUpBufferLocalCache
      rw [if_pos hcache]
      exact ⟨h, rfl⟩

theorem Consistent.setBuffer (h : s.Consistent) (b : B) :
    (s.setBuffer b).Consistent ∧ (s.setBuffer b).model = { s.model with currentBuffer := b } := by
  unfold PerBuffer.setBuffer
  split
  · rename_i hb
    exact ⟨h, by rw [← hb]; rfl⟩
  · have hmoved : ({ s with currentBuffer := b } : PerBuffer V B).Consistent :=
      ⟨h.single, h.apart, h.lt, h.cached, h.idle⟩
    obtain ⟨hnew, hsame, hready⟩ := hmoved.swapInNew b
    obtain ⟨hold, hsame'⟩ := hnew.swapInOld b hready s.currentBuffer
    exact ⟨hold, hsame'.trans hsame⟩

end PerBuffer

end XEmacs.Variables
