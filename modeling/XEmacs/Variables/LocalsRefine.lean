import XEmacs.Variables.Cache
import XEmacs.Lib.Runs

/-!
# Buffer-local variables refine a map

A run of operations on a variable is compared with one on its model: every operation returns what
it returns there, and afterwards the same values are seen in all buffers.
-/

namespace XEmacs.Variables

open Runs Option

variable {V B : Type*} [DecidableEq B]

/-! ### One operation -/

theorem Model.set_seen {m : Model V B} (hauto : m.automatic = true)
    (hbound : m.locals m.currentBuffer = none → m.default ≠ none) (nil : V) :
    m.set (m.seen m.currentBuffer) = m.makeLocalVariable nil := by
  rw [Model.set, if_pos (.inr hauto), Model.makeLocalVariable]
  cases hlocal : m.locals m.currentBuffer with
  | some x =>
    rw [if_pos isSome_some, Model.seen, hlocal, getD_some]
    refine Model.ext rfl rfl ?_ rfl
    simp only [Model.setLocal]
    rw [← hlocal]
    exact Function.update_eq_self ..
  | none =>
    obtain ⟨x, hx⟩ := ne_none_iff_exists'.mp (hbound hlocal)
    rw [isSome_none, if_neg Bool.false_ne_true, Model.seen, hlocal,
      getD_none, hx, getD_some]

theorem Model.setLocal_none {m : Model V B} (hnone : m.locals m.currentBuffer = none) :
    m.setLocal none = m := by
  refine Model.ext rfl rfl ?_ rfl
  simp only [Model.setLocal]
  rw [← hnone]
  exact Function.update_eq_self ..

namespace Variable

omit [DecidableEq B] in
/-- What the variable stands for. -/
def model : Variable V B → Model V B
  | plain value b => ⟨false, value, fun _ => none, b⟩
  | perBuffer s => s.model

omit [DecidableEq B] in
def Consistent : Variable V B → Prop
  | plain _ _ => True
  | perBuffer s => s.Consistent

variable {v : Variable V B}

omit [DecidableEq B] in
theorem model_currentBuffer (v : Variable V B) : v.model.currentBuffer = v.currentBuffer := by
  cases v with
  | plain value b => rfl
  | perBuffer s => rfl

theorem Consistent.fset (h : v.Consistent) (newval : Option V) :
    (v.fset newval).Consistent ∧ (v.fset newval).model = v.model.set newval := by
  cases v with
  | plain value b => exact ⟨trivial, rfl⟩
  | perBuffer s => exact PerBuffer.Consistent.fset h newval

theorem Consistent.findSymbolValue (h : v.Consistent) :
    v.findSymbolValue.1 = v.model.seen v.currentBuffer ∧ v.findSymbolValue.2.Consistent ∧
      v.findSymbolValue.2.model = v.model := by
  cases v with
  | plain value b => exact ⟨rfl, trivial, rfl⟩
  | perBuffer s =>
    have h' : s.Consistent := h
    obtain ⟨hsetup, hsame, hcache, -⟩ := h'.setUp_spec s.currentBuffer (.inr ⟨rfl, rfl⟩)
    refine ⟨?_, hsetup, hsame⟩
    have hseen := hsetup.seen_cached hcache
    rw [hsame] at hseen
    exact hseen.symm

theorem Consistent.setBuffer (h : v.Consistent) (b : B) :
    (v.setBuffer b).Consistent ∧ (v.setBuffer b).model = { v.model with currentBuffer := b } := by
  cases v with
  | plain value old => exact ⟨trivial, rfl⟩
  | perBuffer s => exact PerBuffer.Consistent.setBuffer h b

omit [DecidableEq B] in
theorem getDefault_eq (v : Variable V B) : v.getDefault = v.model.default := by
  cases v with
  | plain value b => rfl
  | perBuffer s => rfl

omit [DecidableEq B] in
theorem alloc_consistent {automatic : Bool} {value value' : Option V} {cache : Option B} {b : B}
    (hidle : cache = none → value' = value) :
    (alloc automatic value value' cache b).Consistent where
  single _ := .inl rfl
  apart he := absurd he List.not_mem_nil
  lt he := absurd he List.not_mem_nil
  cached _ := rfl
  idle hnone := ⟨rfl, hidle hnone⟩

/-- `make-local-variable` loses nothing, and a local value does not start void. -/
def MakesLocal : Variable V B → Prop
  | plain _ _ => True
  | perBuffer s => s.localVarAlist s.currentBuffer = [] →
    if s.automatic then s.getDefault ≠ none
    else ¬ s.Stale ∧ (s.defaultValue = none → s.Clean)

/-- `kill-local-variable` does not discard the default with the cache. -/
def LosesNothing : Variable V B → Prop
  | plain _ _ => True
  | perBuffer s => s.cacheBuffer = some s.currentBuffer → ¬ s.Stale

/-- The value in a buffer is not a default that only the cache of another buffer holds. -/
def FindsDefault (b : B) : Variable V B → Prop
  | plain _ _ => True
  | perBuffer s => ¬ (s.Stale ∧ s.cacheBuffer ≠ some b ∧ s.localVarAlist b = [])

section Decidable

variable [DecidableEq V]

instance (v : Variable V B) : Decidable v.MakesLocal :=
  match v with
  | plain _ _ => isTrue trivial
  | perBuffer s => inferInstanceAs (Decidable (s.localVarAlist s.currentBuffer = [] →
      if s.automatic then s.getDefault ≠ none
      else ¬ s.Stale ∧ (s.defaultValue = none → s.Clean)))

instance (v : Variable V B) : Decidable v.LosesNothing :=
  match v with
  | plain _ _ => isTrue trivial
  | perBuffer s => inferInstanceAs (Decidable (s.cacheBuffer = some s.currentBuffer → ¬ s.Stale))

instance (v : Variable V B) (b : B) : Decidable (v.FindsDefault b) :=
  match v with
  | plain _ _ => isTrue trivial
  | perBuffer s => inferInstanceAs (Decidable
      (¬ (s.Stale ∧ s.cacheBuffer ≠ some b ∧ s.localVarAlist b = [])))

end Decidable

theorem Consistent.makeLocalVariable (h : v.Consistent) (nil : V) (hmeets : v.MakesLocal) :
    (v.makeLocalVariable nil).Consistent ∧
      (v.makeLocalVariable nil).model = v.model.makeLocalVariable nil := by
  cases v with
  | plain value b =>
    have hclean : (alloc false value value none b).Clean := rfl
    refine (alloc_consistent fun _ => rfl).makeLocal nil rfl ?_ fun _ => hclean
    exact fun hstale => hstale.2 rfl
  | perBuffer s =>
    have h' : s.Consistent := h
    have hmeets' : s.localVarAlist s.currentBuffer = [] → if s.automatic then s.getDefault ≠ none
      else ¬ s.Stale ∧ (s.defaultValue = none → s.Clean) := hmeets
    simp only [Variable.makeLocalVariable]
    split
    · rename_i hauto
      rw [if_pos hauto] at hmeets'
      obtain ⟨hvalue, hfound, hsame⟩ := Consistent.findSymbolValue (v := perBuffer s) h
      obtain ⟨hset, hmodel⟩ := PerBuffer.Consistent.fset hfound s.findSymbolValue.1
      have hsame' : s.findSymbolValue.2.model = s.model := hsame
      have hvalue' : s.findSymbolValue.1 = s.model.seen s.currentBuffer := hvalue
      refine ⟨hset, hmodel.trans ?_⟩
      rw [show (s.setUpBufferLocalCache s.currentBuffer none true).model = s.model from hsame',
        hvalue']
      exact Model.set_seen hauto (fun hnone => hmeets' (PerBuffer.locals_eq_none.mp hnone)) nil
    · rename_i hauto
      rw [if_neg hauto] at hmeets'
      rw [h'.bufferLocalAlistElement]
      obtain hempty | ⟨e, he⟩ := h'.single s.currentBuffer
      · have hnone : s.model.locals s.currentBuffer = none := PerBuffer.locals_eq_none.mpr hempty
        obtain ⟨hmade, hmodel⟩ := h'.makeLocal nil hempty (hmeets' hempty).1 (hmeets' hempty).2
        have hmissing : ¬ (s.model.locals s.model.currentBuffer).isSome = true := by
          rw [show s.model.currentBuffer = s.currentBuffer from rfl, hnone]
          exact Bool.false_ne_true
        rw [hempty]
        refine ⟨hmade, ?_⟩
        rw [show (perBuffer s).model = s.model from rfl, Model.makeLocalVariable, if_neg hmissing]
        exact hmodel
      · have hsome : (s.model.locals s.model.currentBuffer).isSome = true := by
          rw [isSome_iff_ne_none]
          intro hnone
          have hempty : s.localVarAlist s.currentBuffer = [] := PerBuffer.locals_eq_none.mp hnone
          rw [hempty] at he
          cases he
        rw [he]
        refine ⟨h, ?_⟩
        rw [show (perBuffer s).model = s.model from rfl, Model.makeLocalVariable, if_pos hsome]
        rfl

theorem Consistent.killLocalVariable (h : v.Consistent)
    (hmeets : v.LosesNothing) :
    v.killLocalVariable.Consistent ∧ v.killLocalVariable.model = v.model.setLocal none := by
  cases v with
  | plain value b => exact ⟨trivial, (Model.setLocal_none rfl).symm⟩
  | perBuffer s => exact PerBuffer.Consistent.killLocalVariable h hmeets

theorem Consistent.killAllLocalVariables (h : v.Consistent) (permanentLocal : Bool) :
    (v.killAllLocalVariables permanentLocal).Consistent ∧
      (v.killAllLocalVariables permanentLocal).model
        = if permanentLocal then v.model else v.model.setLocal none := by
  cases v with
  | plain value b =>
    constructor
    · trivial
    · cases permanentLocal with
      | true => rfl
      | false => exact (Model.setLocal_none rfl).symm
  | perBuffer s => exact PerBuffer.Consistent.killBufferLocalVariables h permanentLocal

omit [DecidableEq B] in
theorem Consistent.makeVariableBufferLocal (h : v.Consistent) (nil : V) :
    (v.makeVariableBufferLocal nil).Consistent ∧
      (v.makeVariableBufferLocal nil).model = { v.model with automatic := true } := by
  cases v with
  | plain value b =>
    constructor
    · exact alloc_consistent fun hnone => by cases hnone
    · rfl
  | perBuffer s =>
    have h' : s.Consistent := h
    constructor
    · exact ⟨h'.single, h'.apart, h'.lt, h'.cached, h'.idle⟩
    · rfl

omit [DecidableEq B] in
theorem Consistent.setDefault (h : v.Consistent) (value : V) :
    (v.setDefault value).Consistent ∧
      (v.setDefault value).model = { v.model with default := some value } := by
  cases v with
  | plain old b => exact ⟨trivial, rfl⟩
  | perBuffer s => exact PerBuffer.Consistent.setDefault h value

theorem Consistent.symbolValueInBuffer (h : v.Consistent) {b : B} (hmeets : v.FindsDefault b) :
    v.symbolValueInBuffer b = v.model.seen b := by
  cases v with
  | plain value old => rfl
  | perBuffer s => exact PerBuffer.Consistent.symbolValueInBuffer h hmeets

end Variable

/-! ### Runs -/

/-- The operations on a variable, and `set-buffer`. -/
inductive VariableOp (V B : Type*) where
  | set (value : V)
  | setDefault (value : V)
  | symbolValue
  | symbolValueInBuffer (b : B)
  | defaultValue
  | makeLocalVariable
  | makeVariableBufferLocal
  | killLocalVariable
  | killAllLocalVariables (permanentLocal : Bool)
  | setBuffer (b : B)

namespace VariableOp

/-- What an operation returns, if it returns a value, and what it makes of the variable. A void
value is `none`: the operation signals an error. -/
def exec (nil : V) : VariableOp V B → Variable V B → Option V × Variable V B
  | set value, v => (some value, v.fset (some value))
  | setDefault value, v => (some value, v.setDefault value)
  | symbolValue, v => v.findSymbolValue
  | symbolValueInBuffer b, v => (v.symbolValueInBuffer b, v)
  | defaultValue, v => (v.getDefault, v)
  | makeLocalVariable, v => (some nil, v.makeLocalVariable nil)
  | makeVariableBufferLocal, v => (some nil, v.makeVariableBufferLocal nil)
  | killLocalVariable, v => (some nil, v.killLocalVariable)
  | killAllLocalVariables permanentLocal, v => (some nil, v.killAllLocalVariables permanentLocal)
  | setBuffer b, v => (some nil, v.setBuffer b)

/-- The same for one default with a local value, or none, for each buffer. -/
def onModel (nil : V) : VariableOp V B → Model V B → Option V × Model V B
  | set value, m => (some value, m.set (some value))
  | setDefault value, m => (some value, { m with default := some value })
  | symbolValue, m => (m.seen m.currentBuffer, m)
  | symbolValueInBuffer b, m => (m.seen b, m)
  | defaultValue, m => (m.default, m)
  | makeLocalVariable, m => (some nil, m.makeLocalVariable nil)
  | makeVariableBufferLocal, m => (some nil, { m with automatic := true })
  | killLocalVariable, m => (some nil, m.setLocal none)
  | killAllLocalVariables permanentLocal, m =>
    (some nil, if permanentLocal then m else m.setLocal none)
  | setBuffer b, m => (some nil, { m with currentBuffer := b })

/-- The operation neither takes the default from where it is not nor discards it. -/
def Meets (v : Variable V B) : VariableOp V B → Prop
  | symbolValueInBuffer b => v.FindsDefault b
  | makeLocalVariable => v.MakesLocal
  | killLocalVariable => v.LosesNothing
  | _ => True

instance [DecidableEq V] (v : Variable V B) (op : VariableOp V B) : Decidable (op.Meets v) :=
  match op with
  | symbolValueInBuffer b => inferInstanceAs (Decidable (v.FindsDefault b))
  | makeLocalVariable => inferInstanceAs (Decidable v.MakesLocal)
  | killLocalVariable => inferInstanceAs (Decidable v.LosesNothing)
  | set _ | setDefault _ | symbolValue | defaultValue | makeVariableBufferLocal
  | killAllLocalVariables _ | setBuffer _ => isTrue trivial

/-- **One operation**: it does to what the variable stands for what it does to the model, and
returns the same. -/
theorem exec_spec {v : Variable V B} (nil : V) (op : VariableOp V B) (h : v.Consistent)
    (hmeets : op.Meets v) :
    (op.exec nil v).2.Consistent ∧ (op.exec nil v).1 = (op.onModel nil v.model).1 ∧
      (op.exec nil v).2.model = (op.onModel nil v.model).2 := by
  cases op with
  | set value =>
    obtain ⟨hset, hmodel⟩ := h.fset (some value)
    exact ⟨hset, rfl, hmodel⟩
  | setDefault value =>
    obtain ⟨hset, hmodel⟩ := h.setDefault value
    exact ⟨hset, rfl, hmodel⟩
  | symbolValue =>
    obtain ⟨hvalue, hfound, hmodel⟩ := h.findSymbolValue
    rw [← v.model_currentBuffer] at hvalue
    exact ⟨hfound, hvalue, hmodel⟩
  | symbolValueInBuffer b => exact ⟨h, h.symbolValueInBuffer hmeets, rfl⟩
  | defaultValue => exact ⟨h, v.getDefault_eq, rfl⟩
  | makeLocalVariable =>
    obtain ⟨hmade, hmodel⟩ := h.makeLocalVariable nil hmeets
    exact ⟨hmade, rfl, hmodel⟩
  | makeVariableBufferLocal =>
    obtain ⟨hmade, hmodel⟩ := h.makeVariableBufferLocal nil
    exact ⟨hmade, rfl, hmodel⟩
  | killLocalVariable =>
    obtain ⟨hkilled, hmodel⟩ := h.killLocalVariable hmeets
    exact ⟨hkilled, rfl, hmodel⟩
  | killAllLocalVariables permanentLocal =>
    obtain ⟨hkilled, hmodel⟩ := h.killAllLocalVariables permanentLocal
    exact ⟨hkilled, rfl, hmodel⟩
  | setBuffer b =>
    obtain ⟨hset, hmodel⟩ := h.setBuffer b
    exact ⟨hset, rfl, hmodel⟩

end VariableOp

/-- A variable and its model, with what the last operation returned on each. -/
structure Compared (V B : Type*) where
  cell : Variable V B
  model : Model V B
  result : Option V
  expected : Option V

namespace Compared

omit [DecidableEq B] in
/-- A variable with at most a global value. -/
def start (value : Option V) (b : B) : Compared V B :=
  ⟨.plain value b, ⟨false, value, fun _ => none, b⟩, none, none⟩

def step (nil : V) (c : Compared V B) (op : VariableOp V B) : Option (Compared V B) :=
  some ⟨(op.exec nil c.cell).2, (op.onModel nil c.model).2, (op.exec nil c.cell).1,
    (op.onModel nil c.model).1⟩

/-- The last operation returned what it does on the model, and the same values are seen in all
buffers and as the default. -/
def AsModel (c : Compared V B) : Prop :=
  c.result = c.expected ∧
    (∀ b, (c.cell.setBuffer b).findSymbolValue.1 = c.model.seen b) ∧
    c.cell.getDefault = c.model.default

/-- What a run keeps: the variable stands for the model. -/
structure Refines (c : Compared V B) : Prop where
  consistent : c.cell.Consistent
  model : c.cell.model = c.model
  result : c.result = c.expected

theorem Refines.asModel {c : Compared V B} (h : c.Refines) : c.AsModel := by
  refine ⟨h.result, fun b => ?_, ?_⟩
  · obtain ⟨hset, hmodel⟩ := h.consistent.setBuffer b
    obtain ⟨hvalue, -⟩ := hset.findSymbolValue
    rw [hvalue, ← Variable.model_currentBuffer, hmodel, h.model]
    rfl
  · rw [Variable.getDefault_eq, h.model]

theorem Refines.step {c : Compared V B} (nil : V) {op : VariableOp V B} (h : c.Refines)
    (hmeets : op.Meets c.cell) : ∃ c', c.step nil op = some c' ∧ c'.Refines := by
  obtain ⟨hconsistent, hresult, hmodel⟩ := op.exec_spec nil h.consistent hmeets
  rw [h.model] at hresult hmodel
  exact ⟨_, rfl, hconsistent, hmodel, hresult⟩

end Compared

/-- **Buffer-local variables refine a map**, in every run in which no operation takes the default
from where it is not, or discards it. -/
theorem locals_refine (nil : V) (value : Option V) (b : B) (l : List (VariableOp V B))
    (hmeets : StepsMeet (Compared.step nil) (fun c op => op.Meets c.cell)
      (Compared.start value b) l) :
    Always (Compared.step nil) Compared.AsModel (Compared.start value b) l := by
  have hstart : (Compared.start value b).Refines := ⟨trivial, rfl, rfl⟩
  refine (Always.of_step (fun c op hc hop => hc.step nil hop) hstart hmeets).imp ?_
  exact fun c hc => hc.asModel

/-- A variable made local in one buffer and changed in another, where it is then made local
too. -/
theorem twoBuffers_refine : Always (Compared.step 0) Compared.AsModel
    (Compared.start (some 1) false)
    [.makeLocalVariable, .set 2, .setBuffer true, .set 5, .symbolValue, .setBuffer false,
      .killLocalVariable, .makeVariableBufferLocal, .symbolValueInBuffer true] :=
  locals_refine 0 (some 1) false _ (by decide)

/-- In a buffer where nothing is local, `kill-local-variable` discards the default with the
cache. -/
theorem locals_not_refine : ¬ Always (Compared.step 0) Compared.AsModel
    (Compared.start (some 1) false)
    [.makeLocalVariable, .setBuffer true, .set 5, .killLocalVariable] := by
  intro h
  rw [← List.append_nil [_, _, _, _]] at h
  obtain ⟨c, hrun, -, -, hdefault⟩ := h.exists_after
  obtain rfl := Option.some.inj hrun
  revert hdefault
  decide

end XEmacs.Variables
