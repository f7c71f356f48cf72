import XEmacs.Variables.LocalsRefine

/-!
# Dynamic binding of a variable (eval.c)

`specbind` pushes a record of what it changes, `unbind_to` undoes the records down to a depth.
-/

namespace XEmacs.Variables

open Runs List Function Option

variable {V B : Type*} [DecidableEq B]

/-- A `struct specbinding` of the variable: `old_value`, and which function undoes it. -/
inductive Specbinding (V B : Type*) where
  /-- `func` is 0 -/
  | value (oldValue : Option V)
  /-- `specbind_unwind_local` -/
  | unwindLocal (buffer : B) (oldValue : Option V)
  /-- `specbind_unwind_wasnt_local` -/
  | unwindWasntLocal (buffer : B)
  deriving DecidableEq

omit [DecidableEq B] in
/-- The record is of a binding of the default, or of a plain variable. -/
def Specbinding.ofDefault : Specbinding V B → Bool
  | value _ => true
  | _ => false

namespace Variable

def specbindMagic (v : Variable V B) (value : V) : Specbinding V B × Variable V B :=
  let current := v.currentBuffer
  let bufferLocal := v.bufferLocalInfo current
  if bufferLocal = 0 then
    let (oldValue, v) := v.findSymbolValue
    (.value oldValue, v.fset (some value))
  else if 0 < bufferLocal then
    let (oldValue, v) := v.findSymbolValue
    (.unwindLocal current oldValue, v.fset (some value))
  else
    (.unwindWasntLocal current, v.fset (some value))

def specbind (v : Variable V B) (value : V) : Specbinding V B × Variable V B :=
  match v with
  | plain oldValue b => (.value oldValue, plain (some value) b)
  | perBuffer s => (perBuffer s).specbindMagic value

/-- `f` in the buffer `buf`, as `specbind_unwind_local` and `specbind_unwind_wasnt_local` do it. -/
def inBuffer (v : Variable V B) (buf : B) (f : Variable V B → Variable V B) : Variable V B :=
  if v.bufferLocalInfo buf = 0 then v
  else if buf = v.currentBuffer then f v
  else (f (v.setBuffer buf)).setBuffer v.currentBuffer

def specbindUnwindLocal (v : Variable V B) (buf : B) (oldValue : Option V) : Variable V B :=
  v.inBuffer buf fun v => v.fset oldValue

def specbindUnwindWasntLocal (v : Variable V B) (buf : B) : Variable V B :=
  v.inBuffer buf killLocalVariable

/-- The body of the loop of `unbind_to_hairy`. -/
def unbind (v : Variable V B) : Specbinding V B → Variable V B
  | .value oldValue =>
    match v with
    | plain _ b => plain oldValue b
    | perBuffer s => (perBuffer s).fset oldValue
  | .unwindLocal buf oldValue => v.specbindUnwindLocal buf oldValue
  | .unwindWasntLocal buf => v.specbindUnwindWasntLocal buf

/-- `unbind_to`, for the records above `count`. -/
def unbindTo (count : Nat) : List (Specbinding V B) → Variable V B →
    List (Specbinding V B) × Variable V B
  | [], v => ([], v)
  | r :: specpdl, v =>
    if (r :: specpdl).length = count then (r :: specpdl, v)
    else unbindTo count specpdl (v.unbind r)

end Variable

/-! ### What undoing is for -/

namespace Model

/-- A record taken back. -/
def undo (m : Model V B) : Specbinding V B → Model V B
  | .value oldValue => { m with default := oldValue }
  | .unwindLocal buf oldValue =>
    { m with locals := Function.update m.locals buf (some oldValue) }
  | .unwindWasntLocal buf => { m with locals := Function.update m.locals buf none }

/-- All records taken back, the last one first. -/
def undoAll (m : Model V B) (specpdl : List (Specbinding V B)) : Model V B :=
  specpdl.foldl undo m

omit [DecidableEq B] in
/-- The kind of the record is one that the variable can have got. -/
def Fits (m : Model V B) : Specbinding V B → Prop
  | .value _ => m.automatic = false
  | .unwindLocal buf _ => (m.locals buf).isSome
  | .unwindWasntLocal buf => m.automatic ∧ (m.locals buf).isSome

/-- Every record fits where it is taken back. -/
def Undoable : Model V B → List (Specbinding V B) → Prop
  | _, [] => True
  | m, r :: specpdl => m.Fits r ∧ (m.undo r).Undoable specpdl

variable {m : Model V B} {b : B} {r : Specbinding V B}

omit [DecidableEq B] in
theorem fits_inBuffer : ({ m with currentBuffer := b } : Model V B).Fits r ↔ m.Fits r := by
  cases r with
  | value oldValue => exact Iff.rfl
  | unwindLocal buf oldValue => exact Iff.rfl
  | unwindWasntLocal buf => exact Iff.rfl

theorem undo_inBuffer :
    ({ m with currentBuffer := b } : Model V B).undo r = { m.undo r with currentBuffer := b } := by
  cases r with
  | value oldValue => rfl
  | unwindLocal buf oldValue => rfl
  | unwindWasntLocal buf => rfl

theorem undoAll_inBuffer (specpdl : List (Specbinding V B)) :
    ({ m with currentBuffer := b } : Model V B).undoAll specpdl
      = { m.undoAll specpdl with currentBuffer := b } := by
  induction specpdl generalizing m with
  | nil => rfl
  | cons r specpdl ih =>
    simp only [undoAll, foldl_cons] at ih ⊢
    rw [undo_inBuffer, ih]

theorem undoable_inBuffer (specpdl : List (Specbinding V B)) :
    ({ m with currentBuffer := b } : Model V B).Undoable specpdl ↔ m.Undoable specpdl := by
  induction specpdl generalizing m with
  | nil => exact Iff.rfl
  | cons r specpdl ih => rw [Undoable, Undoable, fits_inBuffer, undo_inBuffer, ih]

theorem Fits.undo_locals (h : m.Fits r) (hnone : m.locals b = none) :
    (m.undo r).locals b = none := by
  have hother : ∀ {buf}, (m.locals buf).isSome = true → b ≠ buf := by
    rintro buf hsome rfl
    rw [hnone] at hsome
    cases hsome
  cases r with
  | value oldValue => exact hnone
  | unwindLocal buf oldValue =>
    refine (update_of_ne (hother ?_) _ _).trans hnone
    exact h
  | unwindWasntLocal buf => exact (update_of_ne (hother h.2) _ _).trans hnone

/-- The record that a binding in the current buffer is to leave. -/
def binding (m : Model V B) : Specbinding V B :=
  if (m.locals m.currentBuffer).isSome then .unwindLocal m.currentBuffer (m.seen m.currentBuffer)
  else if m.automatic then .unwindWasntLocal m.currentBuffer
  else .value (m.seen m.currentBuffer)

theorem undo_currentBuffer (m : Model V B) (r : Specbinding V B) :
    (m.undo r).currentBuffer = m.currentBuffer := by
  cases r with
  | value oldValue => rfl
  | unwindLocal buf oldValue => rfl
  | unwindWasntLocal buf => rfl

theorem undoAll_currentBuffer (m : Model V B) (specpdl : List (Specbinding V B)) :
    (m.undoAll specpdl).currentBuffer = m.currentBuffer := by
  induction specpdl generalizing m with
  | nil => rfl
  | cons r specpdl ih => exact (ih (m.undo r)).trans (m.undo_currentBuffer r)

theorem set_currentBuffer (m : Model V B) (value : Option V) :
    (m.set value).currentBuffer = m.currentBuffer := by
  unfold Model.set
  split
  · rfl
  · rfl

theorem setLocal_undo {x y : Option (Option V)} (hlocal : m.locals m.currentBuffer = x) :
    { m.setLocal y with
      locals := Function.update (m.setLocal y).locals m.currentBuffer x } = m := by
  refine Model.ext rfl rfl ?_ rfl
  simp only [setLocal, update_idem]
  rw [← hlocal]
  exact update_eq_self ..

theorem isSome_setLocal (m : Model V B) (x : Option V) :
    ((m.setLocal (some x)).locals m.currentBuffer).isSome = true := by
  simp only [setLocal, update_self, isSome_some]

theorem undo_binding (m : Model V B) (value : Option V) :
    (m.set value).Fits m.binding ∧ (m.set value).undo m.binding = m := by
  unfold binding Model.set
  cases hlocal : m.locals m.currentBuffer with
  | some x =>
    rw [if_pos (.inl isSome_some), if_pos isSome_some]
    constructor
    · exact m.isSome_setLocal value
    · rw [Model.seen, hlocal, getD_some]
      exact setLocal_undo hlocal
  | none =>
    rw [isSome_none]
    cases hauto : m.automatic with
    | true =>
      rw [if_pos (.inr rfl), if_neg Bool.false_ne_true, if_pos rfl]
      constructor
      · exact ⟨hauto, m.isSome_setLocal value⟩
      · exact setLocal_undo hlocal
    | false =>
      rw [if_neg (by simp), if_neg Bool.false_ne_true, if_neg Bool.false_ne_true, Model.seen, hlocal,
        getD_none]
      constructor
      · rfl
      · exact Model.ext hauto.symm rfl rfl rfl

end Model

/-! ### Binding and unbinding -/

namespace Variable

variable {v : Variable V B}

theorem Consistent.bufferLocalInfo (h : v.Consistent) (b : B) :
    v.bufferLocalInfo b = if (v.model.locals b).isSome then 1
      else if v.model.automatic then -1 else 0 := by
  cases v with
  | plain value old => rfl
  | perBuffer s =>
    have h' : s.Consistent := h
    have hlocals : (perBuffer s).model.locals b = (s.localVarAlist b).head?.map s.elementValue := rfl
    rw [hlocals]
    simp only [Variable.bufferLocalInfo, h'.bufferLocalAlistElement]
    cases hhead : (s.localVarAlist b).head? with
    | none =>
      rw [map_none, isSome_none, if_neg Bool.false_ne_true]
      rfl
    | some e => rw [map_some, isSome_some, if_pos rfl]

theorem Consistent.specbind (h : v.Consistent) (value : V) :
    (v.specbind value).1 = v.model.binding ∧ (v.specbind value).2.Consistent ∧
      (v.specbind value).2.model = v.model.set (some value) := by
  cases v with
  | plain old b => exact ⟨rfl, trivial, rfl⟩
  | perBuffer s =>
    obtain ⟨hvalue, hfound, hsame⟩ := h.findSymbolValue
    obtain ⟨hset, hmodel⟩ := h.fset (some value)
    obtain ⟨hset', hmodel'⟩ := hfound.fset (some value)
    rw [hsame] at hmodel'
    have hcur : (perBuffer s).model.currentBuffer = (perBuffer s).currentBuffer := rfl
    rw [Variable.specbind]
    unfold Variable.specbindMagic Model.binding
    simp only [h.bufferLocalInfo, hvalue, hcur]
    cases ((perBuffer s).model.locals (perBuffer s).currentBuffer).isSome with
    | true => exact ⟨rfl, hset', hmodel'⟩
    | false =>
      cases (perBuffer s).model.automatic with
      | true => exact ⟨rfl, hset, hmodel⟩
      | false => exact ⟨rfl, hset', hmodel'⟩

theorem Consistent.inBuffer {f : Variable V B → Variable V B} {x : Option (Option V)} {buf : B}
    (hf : ∀ w, w.Consistent → (w.model.locals w.currentBuffer).isSome = true →
      (f w).Consistent ∧ (f w).model = w.model.setLocal x)
    (h : v.Consistent) (hlocal : (v.model.locals buf).isSome = true) :
    (v.inBuffer buf f).Consistent ∧ (v.inBuffer buf f).model
      = { v.model with locals := Function.update v.model.locals buf x } := by
  have hinfo : v.bufferLocalInfo buf ≠ 0 := by
    rw [h.bufferLocalInfo, if_pos hlocal]
    exact Int.one_ne_zero
  unfold Variable.inBuffer
  rw [if_neg hinfo]
  split
  · rename_i hcur
    subst hcur
    obtain ⟨hdone, hmodel⟩ := hf v h hlocal
    refine ⟨hdone, ?_⟩
    rw [hmodel]
    exact Model.ext rfl rfl (by rw [Model.setLocal, model_currentBuffer]) rfl
  · -- the values do not change when another buffer becomes current
    obtain ⟨hthere, hmoved⟩ := h.setBuffer buf
    have hbuf : (v.setBuffer buf).currentBuffer = buf := by
      rw [← model_currentBuffer, hmoved]
    obtain ⟨hdone, hmodel⟩ := hf _ hthere (by rw [hbuf, hmoved]; exact hlocal)
    obtain ⟨hback, hsame⟩ := hdone.setBuffer v.currentBuffer
    refine ⟨hback, ?_⟩
    rw [hsame, hmodel, hmoved]
    refine Model.ext rfl rfl rfl ?_
    exact v.model_currentBuffer.symm

omit [DecidableEq B] in
theorem losesNothing (h : v.Consistent) (hlocal : (v.model.locals v.currentBuffer).isSome = true) :
    v.LosesNothing := by
  cases v with
  | plain value b => trivial
  | perBuffer s =>
    have h' : s.Consistent := h
    intro hcache hstale
    have hsome := (s.isSome_locals s.currentBuffer).mp hlocal
    rw [← h'.cached hcache, hstale.1] at hsome
    cases hsome

theorem Consistent.unbind {r : Specbinding V B} (h : v.Consistent) (hfits : v.model.Fits r)
    (hdefault : r.ofDefault → v.model.locals v.currentBuffer = none) :
    (v.unbind r).Consistent ∧ (v.unbind r).model = v.model.undo r := by
  cases r with
  | value oldValue =>
    have hnone := hdefault rfl
    cases v with
    | plain value b => exact ⟨trivial, rfl⟩
    | perBuffer s =>
      obtain ⟨hset, hmodel⟩ := h.fset oldValue
      refine ⟨hset, hmodel.trans ?_⟩
      have hauto : (perBuffer s).model.automatic = false := hfits
      have hcur : (perBuffer s).model.currentBuffer = (perBuffer s).currentBuffer := rfl
      rw [Model.set, hcur, hnone, hauto, if_neg (by simp)]
      exact Model.ext hauto.symm rfl rfl rfl
  | unwindLocal buf oldValue =>
    refine h.inBuffer (fun w hw hlocal => ?_) hfits
    obtain ⟨hset, hmodel⟩ := hw.fset oldValue
    refine ⟨hset, hmodel.trans ?_⟩
    rw [← model_currentBuffer] at hlocal
    exact if_pos (.inl hlocal)
  | unwindWasntLocal buf =>
    exact h.inBuffer (fun w hw hlocal => hw.killLocalVariable (losesNothing hw hlocal)) hfits.2

theorem Consistent.unbindTo {count : Nat} {specpdl : List (Specbinding V B)} (h : v.Consistent)
    (hcount : count ≤ specpdl.length) (hundoable : v.model.Undoable specpdl)
    (hdefault : ∀ r ∈ specpdl.take (specpdl.length - count),
      r.ofDefault → v.model.locals v.currentBuffer = none) :
    (unbindTo count specpdl v).2.Consistent ∧
      (unbindTo count specpdl v).2.model.Undoable (unbindTo count specpdl v).1 ∧
      (unbindTo count specpdl v).2.model.undoAll (unbindTo count specpdl v).1
        = v.model.undoAll specpdl := by
  induction specpdl generalizing v with
  | nil => exact ⟨h, trivial, rfl⟩
  | cons r specpdl ih =>
    rw [Variable.unbindTo]
    split
    · exact ⟨h, hundoable, rfl⟩
    · rename_i hne
      obtain ⟨hfits, hrest⟩ := hundoable
      have hle : count ≤ specpdl.length := by
        rw [length_cons] at hcount hne
        omega
      rw [length_cons, Nat.succ_sub hle, take_succ_cons] at hdefault
      obtain ⟨hundone, hmodel⟩ := h.unbind hfits (hdefault r (mem_cons_self ..))
      have hcur : (v.unbind r).currentBuffer = v.currentBuffer := by
        rw [← model_currentBuffer, hmodel, Model.undo_currentBuffer, model_currentBuffer]
      rw [← hmodel] at hrest
      obtain ⟨hdone, hleft, hall⟩ := ih hundone hle hrest fun r' hr' hofDefault => by
        rw [hcur, hmodel]
        exact hfits.undo_locals (hdefault r' (mem_cons_of_mem _ hr') hofDefault)
      refine ⟨hdone, hleft, ?_⟩
      rw [hall, hmodel]
      rfl

end Variable

/-! ### Runs -/

inductive BindOp (V B : Type*) where
  | specbind (value : V)
  | unbindTo (count : Nat)
  | setBuffer (b : B)

/-- The records above the outer depth, and the variable. -/
structure Bound (V B : Type*) where
  specpdl : List (Specbinding V B)
  cell : Variable V B

namespace Bound

/-- `unbind_to` goes down to a depth that the stack has reached. -/
def step (s : Bound V B) : BindOp V B → Option (Bound V B)
  | .specbind value =>
    let (r, cell) := s.cell.specbind value
    some ⟨r :: s.specpdl, cell⟩
  | .unbindTo count =>
    if count ≤ s.specpdl.length then
      let (specpdl, cell) := Variable.unbindTo count s.specpdl s.cell
      some ⟨specpdl, cell⟩
    else none
  | .setBuffer b => some ⟨s.specpdl, s.cell.setBuffer b⟩

/-- A binding of the default is undone where the variable is not local. -/
def Meets (s : Bound V B) : BindOp V B → Prop
  | .unbindTo count => ∀ r ∈ s.specpdl.take (s.specpdl.length - count),
    r.ofDefault → s.cell.bufferLocalInfo s.cell.currentBuffer = 0
  | _ => True

instance (s : Bound V B) (op : BindOp V B) : Decidable (s.Meets op) :=
  match op with
  | .unbindTo count => inferInstanceAs (Decidable (∀ r ∈ s.specpdl.take (s.specpdl.length - count),
      r.ofDefault → s.cell.bufferLocalInfo s.cell.currentBuffer = 0))
  | .specbind _ | .setBuffer _ => isTrue trivial

/-- Taking back all records gives the values of before. -/
structure Undone (m : Model V B) (s : Bound V B) : Prop where
  consistent : s.cell.Consistent
  undoable : s.cell.model.Undoable s.specpdl
  undoAll : s.cell.model.undoAll s.specpdl = { m with currentBuffer := s.cell.currentBuffer }

theorem Undone.step {m : Model V B} {s s' : Bound V B} {op : BindOp V B} (h : s.Undone m)
    (hmeets : s.Meets op) (hstep : s.step op = some s') : s'.Undone m := by
  cases op with
  | specbind value =>
    have hs' : s' = ⟨(s.cell.specbind value).1 :: s.specpdl, (s.cell.specbind value).2⟩ :=
      (Option.some.inj hstep).symm
    subst hs'
    obtain ⟨hrecord, hbound, hmodel⟩ := h.consistent.specbind value
    obtain ⟨hfits, hundo⟩ := s.cell.model.undo_binding (some value)
    rw [← hmodel, ← hrecord] at hfits hundo
    have hcur : (s.cell.specbind value).2.currentBuffer = s.cell.currentBuffer := by
      rw [← Variable.model_currentBuffer, hmodel, ← Variable.model_currentBuffer]
      exact Model.set_currentBuffer ..
    constructor
    · exact hbound
    · refine ⟨hfits, ?_⟩
      rw [hundo]
      exact h.undoable
    · change ((s.cell.specbind value).2.model.undo (s.cell.specbind value).1).undoAll s.specpdl = _
      rw [hundo, h.undoAll, hcur]
  | unbindTo count =>
    simp only [Bound.step] at hstep
    split at hstep
    · rename_i hcount
      have hs' : s' = ⟨(Variable.unbindTo count s.specpdl s.cell).1,
          (Variable.unbindTo count s.specpdl s.cell).2⟩ := (Option.some.inj hstep).symm
      subst hs'
      have hdefault : ∀ r ∈ s.specpdl.take (s.specpdl.length - count),
          r.ofDefault → s.cell.model.locals s.cell.currentBuffer = none := by
        intro r hr hofDefault
        have hinfo := hmeets r hr hofDefault
        rw [h.consistent.bufferLocalInfo] at hinfo
        by_contra hlocal
        rw [if_pos (Option.isSome_iff_ne_none.mpr hlocal)] at hinfo
        exact Int.one_ne_zero hinfo
      obtain ⟨hdone, hleft, hall⟩ := h.consistent.unbindTo hcount h.undoable hdefault
      have hcur : (Variable.unbindTo count s.specpdl s.cell).2.currentBuffer
          = s.cell.currentBuffer := by
        have hbuf := congrArg Model.currentBuffer hall
        rwa [Model.undoAll_currentBuffer, Model.undoAll_currentBuffer,
          Variable.model_currentBuffer, Variable.model_currentBuffer] at hbuf
      constructor
      · exact hdone
      · exact hleft
      · rw [hall, h.undoAll, hcur]
    · cases hstep
  | setBuffer b =>
    obtain rfl := Option.some.inj hstep
    obtain ⟨hset, hmodel⟩ := h.consistent.setBuffer b
    have hcur : (s.cell.setBuffer b).currentBuffer = b := by
      rw [← Variable.model_currentBuffer, hmodel]
    constructor
    · exact hset
    · rw [hmodel, Model.undoable_inBuffer]
      exact h.undoable
    · rw [hmodel, Model.undoAll_inBuffer, h.undoAll, hcur]

end Bound

/-- The same default, the same buffers in which the variable is local, and the same value in every
buffer. -/
def SameValues (v v' : Variable V B) : Prop :=
  v'.getDefault = v.getDefault ∧
    ∀ b, v'.bufferLocalInfo b = v.bufferLocalInfo b ∧
      (v'.setBuffer b).findSymbolValue.1 = (v.setBuffer b).findSymbolValue.1

theorem sameValues_of_model {v v' : Variable V B} {b : B} (h : v.Consistent) (h' : v'.Consistent)
    (hmodel : v'.model = { v.model with currentBuffer := b }) : SameValues v v' := by
  refine ⟨?_, fun buf => ⟨?_, ?_⟩⟩
  · rw [v'.getDefault_eq, hmodel, v.getDefault_eq]
  · rw [h'.bufferLocalInfo, hmodel, h.bufferLocalInfo]
  · obtain ⟨hset, hsame⟩ := h.setBuffer buf
    obtain ⟨hset', hsame'⟩ := h'.setBuffer buf
    rw [hset.findSymbolValue.1, hset'.findSymbolValue.1, ← Variable.model_currentBuffer,
      ← Variable.model_currentBuffer, hsame, hsame', hmodel]

end XEmacs.Variables
