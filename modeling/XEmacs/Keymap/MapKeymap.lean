import XEmacs.Keymap.KeyOrder
import XEmacs.Keymap.Routes

/-!
# Mapping over a keymap

`map-keymap` calls a function on each binding of a keymap. Bindings with modifiers are in tables
of their own, under the modifier keys.
-/

namespace XEmacs.Keymap

open Commands

/-- The array `hentries` of a hash table: where it is in memory, and its slots. -/
structure HashArray where
  address : Nat
  entries : List (Option (Key × Def))

/-- The keymaps, and the array of the table of each. -/
structure MapState where
  keymaps : Keymaps
  slots : Nat → HashArray

/-- What is in the slots of the table of `m`, in order. -/
def MapState.contents (s : MapState) (m : Nat) : List (Key × Def) :=
  (s.slots m).entries.reduceOption

/-- A slot of an array that is still at `address`; nothing if the array is not. -/
def HashArray.read (a : HashArray) (address e : Nat) : Option (Option (Key × Def)) :=
  if a.address = address then a.entries[e]? else none

/-- A call of the function: the key and the binding it got, the keymaps whose tables were being
walked, and the state before and after it. -/
structure Call where
  key : KeyData
  binding : Def
  walked : List Nat
  before : MapState
  after : MapState

section mapKeymap

-- The function has a state of its own beside the keymaps.
variable {σ : Type} (view : σ → MapState) (function : KeyData → Def → Command σ Unit)

/-- `map_keymap_mapper`; what the function is called on is noted. -/
def mapKeymapMapper (walked : List Nat) (key : KeyData) (d : Def) :
    Command (σ × List Call) Unit := fun x =>
  let note := fun x' => (x', x.2 ++ [⟨key, d, walked, view x.1, view x'⟩])
  match function key d x.1 with
  | .diverges => .diverges
  | .aborts => .aborts
  | .signals x' => .signals (note x')
  | .returns () x' => .returns () (note x')

section maphash

variable (mapper : Key → Def → Command (σ × List Call) Unit)

/-- The body of the loop of `elisp_maphash` at the slot `e` of the table of `m`, with its `again:`.
A read of an array that has been freed crashes. -/
def maphashSlot (m address e : Nat) : Nat → Command (σ × List Call) Unit
  | 0 => Command.diverge
  | fuel + 1 => do
    let x ← Command.state
    match ((view x.1).slots m).read address e with
    | none => Command.abort
    | some none => pure ()
    | some (some (key, value)) => do
      mapper key value
      let x ← Command.state
      match ((view x.1).slots m).read address e with
      | none => Command.abort
      | some none => pure ()
      | some (some (key', _)) =>
        -- has the function done a remhash?
        if key ≠ key' then maphashSlot m address e fuel else pure ()

/-- `elisp_maphash`, on the table of `m`. -/
def elispMaphash (fuel m : Nat) : Command (σ × List Call) Unit := do
  let x ← Command.state
  let a := (view x.1).slots m
  (List.range a.entries.length).forM fun e => maphashSlot view mapper m a.address e fuel

/-- `elisp_maphash`, on a table that nothing else refers to. -/
def elispMaphashCopy (table : List (Option (Key × Def))) : Command (σ × List Call) Unit :=
  table.forM fun e =>
    match e with
    | none => pure ()
    | some (key, value) => mapper key value

end maphash

/-- `map_keymap_unsorted_mapper`, with the modifiers of its closure. -/
def mapKeymapUnsortedMapper : Nat → Modifiers → List Nat → Key → Def →
    Command (σ × List Call) Unit
  | 0, _, _, _, _ => Command.diverge
  | fuel + 1, modifiers, walked, .modifiers bits, .keymap value =>
    elispMaphash view
      (mapKeymapUnsortedMapper fuel (modifiers.or bits) (value :: walked)) (fuel + 1) value
  | _ + 1, _, _, .modifiers _, _ => Command.signal
  | _ + 1, modifiers, walked, .keysym keysym, value =>
    mapKeymapMapper view function walked ⟨keysym, modifiers⟩ value

/-- `map_keymap_sorted`, on a table with these slots. `map_keymap_sorted_mapper` conses the entries
in front of each other. -/
def mapKeymapSorted (env : KeysymEnv) : Nat → Modifiers → List (Option (Key × Def)) →
    Command (σ × List Call) Unit
  | 0, _, _ => Command.diverge
  | fuel + 1, modifiers, table =>
    (sortContents env table.reduceOption.reverse).forM fun e =>
      match e with
      | (.modifiers bits, .keymap binding) => do
        let x ← Command.state
        mapKeymapSorted env fuel (modifiers.or bits) ((view x.1).slots binding).entries
      | (.modifiers _, _) => Command.signal
      | (.keysym keysym, binding) =>
        mapKeymapMapper view function [] ⟨keysym, modifiers⟩ binding

/-- `Fmap_keymap`: the table of the keymap is copied. -/
def mapKeymap (env : KeysymEnv) (sortFirst : Bool) (fuel m : Nat) :
    Command (σ × List Call) Unit := do
  let x ← Command.state
  let table := ((view x.1).slots m).entries
  if sortFirst then mapKeymapSorted view function env fuel .none table
  else elispMaphashCopy (mapKeymapUnsortedMapper view function fuel .none []) table

end mapKeymap

/-! ### What it is for -/

/-- A binding of the keymap `m`, under modifiers of the keyboard. -/
def HasBinding (s : Keymaps) (m : Nat) (key : KeyData) : Prop :=
  key.modifiers.buttons = 0 ∧ ∃ k, s.submapFor m key.modifiers = some k ∧
    (s.map k).gethash (.keysym key.keysym) ≠ .nil

/-- How often the function has been called on a key. -/
def calls (log : List Call) (key : KeyData) : Nat :=
  log.countP fun c => c.key = key

/-- No binding is passed twice, and no table is changed while it is walked. -/
structure VisitsAtMostOnce (s : MapState) (m : Nat) (log : List Call) : Prop where
  atMostOnce : ∀ key, HasBinding s.keymaps m key → calls log key ≤ 1
  unchanged : ∀ c ∈ log, ∀ k ∈ c.walked, c.after.slots k = c.before.slots k

/-- A binding that is never removed is passed once. -/
structure VisitsOnce (s : MapState) (m : Nat) (log : List Call) : Prop
    extends VisitsAtMostOnce s m log where
  once : ∀ key, HasBinding s.keymaps m key →
    (∀ c ∈ log, HasBinding c.after.keymaps m key) → calls log key = 1

/-! ### What the function does -/

/-- What stores in the keymap `m` make of the keymaps; an error may cut one short. -/
inductive Stores (m : Nat) : Keymaps → Keymaps → Prop
  | refl (s : Keymaps) : Stores m s s
  | store {s s' s'' : Keymaps} (before : Key → Key → Bool) (fuel : Nat) (key : KeyData)
    {value : Def} (hvalue : value.live s'.next) (h : Stores m s s')
    (hstore : (keymapStore (keymapStoreInternal before fuel) m key value s').state? = some s'') :
    Stores m s s''

/-- The slots hold the entries of the tables. -/
def MapState.Arranged (s : MapState) : Prop :=
  ∀ m, (s.contents m).Perm ((s.keymaps.map m).table.entries.map fun e => (e.1, e.2))

section conditions

variable {σ : Type} (view : σ → MapState) (m : Nat)
  (function : KeyData → Def → Command σ Unit) (I : σ → Prop)

/-- The function returns or signals an error, after adding and removing bindings of the keymap `m`.
The slots of all tables may change. -/
def EditsBindings : Prop :=
  ∀ key d x, I x → ∃ x', (function key d x).state? = some x' ∧ I x' ∧
    Stores m (view x).keymaps (view x').keymaps ∧ (view x').Arranged

/-- The table of `k` is that of the bindings with these modifiers, or of the meta submap it is
below; the keymap's own table is not counted. -/
def OnWay (s : Keymaps) (m : Nat) (modifiers : Modifiers) (k : Nat) : Prop :=
  modifiers.modMeta ∧ s.bucky m .onlyMeta = some k ∨
    modifiers.sansMeta ≠ .none ∧ s.submapFor m modifiers = some k

/-- Called on a binding with modifiers, the function leaves the table of the binding as it is, and
that of the meta submap if it is below it. -/
def LeavesTables : Prop :=
  ∀ key d x x', I x → (function key d x).state? = some x' →
    ∀ k, OnWay (view x).keymaps m key.modifiers k → (view x').slots k = (view x).slots k

end conditions

/-- What a modifier key is bound to in the keymap `m`. -/
def Keymaps.under (s : Keymaps) (m : Nat) (mods : Modifiers) : Option Def :=
  (s.map m).table.lookup (.modifiers mods)

/-- The submaps of a keymap for modifiers are nested as `keymap_store` nests them: modifiers
without meta have a submap in the keymap, or in the meta submap. -/
structure Nested (s : Keymaps) (m : Nat) : Prop where
  top : ∀ mods d, s.under m mods = some d →
    (∃ k, d = .keymap k) ∧ (mods = .onlyMeta ∨ mods.Others)
  inMeta : ∀ k, s.under m .onlyMeta = some (.keymap k) → ∀ mods d, s.under k mods = some d →
    (∃ k', d = .keymap k') ∧ mods.Others
  inOthers : ∀ mods k, mods.Others → s.under m mods = some (.keymap k) →
    s.under m .onlyMeta ≠ some (.keymap k) ∧ ∀ mods', s.under k mods' = none
  inMetaOthers : ∀ k, s.under m .onlyMeta = some (.keymap k) → ∀ mods k',
    s.under k mods = some (.keymap k') → ∀ mods', s.under k' mods' = none

end XEmacs.Keymap
