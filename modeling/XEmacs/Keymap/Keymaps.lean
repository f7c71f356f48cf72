import Mathlib.Data.List.AList
import Mathlib.Data.List.Sort
import XEmacs.Keymap.Keys
import XEmacs.Lib.Commands
import XEmacs.Lib.ConsLists

/-!
# Keymaps

A keymap holds a hash table from keys to their bindings, the inverse table from each binding to
the keys that have it, a cache of the entries that are keymaps, and a list of parents.
-/

namespace XEmacs.Keymap

open Commands ConsLists Function

/-- What a key is in a keymap's table: a keysym, or an integer with modifier bits
whose binding is the keymap of the keys with these modifiers. -/
inductive Key
  | keysym (k : Keysym)
  | modifiers (m : Modifiers)
  deriving DecidableEq

/-- The symbol `nil` as a key. -/
abbrev Key.nil : Key :=
  .keysym .nil

/-- A binding: nil, a keymap object, a menu item `(STRING . DEFN)`, or any other
object. -/
inductive Def
  | nil
  | command (i : Nat)
  | keymap (k : Nat)
  | item (i : Nat) (defn : Def)
  deriving DecidableEq

def Def.keymapp : Def → Bool
  | .keymap _ => true
  | _ => false

/-- `get_keyelt`: the definition of a menu item. -/
def getKeyelt : Def → Def
  | .item _ defn => getKeyelt defn
  | d => d

/-- `struct Lisp_Keymap`; `subMapsCache` is `none` for `t`. -/
structure LispKeymap where
  parents : List Nat
  table : AList fun _ : Key => Def
  inverseTable : AList fun _ : Def => Ref Key
  defaultBinding : Def
  subMapsCache : Option (List (Key × Nat))

/-- `Fgethash (key, table, Qnil)`. -/
def LispKeymap.gethash (k : LispKeymap) (key : Key) : Def :=
  (k.table.lookup key).getD .nil

def emptyKeymap : LispKeymap where
  parents := []
  table := ∅
  inverseTable := ∅
  defaultBinding := .nil
  subMapsCache := some []

/-- All keymaps, of which those below `next` are in use, and the conses of their
inverse tables. -/
structure Keymaps where
  map : Nat → LispKeymap
  next : Nat
  cells : Cells Key

/-- No keymap has been made. -/
def noKeymaps : Keymaps where
  map := fun _ => emptyKeymap
  next := 0
  cells := { car := fun _ => .nil, cdr := fun _ => .atom .nil, next := 0 }

namespace Keymaps

variable (s : Keymaps)

def update (m : Nat) (f : LispKeymap → LispKeymap) : Keymaps :=
  { s with map := Function.update s.map m (f (s.map m)) }

/-- `Fputhash (key, def, keymap->table)`. -/
def putTable (m : Nat) (key : Key) (d : Def) : Keymaps :=
  s.update m fun k => { k with table := k.table.insert key d }

/-- `Fremhash (key, keymap->table)`. -/
def remTable (m : Nat) (key : Key) : Keymaps :=
  s.update m fun k => { k with table := k.table.erase key }

def putInverse (m : Nat) (d : Def) (keys : Ref Key) : Keymaps :=
  s.update m fun k => { k with inverseTable := k.inverseTable.insert d keys }

def remInverse (m : Nat) (d : Def) : Keymaps :=
  s.update m fun k => { k with inverseTable := k.inverseTable.erase d }

def setCache (m : Nat) (cache : Option (List (Key × Nat))) : Keymaps :=
  s.update m fun k => { k with subMapsCache := cache }

def setCells (cells : Cells Key) : Keymaps :=
  { s with cells := cells }

def add (k : LispKeymap) : Keymaps :=
  { s with map := Function.update s.map s.next k, next := s.next + 1 }

@[simp] theorem map_update (m m' : Nat) (f : LispKeymap → LispKeymap) :
    (s.update m f).map m' = if m' = m then f (s.map m) else s.map m' := by
  unfold update
  by_cases h : m' = m
  · rw [if_pos h, h]
    exact update_self ..
  · rw [if_neg h]
    exact update_of_ne h ..

@[simp] theorem map_add (m : Nat) (k : LispKeymap) :
    (s.add k).map m = if m = s.next then k else s.map m := by
  unfold add
  by_cases h : m = s.next
  · rw [if_pos h, h]
    exact update_self ..
  · rw [if_neg h]
    exact update_of_ne h ..

@[simp] theorem map_setCells (c : Cells Key) : (s.setCells c).map = s.map :=
  rfl

end Keymaps

/-- `alloc_lcrecord_type (Lisp_Keymap)`, with the slots filled in. -/
def newKeymap (k : LispKeymap) : Command Keymaps Nat := do
  let s ← Command.state
  Command.modify fun s => s.add k
  pure s.next

/-! ### The inverse table -/

def keymapStoreInverseInternal (m : Nat) (keysym : Key) (value : Def) :
    Command Keymaps Unit := do
  let s ← Command.state
  match (s.map m).inverseTable.lookup value with
  | none => Command.modify fun s => s.putInverse m value (.atom keysym)
  | some (.atom keys) =>
    Command.modify fun s =>
      (s.setCells (s.cells.cons keys (.atom keysym))).putInverse m value
        (.cell s.cells.next)
  | some (.cell p) =>
    match s.cells.lastCell s.cells.next p with
    | none => Command.diverge
    | some (last, z) => Command.modify fun s => s.setCells (s.cells.extend last z keysym)

def keymapDeleteInverseInternal (m : Nat) (keysym : Key) (value : Def) :
    Command Keymaps Unit := do
  let s ← Command.state
  match (s.map m).inverseTable.lookup value with
  | none => Command.abort
  | some keys =>
    match s.cells.delete .nil keysym (s.cells.next + 1) keys with
    | .diverges => Command.diverge
    | .crashes => Command.abort
    | .done newKeys cells =>
      if newKeys = .atom .nil then
        Command.modify fun s => (s.setCells cells).remInverse m value
      else if keys ≠ newKeys then
        -- removed the first element
        Command.modify fun s => (s.setCells cells).putInverse m value newKeys
      else
        Command.modify fun s => s.setCells cells

/-! ### The submaps of a keymap -/

/-- The entries of a table whose value is a keymap. -/
def submapEntries (table : AList fun _ : Key => Def) : List (Key × Nat) :=
  table.entries.filterMap fun e =>
    match e.2 with
    | .keymap k => some (e.1, k)
    | _ => none

section submaps

-- `map_keymap_sort_predicate`: which of two keys comes first.
variable (before : Key → Key → Bool)

/-- `list_sort` by `map_keymap_sort_predicate`. -/
def sortSubmaps (maps : List (Key × Nat)) : List (Key × Nat) :=
  maps.insertionSort fun a b => before a.1 b.1 = true

def keymapSubmaps (m : Nat) : Command Keymaps (List (Key × Nat)) := do
  let s ← Command.state
  match (s.map m).subMapsCache with
  | some maps => pure maps
  | none =>
    let maps := sortSubmaps before (submapEntries (s.map m).table)
    Command.modify fun s => s.setCache m (some maps)
    pure maps

def checkKeymapDefinitionLoop : Nat → Def → Nat → Command Keymaps Unit
  | 0, _, _ => Command.diverge
  | fuel + 1, .keymap d, toKeymap =>
    if d = toKeymap then Command.signal
    else do
      let maps ← keymapSubmaps before d
      maps.forM fun e => checkKeymapDefinitionLoop fuel (.keymap e.2) toKeymap
  | _ + 1, _, _ => pure ()

/-- `if (!NILP (prev_def)) keymap_delete_inverse_internal (...);`. -/
def deletePrevDef (m : Nat) (keysym : Key) (prevDef : Def) : Command Keymaps Unit :=
  if prevDef ≠ .nil then keymapDeleteInverseInternal m keysym prevDef else pure ()

/-- The change of the table, and of the inverse table for a new binding. -/
def storeDef (m : Nat) (keysym : Key) (d : Def) : Command Keymaps Unit :=
  if d = .nil then Command.modify fun s => s.remTable m keysym
  else do
    Command.modify fun s => s.putTable m keysym d
    keymapStoreInverseInternal m keysym d

variable (fuel : Nat)

/-- Bind `keysym` to `d`, or unbind it where `d` is nil. -/
def keymapStoreInternal (keysym : Key) (m : Nat) (d : Def) : Command Keymaps Unit := do
  let s ← Command.state
  let prevDef := (s.map m).gethash keysym
  if prevDef = d then pure ()
  else do
    checkKeymapDefinitionLoop before fuel d m
    deletePrevDef m keysym prevDef
    storeDef m keysym d

/-! ### Copying -/

/-- The old inverse table gets the copies of the conses. -/
def copyKeymapInverseMapper (m : Nat) (e : Sigma fun _ : Def => Ref Key) :
    Command Keymaps Unit := do
  let s ← Command.state
  match Cells.copyList s.cells.next s.cells e.2 with
  | none => Command.diverge
  | some (value, cells) =>
    Command.modify fun s => (s.setCells cells).putInverse m e.1 value

def copyKeymapInternal (m : Nat) : Command Keymaps Nat := do
  let s ← Command.state
  let nkm ← newKeymap { s.map m with subMapsCache := some [] }
  (s.map m).inverseTable.entries.forM (copyKeymapInverseMapper m)
  pure nkm

/-- `copy_keymap` with `copy_keymap_mapper`. -/
def copyKeymap : Nat → Nat → Command Keymaps Nat
  | 0, _ => Command.diverge
  | rounds + 1, m => do
    let nkm ← copyKeymapInternal m
    let s ← Command.state
    (s.map nkm).table.entries.forM fun e =>
      match e.2 with
      | .keymap value => do
        let copy ← copyKeymap rounds value
        keymapStoreInternal before fuel e.1 nkm (.keymap copy)
      | _ => pure ()
    pure nkm

end submaps

/-! ### What filling caches changes -/

/-- One state comes from another by filling caches that were unknown with the entries
of their tables. -/
structure Filled (s s' : Keymaps) : Prop where
  next : s'.next = s.next
  cells : s'.cells = s.cells
  parents : ∀ m, (s'.map m).parents = (s.map m).parents
  table : ∀ m, (s'.map m).table = (s.map m).table
  inverseTable : ∀ m, (s'.map m).inverseTable = (s.map m).inverseTable
  cache : ∀ m, (s'.map m).subMapsCache = (s.map m).subMapsCache ∨
    (s.map m).subMapsCache = none ∧ ∃ maps, (s'.map m).subMapsCache = some maps ∧
      maps.Perm (submapEntries (s.map m).table)

theorem Filled.refl (s : Keymaps) : Filled s s :=
  ⟨rfl, rfl, fun _ => rfl, fun _ => rfl, fun _ => rfl, fun _ => .inl rfl⟩

theorem Filled.trans {s s' s'' : Keymaps} (h : Filled s s') (h' : Filled s' s'') :
    Filled s s'' where
  next := h'.next.trans h.next
  cells := h'.cells.trans h.cells
  parents m := (h'.parents m).trans (h.parents m)
  table m := (h'.table m).trans (h.table m)
  inverseTable m := (h'.inverseTable m).trans (h.inverseTable m)
  cache m := by
    rcases h.cache m with heq | ⟨hnone, maps, hmaps, hperm⟩
    · rw [← heq, ← h.table m]
      exact h'.cache m
    · refine .inr ⟨hnone, maps, ?_, hperm⟩
      rcases h'.cache m with heq' | ⟨hnone', -⟩
      · exact heq'.trans hmaps
      · rw [hmaps] at hnone'
        cases hnone'

theorem Filled.setCache {s : Keymaps} {m : Nat} {maps : List (Key × Nat)}
    (hm : (s.map m).subMapsCache = none)
    (hmaps : maps.Perm (submapEntries (s.map m).table)) :
    Filled s (s.setCache m (some maps)) := by
  have hmap : ∀ x, (s.setCache m (some maps)).map x =
      if x = m then { s.map m with subMapsCache := some maps } else s.map x :=
    fun x => s.map_update m x _
  refine ⟨rfl, rfl, fun x => ?_, fun x => ?_, fun x => ?_, fun x => ?_⟩
  all_goals rw [hmap x]
  all_goals
    by_cases h : x = m
    case neg => simp only [if_neg h, true_or]
  · rw [if_pos h, h]
  · rw [if_pos h, h]
  · rw [if_pos h, h]
  · rw [if_pos h, h]
    exact .inr ⟨hm, maps, rfl, hmaps⟩

section filled

variable (before : Key → Key → Bool)

theorem keymapSubmaps_spec (m : Nat) (s : Keymaps) :
    ∃ maps s', keymapSubmaps before m s = .returns maps s' ∧ Filled s s' ∧
      (∀ x, x ≠ m → (s'.map x).subMapsCache = (s.map x).subMapsCache) ∧
      (s'.map m).subMapsCache = some maps := by
  cases hcache : (s.map m).subMapsCache with
  | some cached =>
    refine ⟨cached, s, ?_, .refl s, fun _ _ => rfl, hcache⟩
    rw [keymapSubmaps, bind_of_returns (state_apply s), hcache]
    rfl
  | none =>
    have hsort : (sortSubmaps before (submapEntries (s.map m).table)).Perm
        (submapEntries (s.map m).table) := List.perm_insertionSort _ _
    refine ⟨sortSubmaps before (submapEntries (s.map m).table), s.setCache m (some _), ?_,
      Filled.setCache hcache hsort, fun x hx => ?_, ?_⟩
    · rw [keymapSubmaps, bind_of_returns (state_apply s), hcache]
      rfl
    · rw [Keymaps.setCache, Keymaps.map_update, if_neg hx]
    · rw [Keymaps.setCache, Keymaps.map_update, if_pos rfl]

theorem checkKeymapDefinitionLoop_filled (A : Prop) (s : Keymaps) (fuel : Nat) (d : Def)
    (m : Nat) : Triple A
      (fun s' => Filled s s' ∧ (s'.map m).subMapsCache = (s.map m).subMapsCache)
      (checkKeymapDefinitionLoop before fuel d m)
      (fun _ s' => Filled s s' ∧ (s'.map m).subMapsCache = (s.map m).subMapsCache)
      (fun s' => Filled s s' ∧ (s'.map m).subMapsCache = (s.map m).subMapsCache) := by
  induction fuel generalizing d with
  | zero => exact Triple.diverge
  | succ fuel ih =>
    cases d with
    | keymap d =>
      rw [checkKeymapDefinitionLoop]
      split
      · exact Triple.signal fun s h => h
      · next hd =>
        refine Triple.bind (fun s' hs' => ?_) fun maps =>
          Triple.forM (I := fun _ s' => Filled s s' ∧
            (s'.map m).subMapsCache = (s.map m).subMapsCache)
            (fun e l => ih (.keymap e.2)) maps
        obtain ⟨maps, s'', hrun, hfill, hother, -⟩ := keymapSubmaps_spec before d s'
        rw [hrun]
        exact ⟨hs'.1.trans hfill, (hother m (Ne.symm hd)).trans hs'.2⟩
    | nil => exact Triple.pure fun s h => h
    | command i => exact Triple.pure fun s h => h
    | item i d => exact Triple.pure fun s h => h

end filled

end XEmacs.Keymap
