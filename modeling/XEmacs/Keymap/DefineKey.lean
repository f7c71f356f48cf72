import XEmacs.Keymap.Stores

/-!
# Defining keys and setting parents

`define-key` walks down a key sequence, makes the prefix keymaps that are missing and stores the
definition at the end.
-/

namespace XEmacs.Keymap

open Commands

/-! ### Looking up one key -/

/-- The keymap under a modifier hash key, which only `create_bucky_submap` binds. -/
def Keymaps.bucky (s : Keymaps) (m : Nat) (mods : Modifiers) : Option Nat :=
  match (s.map m).gethash (.modifiers mods) with
  | .keymap k => some k
  | _ => none

def keymapLookupDirectly (s : Keymaps) (m : Nat) (key : KeyData) : Def :=
  let mods := key.modifiers.sansButtons
  let k := if mods.modMeta then s.bucky m .onlyMeta else some m
  let k' := if mods.sansMeta ≠ .none then k.bind fun k => s.bucky k mods.sansMeta else k
  match k' with
  | none => .nil
  | some k => (s.map k).gethash (.keysym key.keysym.charCode)

def keymapLookup1 (s : Keymaps) (m : Nat) (key : KeyData) : Def :=
  getKeyelt (keymapLookupDirectly s m key)

/-! ### Storing one key -/

section stores

-- `keymap_store_internal`; a parameter, so that what it is called with can be spoken of
variable (store : Key → Nat → Def → Command Keymaps Unit)

def createBuckySubmap (k : Nat) (mods : Modifiers) : Command Keymaps Nat := do
  let submap ← newKeymap emptyKeymap
  Command.modify fun s => s.setCache k none
  store (.modifiers mods) k (.keymap submap)
  pure submap

/-- The submap for some modifiers, made if it is not there. -/
def ensureBuckySubmap (wanted : Bool) (k : Nat) (mods : Modifiers) :
    Command Keymaps Nat := do
  let s ← Command.state
  if wanted then
    match s.bucky k mods with
    | some submap => pure submap
    | none => createBuckySubmap store k mods
  else pure k

def keymapStore (m : Nat) (key : KeyData) (value : Def) : Command Keymaps Unit := do
  let mods := key.modifiers.sansButtons
  let k ← ensureBuckySubmap store mods.modMeta m .onlyMeta
  let k ← ensureBuckySubmap store (mods.sansMeta ≠ .none) k mods.sansMeta
  Command.modify fun s => s.setCache k none
  store (.keysym key.keysym.charCode) k value

end stores

section defineKey

variable (env : KeyEnv) (before : Key → Key → Bool) (fuel : Nat)
  (store : Key → Nat → Def → Command Keymaps Unit)

/-! ### `define-key` -/

/-- `keymap_fullness`: the bindings of a keymap and of its submaps for modifiers. -/
def keymapFullness : Nat → Nat → Command Keymaps Int
  | 0, _ => Command.diverge
  | rounds + 1, m => do
    let s ← Command.state
    let maps ← keymapSubmaps before m
    maps.foldlM (fun fullness e =>
      match e.1 with
      | .modifiers mods =>
        if mods = .none then pure fullness
        else do
          let inner ← keymapFullness rounds e.2
          pure (fullness - 1 + inner)
      | _ => pure fullness) ((s.map m).table.entries.length : Int)

/-- No binding is made for the meta prefix character in a map with a non-empty meta
submap. -/
def checkMetaBindings (m : Nat) : Command Keymaps Unit := do
  let s ← Command.state
  match s.bucky m .onlyMeta with
  | none => pure ()
  | some metaMap => do
    let fullness ← keymapFullness before fuel metaMap
    if fullness ≠ 0 then Command.signal else pure ()

def ensureMetaPrefixCharKeymapp (m : Nat) : Command Keymaps Unit := do
  let s ← Command.state
  match metaKey env with
  | none => pure ()
  | some k =>
    let binding := keymapLookup1 s m k
    if binding = .nil ∨ binding.keymapp then pure () else Command.signal

/-- The binding of a prefix key, a new keymap if there is none. -/
def prefixBinding (m : Nat) (raw : KeyData) : Command Keymaps Def := do
  let s ← Command.state
  let cmd := keymapLookup1 s m raw
  if cmd = .nil then do
    let k ← newKeymap emptyKeymap
    keymapStore store m raw (.keymap k)
    pure (.keymap k)
  else pure cmd

/-- The definition goes under the other name as well. -/
def storeAlternate (m : Nat) (raw2 : Option KeyData) (d : Def) : Command Keymaps Unit :=
  match raw2 with
  | none => pure ()
  | some raw2 => keymapStore store m raw2 d

/-- A prefix keymap goes under the other name as well, unless that has a binding. -/
def storeAlternatePrefix (m : Nat) (raw2 : Option KeyData) (cmd : Def) :
    Command Keymaps Unit := do
  let s ← Command.state
  match raw2 with
  | none => pure ()
  | some raw2 =>
    if keymapLookup1 s m raw2 = .nil then keymapStore store m raw2 cmd else pure ()

/-- The key with the meta bit. -/
def KeyData.metize (k : KeyData) : KeyData :=
  { k with modifiers := k.modifiers.withMeta }

/-- The two names a key is stored under. -/
def rawKeys (asciiHack metized : Bool) (raw : KeyData) : KeyData × Option KeyData :=
  let raw2 := if asciiHack then defineKeyAlternateName raw else none
  if metized then (raw.metize, raw2.map KeyData.metize) else (raw, raw2)

/-- The last key of the sequence. -/
def defineLast (asciiHack metized : Bool) (raw : KeyData) (m : Nat) (d : Def) :
    Command Keymaps Unit := do
  Command.when (!metized && asciiHack && metaPrefixCharP env raw)
    (checkMetaBindings before fuel m)
  let raws := rawKeys asciiHack metized raw
  Command.when raws.1.modifiers.modMeta (ensureMetaPrefixCharKeymapp env m)
  keymapStore store m raws.1 d
  storeAlternate store m raws.2 d

/-- A key before the last one; the keymap to go on in. -/
def definePrefix (asciiHack metized : Bool) (raw : KeyData) (m : Nat) :
    Command Keymaps Nat := do
  let raws := rawKeys asciiHack metized raw
  Command.when raws.1.modifiers.modMeta (ensureMetaPrefixCharKeymapp env m)
  let cmd ← prefixBinding store m raws.1
  match cmd with
  | .keymap k => do
    storeAlternatePrefix store m raws.2 cmd
    pure k
  | _ => Command.signal

/-- The loop of `Fdefine_key`; a specifier that `define_key_parser` rejects is an
error. -/
def defineKeys (asciiHack : Bool) (d : Def) :
    List (Option KeyData) → Bool → Nat → Command Keymaps Unit
  | [], _, _ => pure ()
  | none :: _, _, _ => Command.signal
  | [some raw], metized, m => defineLast env before fuel store asciiHack metized raw m d
  | some raw :: rest, metized, m =>
    if !metized && asciiHack && metaPrefixCharP env raw then
      defineKeys asciiHack d rest true m
    else do
      let k ← definePrefix env store asciiHack metized raw m
      defineKeys asciiHack d rest false k

/-- A key sequence: a string of characters or a vector of key specifiers. -/
inductive KeySequence
  | string (cs : List Nat)
  | vector (specs : List (Option KeyData))

/-- What `define_key_parser` makes of the elements. -/
def KeySequence.parse : KeySequence → List (Option KeyData)
  | .string cs => cs.map fun c => some (characterToEvent c)
  | .vector specs => specs

def KeySequence.isString : KeySequence → Bool
  | .string _ => true
  | .vector _ => false

def defineKeyWith (m : Nat) (keys : KeySequence) (d : Def) : Command Keymaps Unit :=
  defineKeys env before fuel store keys.isString d keys.parse false m

end defineKey

def defineKey (env : KeyEnv) (before : Key → Key → Bool) (fuel : Nat) (m : Nat)
    (keys : KeySequence) (d : Def) : Command Keymaps Unit :=
  defineKeyWith env before fuel (keymapStoreInternal before fuel) m keys d

/-! ### Traversing keymaps and their parents -/

/-- The variables of `traverse_keymaps`: the keymap to visit, the rest of the list it
is in, and the rests of the lists that are pending, the latest first. -/
structure Traversal where
  keymap : Nat
  tail : List Nat
  mallocSucks : List (List Nat)
  mallocBites : List (List Nat)
  stackDepth : Nat

/-- Put off the rest of a list. The list `mallocBites` takes over when the ten slots
are full, and they are not read again; the rest that did not fit is put nowhere, and
`stackDepth` counts no more. -/
def Traversal.push (t : Traversal) (rest : List Nat) : Traversal :=
  if t.mallocBites ≠ [] then { t with mallocBites := rest :: t.mallocBites }
  else if t.stackDepth < 10 then
    { t with mallocSucks := rest :: t.mallocSucks, stackDepth := t.stackDepth + 1 }
  else { t with mallocBites := t.mallocSucks, mallocSucks := [] }

/-- The next keymap to visit. -/
def Traversal.next (s : Keymaps) (t : Traversal) : Option Traversal :=
  match t.tail with
  | [] =>
    if t.stackDepth = 0 then none
    else
      match t.mallocBites, t.mallocSucks with
      | (k :: tail) :: bites, _ => some { t with
          keymap := k, tail := tail, mallocBites := bites,
          stackDepth := t.stackDepth - 1 }
      | [], (k :: tail) :: sucks => some { t with
          keymap := k, tail := tail, mallocSucks := sucks,
          stackDepth := t.stackDepth - 1 }
      | _, _ => none
  | k :: tail =>
    if (s.map k).parents = [] then some { t with keymap := k, tail := tail }
    else if tail = [] then some { t with keymap := k, tail := (s.map k).parents }
    else some { t.push tail with keymap := k, tail := (s.map k).parents }

section traverse

-- The mapper may have a closure of its own beside the keymaps.
variable {σ α : Type} (keymaps : σ → Keymaps) (mapper : Nat → Command σ (Option α))

/-- The walk goes on until the mapper returns something, no keymap is left, or the
start comes again. -/
def traverseFrom (start : Nat) : Nat → Traversal → Command σ (Option α)
  | 0, _ => Command.diverge
  | fuel + 1, t => do
    let result ← mapper t.keymap
    match result with
    | some a => pure (some a)
    | none => do
      let s ← Command.state
      match t.next (keymaps s) with
      | none => pure none
      | some t' =>
        if t'.keymap = start then Command.signal
        else traverseFrom start fuel t'

/-- The start, with `startParents` in the place of its parents unless that is nil. -/
def Traversal.init (s : Keymaps) (start : Nat) (startParents : List Nat) : Traversal where
  keymap := start
  tail := if startParents ≠ [] then startParents else (s.map start).parents
  mallocSucks := []
  mallocBites := []
  stackDepth := 0

def traverseKeymaps (fuel : Nat) (start : Nat) (startParents : List Nat) :
    Command σ (Option α) := do
  let s ← Command.state
  traverseFrom keymaps mapper start fuel (.init (keymaps s) start startParents)

end traverse

/-- `traverse_keymaps_noop`. -/
def traverseNoop (_ : Nat) : Command Keymaps (Option Unit) :=
  pure none

def setKeymapParents (fuel : Nat) (m : Nat) (parents : List Nat) :
    Command Keymaps Unit := do
  let _ ← traverseKeymaps id traverseNoop fuel m parents
  Command.modify fun s => s.update m fun k => { k with parents := parents }

/-! ### The operations -/

/-- The operations that build keymaps. -/
inductive MapOp
  | makeKeymap
  | defineKey (m : Nat) (keys : KeySequence) (d : Def)
  | setKeymapParents (m : Nat) (parents : List Nat)
  | copyKeymap (m : Nat)
  | keymapSubmaps (m : Nat)

section exec

variable (env : KeyEnv) (before : Key → Key → Bool) (fuel : Nat)

/-- An argument that is no keymap is an error. -/
def MapOp.exec : MapOp → Command Keymaps Unit
  | .makeKeymap => do
    let _ ← newKeymap emptyKeymap
    pure ()
  | .defineKey m keys d => do
    let s ← Command.state
    if m < s.next ∧ d.live s.next then Keymap.defineKey env before fuel m keys d
    else Command.signal
  | .setKeymapParents m parents => do
    let s ← Command.state
    if m < s.next ∧ ∀ p ∈ parents, p < s.next then
      Keymap.setKeymapParents fuel m parents
    else Command.signal
  | .copyKeymap m => do
    let s ← Command.state
    if m < s.next then do
      let _ ← Keymap.copyKeymap before fuel fuel m
      pure ()
    else Command.signal
  | .keymapSubmaps m => do
    let s ← Command.state
    if m < s.next then do
      let _ ← Keymap.keymapSubmaps before m
      pure ()
    else Command.signal

/-- The keymaps after an operation that ends. -/
def MapOp.step (s : Keymaps) (op : MapOp) : Option Keymaps :=
  (op.exec env before fuel s).state?

end exec

end XEmacs.Keymap
