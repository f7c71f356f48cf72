import XEmacs.Keymap.DefineKey

/-!
# Looking up key sequences

`lookup-key` goes from keymap to keymap along a key sequence, through the parents of each.
-/

namespace XEmacs.Keymap

open Commands ConsLists

/-! ### `lookup-key` -/

/-- A key of `raw_keys`. Its keysym is an integer where `where_is_recursive_mapper` takes it from
an inverse table. -/
structure RawKey where
  keysym : Key
  modifiers : Modifiers
  deriving DecidableEq

def KeyData.raw (k : KeyData) : RawKey :=
  ⟨.keysym k.keysym, k.modifiers⟩

namespace Modifiers

/-- The modifiers as an integer. -/
def bits (m : Modifiers) : Nat :=
  m.modControl.toNat + 2 * m.modMeta.toNat + 4 * m.modSuper.toNat + 8 * m.modHyper.toNat
    + 16 * m.modAlt.toNat + 32 * m.modShift.toNat + 64 * m.buttons

def or (m m' : Modifiers) : Modifiers where
  modControl := m.modControl || m'.modControl
  modMeta := m.modMeta || m'.modMeta
  modSuper := m.modSuper || m'.modSuper
  modHyper := m.modHyper || m'.modHyper
  modAlt := m.modAlt || m'.modAlt
  modShift := m.modShift || m'.modShift
  buttons := m.buttons ||| m'.buttons

end Modifiers

/-- The submap that `keymap_lookup_directly` looks in. -/
def Keymaps.submapFor (s : Keymaps) (m : Nat) (modifiers : Modifiers) : Option Nat :=
  let mods := modifiers.sansButtons
  let k := if mods.modMeta then s.bucky m .onlyMeta else some m
  if mods.sansMeta ≠ .none then k.bind fun k => s.bucky k mods.sansMeta else k

/-- `keymap_lookup_1`. -/
def keymapLookupRaw (s : Keymaps) (m : Nat) (key : RawKey) : Def :=
  match key.keysym with
  | .keysym k => keymapLookup1 s m ⟨k, key.modifiers⟩
  | .modifiers _ =>
    match s.submapFor m key.modifiers with
    | none => .nil
    | some k => getKeyelt ((s.map k).gethash key.keysym)

def RawKey.metaPrefixCharP (env : KeyEnv) (key : RawKey) : Bool :=
  match key.keysym with
  | .keysym k => Keymap.metaPrefixCharP env ⟨k, key.modifiers⟩
  | .modifiers m =>
    match env.metaPrefixChar with
    | .char c => eventToCharacter env ⟨.char m.bits, key.modifiers⟩ = some c
    | _ => false

/-- What a lookup returns: a definition, or how many keys are too many. -/
inductive Binding
  | defn (d : Def)
  | tooLong (n : Nat)
  deriving DecidableEq

/-- What a mapper returns to `traverse_keymaps`, which goes on at nil. -/
def Binding.result (b : Binding) : Option Binding :=
  if b = .defn .nil then none else some b

section lookup

variable (env : KeyEnv) (acceptDefault : Bool) (fuel : Nat)

/-- `raw_lookup_key`, with `raw_lookup_key_mapper`; there is at least one key. -/
def rawLookupKey : List RawKey → Nat → Nat → Command Keymaps Binding
  | [], _, _ => pure (.defn .nil)
  | [key], _, m => do
    let mapper := fun k => do
      let s ← Command.state
      let cmd := keymapLookupRaw s k key
      let cmd :=
        if key.metaPrefixCharP env ∧ cmd = .nil then (s.map k).gethash (.modifiers .onlyMeta)
        else cmd
      pure (withDefault s k (.defn cmd)).result
    let found ← traverseKeymaps id mapper fuel m []
    pure (found.getD (.defn .nil))
  | key :: next :: rest, keysSoFar, m => do
    let mapper := fun k => do
      let s ← Command.state
      let cmd ← (
        if key.metaPrefixCharP env then
          match keymapLookupRaw s k key with
          | .keymap cmd => rawLookupKey (next :: rest) (keysSoFar + 1) cmd
          | _ =>
            if next.modifiers.modMeta then pure (.defn .nil)
            else
              let metified : RawKey := ⟨next.keysym, next.modifiers.withMeta⟩
              let cmd := keymapLookupRaw s k metified
              if rest = [] then pure (.defn cmd)
              else
                match cmd with
                | .keymap cmd => rawLookupKey rest (keysSoFar + 2) cmd
                | _ => pure (.defn .nil)
        else
          match keymapLookupRaw s k key with
          | .nil => pure (.defn .nil)
          | .keymap cmd => rawLookupKey (next :: rest) (keysSoFar + 1) cmd
          | _ => pure (.tooLong (keysSoFar + 1)) : Command Keymaps Binding)
      pure (withDefault s k cmd).result
    let found ← traverseKeymaps id mapper fuel m []
    pure (found.getD (.defn .nil))
where
  /-- `if (accept_default && NILP (cmd)) cmd = XKEYMAP (k)->default_binding;` -/
  withDefault (s : Keymaps) (k : Nat) (cmd : Binding) : Binding :=
    if acceptDefault ∧ cmd = .defn .nil then .defn (s.map k).defaultBinding else cmd

/-- `Flookup_key`; a specifier that `define_key_parser` rejects is an error. -/
def lookupKey (m : Nat) (keys : KeySequence) : Command Keymaps Binding :=
  match keys.parse.mapM id with
  | none => Command.signal
  | some raws => rawLookupKey env acceptDefault fuel (raws.map KeyData.raw) 0 m

/-- `lookup_events`, for the keys of the events. -/
def lookupEvents (keys : List KeyData) : List Nat → Command Keymaps Def
  | [] => pure .nil
  | keymap :: keymaps => do
    match ← rawLookupKey env acceptDefault fuel (keys.map KeyData.raw) 0 keymap with
    | .tooLong _ => pure .nil
    | .defn d => if d = .nil then lookupEvents keys keymaps else pure d

end lookup

/-! ### `accessible-keymaps` -/

/-- The list of `accessible-keymaps`, cut at `closure->tail`, whose first element is the one at
work. -/
structure Accessible where
  keymaps : Keymaps
  done : List (List KeyData × Nat)
  tail : List (List KeyData × Nat)

/-- Work on the keymaps. -/
def onKeymaps {α : Type} (x : Command Keymaps α) : Command Accessible α := fun s =>
  match x s.keymaps with
  | .diverges => .diverges
  | .aborts => .aborts
  | .signals k => .signals { s with keymaps := k }
  | .returns a k => .returns a { s with keymaps := k }

section accessible

variable (before : Key → Key → Bool)

def accessibleKeymapsMapper1 : Nat → Key × Nat → Modifiers → Command Accessible Unit
  | 0, _, _ => Command.diverge
  | fuel + 1, (.modifiers subbits, contents), modifiers => do
    let submaps ← onKeymaps (keymapSubmaps before contents)
    submaps.forM fun e => accessibleKeymapsMapper1 fuel e (subbits.or modifiers)
  | _ + 1, (.keysym keysym, contents), modifiers =>
    Command.modify fun s =>
      let thisseq := (s.tail.head?.map Prod.fst).getD []
      { s with tail := s.tail ++ [(thisseq ++ [⟨keysym, modifiers⟩], contents)] }

def accessibleKeymapsKeymapMapper (fuel : Nat) (thismap : Nat) :
    Command Accessible (Option Unit) := do
  let submaps ← onKeymaps (keymapSubmaps before thismap)
  submaps.forM fun e => accessibleKeymapsMapper1 before fuel e .none
  pure none

/-- The loop of `Faccessible_keymaps`, which adds to the list it runs through. -/
def accessibleLoop (fuel : Nat) : Nat → Command Accessible Unit
  | 0 => Command.diverge
  | rounds + 1 => do
    let s ← Command.state
    match s.tail with
    | [] => pure ()
    | (_, thismap) :: _ => do
      let _ ← traverseKeymaps Accessible.keymaps (accessibleKeymapsKeymapMapper before fuel) fuel
        thismap []
      Command.modify fun s => { s with done := s.done ++ s.tail.take 1, tail := s.tail.tail }
      accessibleLoop fuel rounds

/-- `Faccessible_keymaps` with the prefix nil. -/
def accessibleKeymaps (fuel : Nat) (keymap : Nat) : Command Keymaps (List (List KeyData × Nat)) :=
  fun s =>
    match accessibleLoop before fuel fuel ⟨s, [], [([], keymap)]⟩ with
    | .diverges => .diverges
    | .aborts => .aborts
    | .signals a => .signals a.keymaps
    | .returns _ a => .returns a.done a.keymaps

end accessible

/-! ### `where-is-internal` -/

section whereIs

-- `charp` says which objects are characters.
variable (env : KeyEnv) (before : Key → Key → Bool) (fuel : Nat) (charp : Def → Bool)
  (definition : Def) (firstonly : Bool)

/-- A binding in a shadowing keymap that is not nil, a character or the definition hides a key. -/
def Binding.passes (b : Binding) : Bool :=
  match b with
  | .defn d => d = .nil || charp d || d = definition
  | .tooLong _ => false

/-- The loop over the shadowing keymaps. -/
def isShadowed (keys : List RawKey) : List Nat → Command Keymaps Bool
  | [] => pure false
  | map :: shadow => do
    let shadowed ← rawLookupKey env true fuel keys 0 map
    if shadowed.passes charp definition then isShadowed keys shadow else pure true

/-- The loop over the keys that match; `keys_so_far` are those of the keymap. -/
def matchingKeys (shadow : List Nat) (keysSoFar : List RawKey) (modifiersSoFar : Modifiers) :
    List Key → List (List RawKey) → Command Keymaps (List (List RawKey))
  | [], result => pure result
  | k :: keys, result => do
    let soFar := keysSoFar ++ [⟨k, modifiersSoFar⟩]
    let shadowed ← isShadowed env fuel charp definition soFar shadow
    if shadowed then matchingKeys shadow keysSoFar modifiersSoFar keys result
    else if firstonly then pure [soFar]
    else matchingKeys shadow keysSoFar modifiersSoFar keys (soFar :: result)

/-- What is found below the elements of a list goes in front; with `firstonly`, the first that is
found is all. -/
def collect {α : Type} (f : α → Command Keymaps (List (List RawKey))) :
    List α → List (List RawKey) → Command Keymaps (List (List RawKey))
  | [], result => pure result
  | a :: l, result => do
    let lower ← f a
    if !firstonly then collect f l (lower ++ result)
    else if lower ≠ [] then pure lower
    else collect f l result

/-- The keys so far, and the modifiers so far, of a submap. -/
def lowerKeys (key : Key) (keysSoFar : List RawKey) (modifiersSoFar : Modifiers) :
    List RawKey × Modifiers :=
  let further := (keysSoFar ++ [⟨key, modifiersSoFar⟩], Modifiers.none)
  match key with
  | .keysym _ => further
  | .modifiers bucky => if bucky = .none then further else (keysSoFar, modifiersSoFar.or bucky)

/-- `where_is_recursive_mapper` up to the submaps. -/
def whereIsKeys (shadow : List Nat) (keysSoFar : List RawKey) (modifiersSoFar : Modifiers)
    (map : Nat) : Command Keymaps (List (List RawKey)) := do
  let s ← Command.state
  match (s.map map).inverseTable.lookup definition with
  | none => pure []
  | some keys =>
    match s.cells.spell fuel keys with
    | none => Command.diverge
    | some keys =>
      matchingKeys env fuel charp definition firstonly shadow keysSoFar modifiersSoFar keys []

/-- `where_is_recursive_mapper`; nil where it finds no key. -/
def whereIsRecursiveMapper (shadow : List Nat) :
    Nat → List RawKey → Modifiers → Nat → Command Keymaps (Option (List (List RawKey)))
  | 0, _, _, _ => Command.diverge
  | rounds + 1, keysSoFar, modifiersSoFar, map => do
    let found ← whereIsKeys env fuel charp definition firstonly shadow keysSoFar modifiersSoFar map
    if firstonly ∧ found ≠ [] then pure (some found)
    else do
      let submaps ← keymapSubmaps before map
      let result ← collect firstonly (fun e => do
        let (key, submap) := e
        if submap = map then pure []
        else do
          let (keys, modifiers) := lowerKeys key keysSoFar modifiersSoFar
          -- the first buffer, of 20 keys, is on the stack, and is given to `xfree`
          if 20 ≤ keys.length then Command.abort
          else do
            let lower ← traverseKeymaps id (whereIsRecursiveMapper shadow rounds keys modifiers)
              fuel submap []
            pure (lower.getD [])) submaps found
      pure (if result = [] then none else some result)

/-- The loop over the keymaps; those searched before shadow the next one. -/
def whereIsLoop : List Nat → List Nat → List (List RawKey) →
    Command Keymaps (List (List RawKey))
  | _, [], result => pure result
  | shadow, map :: maps, result => do
    let found ← traverseKeymaps id (whereIsRecursiveMapper env before fuel charp definition
      firstonly shadow fuel [] .none) fuel map []
    let thisResult := found.getD []
    if firstonly then
      if thisResult ≠ [] then pure thisResult
      else whereIsLoop (shadow ++ [map]) maps []
    else whereIsLoop (shadow ++ [map]) maps (thisResult ++ result)

/-- `where_is_internal`, without a target buffer. -/
def whereIsInternal (maps : List Nat) : Command Keymaps (List (List RawKey)) := do
  let result ← whereIsLoop env before fuel charp definition firstonly [] maps []
  pure (if firstonly then result else result.reverse)

variable (keymap : Nat) (others : List Nat)

/-- The loop of `Fwhere_is_internal` over KEYMAPS, a list of `keymap` and others: the elements of
`gubbish`, which has `room` left. The rest of the list is always taken from its beginning. -/
def keymapsAsArray : Nat → List Nat → Command Keymaps (List Nat)
  | _, [] => pure []
  | 0, _ :: _ => Command.abort
  | room + 1, _ :: _ => do
    let gubbish ← keymapsAsArray room others
    pure (keymap :: gubbish)

/-- `Fwhere_is_internal` for a list of keymaps. -/
def fwhereIsInternal : Command Keymaps (List (List RawKey)) := do
  let gubbish ← keymapsAsArray keymap others (max 100 (others.length + 1)) (keymap :: others)
  whereIsInternal env before fuel charp definition firstonly gubbish

end whereIs

end XEmacs.Keymap
