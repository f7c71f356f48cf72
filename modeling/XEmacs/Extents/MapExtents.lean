import XEmacs.Extents.Attach
import XEmacs.Extents.Objects

/-!
# Mapping over extents (extents.c)

`map_extents` calls a function on the extents that overlap a region. Where extents and region
have open endpoints they are moved by half a position (`extentInRegionP`). The extents are looked
for in one or two stages.
-/

namespace XEmacs.Extents

open GapArrays KeyedLists

/-! ## Flags -/

/-- The flags `ME_ALL_EXTENTS_*`. -/
inductive AllExtents where
  | closed
  | opened
  | closedOpen
  | openClosed
  deriving DecidableEq

/-- The flags `ME_*_IN_REGION`. -/
inductive InRegion where
  | start
  | stop
  | startAndStop
  | startOrStop
  deriving DecidableEq

/-- The flags `ME_*`. Of each mask at most one flag is given. -/
structure MapFlags where
  endClosed : Bool
  startOpen : Bool
  allExtents : Option AllExtents
  inRegion : Option InRegion
  negateInRegion : Bool
  includeInternal : Bool
  mightModifyText : Bool
  mightModifyExtents : Bool
  mightMoveSoe : Bool
  deriving DecidableEq

/-! ## Overlap -/

variable {ι : Type}

namespace ExtentInfo

/-- `extent_start_open_p`. An extent has the flags of its ancestor. -/
def startOpenP (info : ExtentInfo ι) (extent : ι) : Bool :=
  (info.heap (info.ancestor extent)).startOpen

/-- `extent_end_open_p`. -/
def endOpenP (info : ExtentInfo ι) (extent : ι) : Bool :=
  (info.heap (info.ancestor extent)).endOpen

/-- `extent_detachable_p`. -/
def detachableP (info : ExtentInfo ι) (extent : ι) : Bool :=
  (info.heap (info.ancestor extent)).detachable

/-- `extent_internal_p`. -/
def internalP (info : ExtentInfo ι) (extent : ι) : Bool :=
  (info.heap (info.ancestor extent)).internal

end ExtentInfo

def memindToStartind (x : Int) (startOpen : Bool) : Int := 2 * x + if startOpen then 1 else 0

def memindToEndind (x : Int) (endOpen : Bool) : Int := 2 * x - if endOpen then 1 else 0

/-- The openness of both ends that `extent_in_region_p` takes for that of the extent. -/
def openness (info : ExtentInfo ι) (extent : ι) (allExtents : Option AllExtents) : Bool × Bool :=
  let e := info.heap extent
  -- a zero-length extent is closed
  if e.extentStart = e.extentEnd then (false, false)
  else
    match allExtents with
    | none => (info.startOpenP extent, info.endOpenP extent)
    | some .closed => (false, false)
    | some .opened => (true, true)
    | some .closedOpen => (false, true)
    | some .openClosed => (true, false)

/-- `extent_in_region_p`, of the region from `frm` to `upTo`. -/
def extentInRegionP (obj : BufferOrString) (info : ExtentInfo ι) (extent : ι) (frm upTo : Nat)
    (flags : MapFlags) : Bool :=
  -- a zero-length region is closed
  let endClosed := flags.endClosed || frm == upTo
  let startOpen := flags.startOpen && frm != upTo
  let (extentStartOpen, extentEndOpen) := openness info extent flags.allExtents
  let start := memindToStartind (obj.bytindToMemind frm) startOpen
  let stop := memindToEndind (obj.bytindToMemind upTo) !endClosed
  let exs := memindToStartind (info.heap extent).extentStart extentStartOpen
  let exe := memindToEndind (info.heap extent).extentEnd extentEndOpen
  if stop < exs ∨ exe < start then false
  else
    let retval : Bool :=
      match flags.inRegion with
      | none => true
      | some .start => start ≤ exs && exs ≤ stop
      | some .stop => start ≤ exe && exe ≤ stop
      | some .startAndStop => start ≤ exs && exe ≤ stop
      | some .startOrStop => (start ≤ exs && exs ≤ stop) || (start ≤ exe && exe ≤ stop)
    if flags.negateInRegion then !retval else retval

/-! ## Markers in lists -/

/-- A name that no tracked position has. -/
def freshName (t : TrackedList ι) : Nat := (t.positions.map Prod.fst).foldr max 0 + 1

/-- The position under a name. -/
def markerPos (t : TrackedList ι) (m : Nat) : Option Nat := t.positions.lookup m

def untrack (t : TrackedList ι) (m : Nat) : TrackedList ι :=
  { t with positions := t.positions.filter fun p => p.1 != m }

/-- One of the arrays changed. -/
def ExtentList.modify (el : ExtentList ι) (endp : Bool) (f : TrackedList ι → TrackedList ι) :
    ExtentList ι :=
  if endp then { el with byEnd := f el.byEnd } else { el with byStart := f el.byStart }

/-- The list of the SOE or that of all extents. -/
def ExtentInfo.list (info : ExtentInfo ι) (onSoe : Bool) : ExtentList ι :=
  if onSoe then info.soe.extents else info.extents

/-- One of the arrays of one of the lists changed. -/
def ExtentInfo.modify (info : ExtentInfo ι) (onSoe endp : Bool)
    (f : TrackedList ι → TrackedList ι) : ExtentInfo ι :=
  if onSoe then { info with soe := { info.soe with extents := info.soe.extents.modify endp f } }
  else { info with extents := info.extents.modify endp f }

/-! ## The loop -/

/-- A function mapped over extents, with its argument: what it makes of the extents and of the
argument, and whether the mapping is to stop. -/
abbrev MapFun (ι α : Type) := ι → ExtentInfo ι → α → Option (ExtentInfo ι × α × Bool)

/-- What changes during the mapping. -/
structure MapState (ι α : Type) where
  info : ExtentInfo ι
  after : Option ι
  st : Int
  en : Int
  arg : α

/-- What does not change in the loop: `onSoe` in the SOE stage, `posm` the marker if there is
one. -/
structure MapLoop (ι α : Type) where
  obj : BufferOrString
  fn : MapFun ι α
  flags : MapFlags
  range : Option ι
  onSoe : Bool
  rangeEndp : Bool
  posm : Option Nat

/-- How one round of the loop ends. -/
inductive Round (ι α : Type) where
  | goOn (s : MapState ι α) (pos : Nat)
  | ended (s : MapState ι α)
  | stopped (s : MapState ι α)

variable {α : Type}

namespace MapLoop

variable [DecidableEq ι] (c : MapLoop ι α)

/-- The array that is mapped over. -/
def array (s : MapState ι α) : TrackedList ι := (s.info.list c.onSoe).array c.rangeEndp

/-- Where the loop is: the marker tracks insertions and deletions. -/
def position (s : MapState ι α) (pos : Nat) : Option Nat :=
  c.posm.elim (some pos) fun m => markerPos (c.array s) m

/-- The marker pointed to the next extent that will be processed. -/
def moveMarker (s : MapState ι α) (pos : Nat) : MapState ι α :=
  c.posm.elim s fun m => { s with info := s.info.modify c.onSoe c.rangeEndp (·.move m pos) }

/-- The internal extents that are passed over. -/
def skipsInternal (info : ExtentInfo ι) (e : ι) : Bool :=
  info.internalP e && (!c.flags.includeInternal || some e == c.range)

/-- The region, which the range extent tracks if there is one. -/
def fetchRange (s : MapState ι α) : MapState ι α :=
  c.range.elim s fun r =>
    { s with st := (s.info.heap r).extentStart, en := (s.info.heap r).extentEnd }

/-- One round, with the extent `e`. -/
def process (s : MapState ι α) (pos : Nat) (e : ι) : Option (Round ι α) :=
  if c.skipsInternal s.info e then some (.goOn s pos)
  else if s.after.any fun a => !(s.info.heap a).less (s.info.heap e) then some (.goOn s pos)
  else
    let s := c.fetchRange { s with after := none }
    if s.en < (s.info.heap e).endpoint c.rangeEndp then
      -- in the SOE stage all extents start at `st` or before it
      if c.onSoe then none else some (.ended s)
    else if extentInRegionP c.obj s.info e (c.obj.memindToBytind s.st).toNat
        (c.obj.memindToBytind s.en).toNat c.flags then
      (c.fn e s.info s.arg).map fun (info, arg, stop) =>
        let s := { s with info, arg }
        if stop then .stopped s else .goOn s pos
    else some (.goOn s pos)

/-- One round of the loop. -/
def round (s : MapState ι α) (pos : Nat) : Option (Round ι α) :=
  (c.position s pos).bind fun pos =>
  match (c.array s).els[pos]? with
  | none => some (.ended s)
  | some e => c.process (c.moveMarker s (pos + 1)) (pos + 1) e

/-- The loop, and whether the function stopped it. -/
def loop : Nat → MapState ι α → Nat → Option (MapState ι α × Bool)
  | 0, _, _ => none
  | fuel + 1, s, pos =>
    (c.round s pos).bind fun
    | .goOn s pos => loop fuel s pos
    | .ended s => some (s, false)
    | .stopped s => some (s, true)

/-- A stage from a position in its list. The marker of the SOE stage is deleted when the next
stage begins. -/
def stage (fuel : Nat) (s : MapState ι α) (pos : Nat) : Option (MapState ι α × Bool) :=
  if c.flags.mightModifyExtents then
    let m := freshName (c.array s)
    let tracked := s.info.modify c.onSoe c.rangeEndp (·.track m pos)
    (loop { c with posm := some m } fuel { s with info := tracked } pos).map fun (s, stop) =>
      ({ s with info := s.info.modify c.onSoe c.rangeEndp (untrack · m) }, stop)
  else loop { c with posm := none } fuel s pos

end MapLoop

/-! ## The mapping -/

/-- Where the range stage begins (`range_start_type`): with the extents at the start of the
region, behind it, or at a position in the list. -/
inductive RangeStart where
  | including
  | excluding
  | pos (n : Nat)

/-- What is mapped over. -/
structure MapPlan where
  doSoeStage : Bool
  rangeEndp : Bool
  rangeStart : RangeStart

section mapping

variable [DecidableEq ι]

/-- Where the mapping starts and in which order it goes. The SOE is moved to the start of the
region if it is needed. -/
def planMap (info : ExtentInfo ι) (st : Int) (flags : MapFlags) :
    Option (ExtentInfo ι × MapPlan) :=
  if (flags.inRegion = some .start ∨ flags.inRegion = some .startAndStop) ∧
      !flags.negateInRegion then
    some (info, ⟨false, false, .including⟩)
  else if flags.inRegion = some .stop ∧ !flags.negateInRegion then
    some (info, ⟨false, true, .including⟩)
  else
    (soeMove info st).bind fun info =>
    if info.soe.extents.numEls = 0 then some (info, ⟨false, false, .including⟩)
    else if flags.mightMoveSoe then
      -- the SOE cannot be mapped over, so the range is extended to cover it
      (extentListAt info.soe.extents 0 false).bind fun e =>
      let (pos, foundp) := extentListLocate info.heap info.extents (info.heap e) (some e) false
      if foundp then some (info, ⟨false, false, .pos pos⟩) else none
    else some (info, ⟨true, false, .excluding⟩)

/-- The position at which the range stage begins. -/
def RangeStart.position (info : ExtentInfo ι) (st : Int) (rangeEndp : Bool) : RangeStart → Nat
  | .including => extentListLocateFromPos info.heap info.extents st rangeEndp
  | .excluding => extentListLocateFromPos info.heap info.extents (st + 1) rangeEndp
  | .pos n => n

def mapStages (obj : BufferOrString) (fn : MapFun ι α) (flags : MapFlags) (range : Option ι)
    (fuel : Nat) (plan : MapPlan) (s : MapState ι α) : Option (MapState ι α) :=
  let c : MapLoop ι α := ⟨obj, fn, flags, range, true, plan.rangeEndp, none⟩
  (if plan.doSoeStage then c.stage fuel s 0 else some (s, false)).bind fun (s, stop) =>
  if stop then some s
  else
    ({ c with onSoe := false }.stage fuel s
      (plan.rangeStart.position s.info s.st plan.rangeEndp)).map Prod.fst

/-- The internal extent for the region, made with the name `range` and attached. -/
def attachRange (info : ExtentInfo ι) (range : ι) (st en : Int) (flags : MapFlags) :
    Option (ExtentInfo ι) :=
  let e : Extent := ⟨st, en, flags.startOpen, !flags.endClosed, false, true⟩
  extentAttach { info with
    heap := Function.update info.heap range e
    ancestor := Function.update info.ancestor range range } range

/-- `map_extents_bytind`, over the region from `frm` to `upTo`. The next extent that is allocated
is `newExtent`. -/
def mapExtentsBytind (fuel : Nat) (obj : BufferOrString) (newExtent : ι) (info : ExtentInfo ι)
    (frm upTo : Nat) (fn : MapFun ι α) (arg : α) (after : Option ι) (flags : MapFlags) :
    Option (ExtentInfo ι × α) :=
  if info.extents.numEls = 0 then some (info, arg)
  else
    let st := obj.bytindToMemind frm
    let en := obj.bytindToMemind upTo
    let range := if flags.mightModifyText then some newExtent else none
    (range.elim (some info) fun r => attachRange info r st en flags).bind fun info =>
    (planMap info st flags).bind fun (info, plan) =>
    (mapStages obj fn flags range fuel plan ⟨info, after, st, en, arg⟩).bind fun s =>
    (range.elim (some s.info) fun r => extentDetach s.info r).map fun info => (info, s.arg)

end mapping

end XEmacs.Extents
