import XEmacs.Extents.MapLoops

/-!
# The visits of `map_extents` (extents.c)

If the function called leaves the extents and the text alone, then each stage calls it on a part
of its array that can be told beforehand, one extent after the other until it says to stop
(`MapLoop.stage_visits`).
-/

namespace XEmacs.Extents

open GapArrays KeyedLists List

variable {ι α : Type}

/-- A function called on one extent after the other, until it says to stop. -/
def runUntil (f : ι → α → α × Bool) (arg : α) : List ι → α × Bool
  | [] => (arg, false)
  | e :: es => if (f e arg).2 then f e arg else runUntil f (f e arg).1 es

theorem runUntil_append (f : ι → α → α × Bool) (arg : α) (l₁ l₂ : List ι) :
    runUntil f arg (l₁ ++ l₂) =
      if (runUntil f arg l₁).2 then runUntil f arg l₁ else runUntil f (runUntil f arg l₁).1 l₂ := by
  induction l₁ generalizing arg with
  | nil => rfl
  | cons e l₁ ih =>
    rw [cons_append, runUntil, runUntil]
    by_cases hstop : (f e arg).2 = true
    · rw [if_pos hstop, if_pos hstop, if_pos hstop]
    · rw [if_neg hstop, if_neg hstop, ih]

namespace ExtentInfo

/-- The mapping is to see the extent. -/
def seen (info : ExtentInfo ι) (flags : MapFlags) (e : ι) : Bool :=
  flags.includeInternal || !info.internalP e

/-- The extent is behind AFTER in the display order, if AFTER is given. -/
def follows (info : ExtentInfo ι) (after : Option ι) (e : ι) : Bool :=
  after.all fun a => (info.heap a).less (info.heap e)

/-- The same extents in the same lists, and the SOE has not been moved unless that was said. -/
structure Steady (flags : MapFlags) (info info' : ExtentInfo ι) : Prop where
  heap : info'.heap = info.heap
  ancestor : info'.ancestor = info.ancestor
  extents : info.extents.Alike info'.extents
  sound : info'.Sound
  pos : flags.mightMoveSoe = false → info'.soe.pos = info.soe.pos

variable {flags : MapFlags} {info info' info'' : ExtentInfo ι}

theorem Steady.alike (hs : info.Steady flags info') (h : info'.Alike info'') :
    info.Steady flags info'' :=
  ⟨h.heap.trans hs.heap, h.ancestor.trans hs.ancestor, hs.extents.trans h.extents,
    h.sound hs.sound, fun hflag => h.pos.trans (hs.pos hflag)⟩

theorem inRegion_congr {e : ι} (hheap : info'.heap e = info.heap e)
    (hancestor : info'.heap (info'.ancestor e) = info.heap (info.ancestor e))
    (obj : BufferOrString) (frm upTo : Nat) (flags : MapFlags) :
    extentInRegionP obj info' e frm upTo flags = extentInRegionP obj info e frm upTo flags := by
  have hopen : openness info' e flags.allExtents = openness info e flags.allExtents := by
    simp only [openness, startOpenP, endOpenP]
    rw [hheap, hancestor]
  simp only [extentInRegionP]
  rw [hheap, hopen]

end ExtentInfo

/-! ## A stage -/

namespace MapLoop

open ExtentInfo

variable [DecidableEq ι] {c : MapLoop ι α} {f : ι → α → α × Bool} {info : ExtentInfo ι}
  {s : MapState ι α} {pos : Nat}

/-- The function leaves the extents alone. -/
def Calls (c : MapLoop ι α) (info : ExtentInfo ι) (f : ι → α → α × Bool) : Prop :=
  ∀ e ∈ info.extents.byStart.els, c.skipsInternal info e = false →
    ∀ info', info.Steady c.flags info' → ∀ arg, ∃ soe,
      c.fn e info' arg = some ({ info' with soe := soe }, f e arg) ∧
      info.Steady c.flags { info' with soe := soe } ∧
      (c.flags.mightMoveSoe = false → soe = info'.soe)

/-- The extents of a list that a stage calls the function on. -/
def visits (c : MapLoop ι α) (info : ExtentInfo ι) (st en : Int) (after : Option ι)
    (els : List ι) : List ι :=
  (((els.filter fun e => !c.skipsInternal info e).dropWhile
    fun e => !info.follows after e).takeWhile
    fun e => (info.heap e).endpoint c.rangeEndp ≤ en).filter
    fun e => extentInRegionP c.obj info e (c.obj.memindToBytind st).toNat
      (c.obj.memindToBytind en).toNat c.flags

omit [DecidableEq ι] in
theorem dropWhile_follows_none (info : ExtentInfo ι) (els : List ι) :
    els.dropWhile (fun e => !info.follows none e) = els := by
  cases els with
  | nil => rfl
  | cons e els => exact dropWhile_cons_of_neg (by simp [follows])

theorem visits_cons (c : MapLoop ι α) (info : ExtentInfo ι) (st en : Int) (after : Option ι)
    (e : ι) (rest : List ι) :
    c.visits info st en after (e :: rest) =
      if c.skipsInternal info e then c.visits info st en after rest
      else if info.follows after e then
        if (info.heap e).endpoint c.rangeEndp ≤ en then
          if extentInRegionP c.obj info e (c.obj.memindToBytind st).toNat
              (c.obj.memindToBytind en).toNat c.flags then
            e :: c.visits info st en none rest
          else c.visits info st en none rest
        else []
      else c.visits info st en after rest := by
  simp only [visits, dropWhile_follows_none]
  cases hskip : c.skipsInternal info e with
  | true => rw [if_pos rfl, filter_cons_of_neg (by rw [hskip]; decide)]
  | false =>
    rw [if_neg Bool.false_ne_true, filter_cons_of_pos (by rw [hskip]; rfl)]
    cases hfollows : info.follows after e with
    | false =>
      rw [if_neg Bool.false_ne_true, dropWhile_cons_of_pos (by rw [hfollows]; rfl)]
    | true =>
      rw [if_pos rfl, dropWhile_cons_of_neg (by rw [hfollows]; decide), takeWhile_cons]
      by_cases hen : (info.heap e).endpoint c.rangeEndp ≤ en
      · rw [if_pos hen, decide_eq_true hen, if_pos rfl, filter_cons]
      · rw [if_neg hen, decide_eq_false hen]
        rfl

/-- How far the loop of a stage is: what is left to be called gives the result. -/
structure Going (c : MapLoop ι α) (info : ExtentInfo ι) (f : ι → α → α × Bool)
    (s₀ : MapState ι α) (els : List ι) (r : α × Bool) (rest : List ι) (s : MapState ι α) :
    Prop where
  steady : info.Steady c.flags s.info
  st : s.st = s₀.st
  en : s.en = s₀.en
  calls : runUntil f s.arg (c.visits info s.st s.en s.after rest) = r
  after : s.after = s₀.after ∨ s.after = none ∧ ∃ e ∈ els, info.follows s₀.after e = true
  rest : rest <:+ els

/-- How a stage ends. -/
structure Gone (flags : MapFlags) (info : ExtentInfo ι) (s₀ : MapState ι α) (els : List ι)
    (r : α × Bool) (s : MapState ι α) (stop : Bool) : Prop where
  steady : info.Steady flags s.info
  st : s.st = s₀.st
  en : s.en = s₀.en
  result : (s.arg, stop) = r
  after : s.after = s₀.after ∨ s.after = none ∧ ∃ e ∈ els, info.follows s₀.after e = true

section round

variable {els done rest : List ι} {s₀ : MapState ι α} {r : α × Bool} {e : ι}

theorem process_eq (hs : info.Steady c.flags s.info) (hrange : ∀ x, c.range = some x →
      (info.heap x).extentStart = s.st ∧ (info.heap x).extentEnd = s.en) :
    c.process s pos e =
      if c.skipsInternal info e then some (.goOn s pos)
      else if info.follows s.after e then
        let s := { s with after := none }
        if (info.heap e).endpoint c.rangeEndp ≤ s.en then
          if extentInRegionP c.obj info e (c.obj.memindToBytind s.st).toNat
              (c.obj.memindToBytind s.en).toNat c.flags then
            (c.fn e s.info s.arg).map fun (info, arg, stop) =>
              let s := { s with info, arg }
              if stop then .stopped s else .goOn s pos
          else some (.goOn s pos)
        else if c.onSoe then none else some (.ended s)
      else some (.goOn s pos) := by
  have hskip : c.skipsInternal s.info e = c.skipsInternal info e := by
    rw [skipsInternal, skipsInternal, internalP, internalP, hs.heap, hs.ancestor]
  have hafter : (s.after.any fun a => !(info.heap a).less (info.heap e))
      = !info.follows s.after e := by
    rw [follows]
    cases s.after <;> rfl
  have hfetch : c.fetchRange { s with after := none } = { s with after := none } := by
    rw [fetchRange]
    cases hx : c.range with
    | none => rfl
    | some x => rw [Option.elim_some, hs.heap, (hrange x hx).1, (hrange x hx).2]
  have hregion := fun frm upTo => inRegion_congr (e := e) (congrFun hs.heap e)
    (by rw [hs.heap, hs.ancestor]) c.obj frm upTo c.flags
  simp only [process, hskip, hfetch, hregion, hs.heap, hafter]
  cases info.follows s.after e
  · rfl
  · by_cases hen : (info.heap e).endpoint c.rangeEndp ≤ s.en
    · simp only [if_pos hen, if_neg (Int.not_lt.mpr hen)]
      rfl
    · simp only [if_neg hen, if_pos (Int.not_le.mp hen)]
      rfl

/-- The extents that a stage goes through. -/
structure Through (c : MapLoop ι α) (info : ExtentInfo ι) (s₀ : MapState ι α) (els : List ι) :
    Prop where
  mem : ∀ e ∈ els, e ∈ info.extents.byStart.els
  range : ∀ x, c.range = some x →
    (info.heap x).extentStart = s₀.st ∧ (info.heap x).extentEnd = s₀.en
  soe : c.onSoe = true →
    c.flags.mightMoveSoe = false ∧ ∀ e ∈ els, (info.heap e).endpoint c.rangeEndp ≤ s₀.en

theorem Going.alike {info' : ExtentInfo ι} (hg : c.Going info f s₀ els r rest s)
    (h : s.info.Alike info') : c.Going info f s₀ els r rest { s with info := info' } :=
  ⟨hg.steady.alike h, hg.st, hg.en, hg.calls, hg.after, hg.rest⟩

/-- **A round** of a stage. -/
theorem Through.round (ht : c.Through info s₀ els) (hcalls : c.Calls info f) (rest : List ι)
    (s : MapState ι α) (pos : Nat)
    (hI : c.Going info f s₀ els r rest s ∧ ∃ done, c.At s pos done rest) :
    ∃ x, c.round s pos = some x ∧
      x.Leads (fun rest s pos => c.Going info f s₀ els r rest s ∧ ∃ done, c.At s pos done rest)
        (Gone c.flags info s₀ els r) rest := by
  obtain ⟨hg, done, hat⟩ := hI
  cases rest with
  | nil => exact ⟨_, hat.round_nil, hg.steady, hg.st, hg.en, hg.calls, hg.after⟩
  | cons e rest =>
    have hmoved := hat.moved
    have hg := hg.alike (alike_moveMarker c s (done.length + 1))
    rw [← moveMarker_eq] at hg
    rw [hat.round_cons]
    generalize c.moveMarker s (done.length + 1) = s at hmoved hg ⊢
    obtain ⟨hsteady, hst, hen, hcall, hafter, hsuffix⟩ := hg
    have hrest := (suffix_cons e rest).trans hsuffix
    have he := hsuffix.mem (mem_cons_self ..)
    rw [process_eq hsteady (by rw [hst, hen]; exact ht.range)]
    rw [visits_cons] at hcall
    cases hskip : c.skipsInternal info e with
    | true =>
      rw [hskip, if_pos rfl] at hcall
      exact ⟨_, if_pos rfl, e, rest, rfl, ⟨hsteady, hst, hen, hcall, hafter, hrest⟩, _, hmoved⟩
    | false =>
      rw [hskip, if_neg Bool.false_ne_true] at hcall
      rw [if_neg Bool.false_ne_true]
      cases hfollows : info.follows s.after e with
      | false =>
        rw [hfollows, if_neg Bool.false_ne_true] at hcall
        exact ⟨_, if_neg Bool.false_ne_true, e, rest, rfl,
          ⟨hsteady, hst, hen, hcall, hafter, hrest⟩, _, hmoved⟩
      | true =>
        rw [hfollows, if_pos rfl] at hcall
        rw [if_pos rfl]
        have hafter' : (none : Option ι) = s₀.after ∨
            (none : Option ι) = none ∧ ∃ e ∈ els, info.follows s₀.after e = true := by
          rcases hafter with hafter | hafter
          · exact Or.inr ⟨rfl, e, he, hafter ▸ hfollows⟩
          · exact Or.inr ⟨rfl, hafter.2⟩
        by_cases hend : (info.heap e).endpoint c.rangeEndp ≤ s.en
        · rw [if_pos hend] at hcall
          simp only [if_pos hend]
          cases hregion : extentInRegionP c.obj info e (c.obj.memindToBytind s.st).toNat
              (c.obj.memindToBytind s.en).toNat c.flags with
          | false =>
            rw [hregion, if_neg Bool.false_ne_true] at hcall
            exact ⟨_, if_neg Bool.false_ne_true, e, rest, rfl,
              ⟨hsteady, hst, hen, hcall, hafter', hrest⟩, _, hmoved.congr rfl⟩
          | true =>
            obtain ⟨soe, hfn, hsteady', hsoe⟩ :=
              hcalls e (ht.mem e he) hskip s.info hsteady s.arg
            rw [hregion, if_pos rfl, runUntil] at hcall
            rw [if_pos rfl, hfn]
            cases hstop : (f e s.arg).2 with
            | true =>
              rw [hstop, if_pos rfl] at hcall
              refine ⟨.stopped _, congrArg some (if_pos hstop), hsteady', hst, hen, ?_, hafter'⟩
              rw [← hcall, ← hstop]
            | false =>
              rw [hstop, if_neg Bool.false_ne_true] at hcall
              refine ⟨.goOn _ _, congrArg some (if_neg (by rw [hstop]; decide)), e, rest, rfl,
                ⟨hsteady', hst, hen, hcall, hafter', hrest⟩, _, hmoved.congr ?_⟩
              -- the array is not the SOE's if the function moves the SOE
              show (ExtentInfo.list { s.info with soe := soe } c.onSoe).array c.rangeEndp
                = (s.info.list c.onSoe).array c.rangeEndp
              cases honSoe : c.onSoe with
              | false => rfl
              | true => rw [hsoe (ht.soe honSoe).1]
        · rw [if_neg hend] at hcall
          simp only [if_neg hend]
          cases honSoe : c.onSoe with
          | false => exact ⟨_, if_neg Bool.false_ne_true, hsteady, hst, hen, hcall, hafter'⟩
          | true => exact absurd (hen ▸ (ht.soe honSoe).2 e he) hend

/-- **A stage** calls the function on the extents it visits. -/
theorem stage_visits (hcalls : c.Calls info f) (hs : info.Steady c.flags s.info)
    (hpos : pos ≤ (c.array s).els.length) (ht : c.Through info s ((c.array s).els.drop pos))
    {fuel : Nat} (hfuel : (c.array s).els.length - pos < fuel) :
    ∃ s' stop, c.stage fuel s pos = some (s', stop) ∧
      Gone c.flags info s ((c.array s).els.drop pos) (runUntil f s.arg
        (c.visits info s.st s.en s.after ((c.array s).els.drop pos))) s' stop := by
  refine stage_of_loop hpos (fun posm info' _ halike hat => ?_) fun s' info' stop hgone halike => ?_
  · have ht' : MapLoop.Through { c with posm := posm } info s ((c.array s).els.drop pos) :=
      ⟨ht.mem, ht.range, ht.soe⟩
    refine loop_of_round (s := { s with info := info' }) (ht'.round hcalls) _
      ⟨⟨hs.alike halike, rfl, rfl, rfl, Or.inl rfl, suffix_refl _⟩, _, hat⟩ ?_
    rwa [length_drop]
  · exact ⟨hgone.steady.alike halike, hgone.st, hgone.en, hgone.result, hgone.after⟩

end round

end MapLoop

end XEmacs.Extents
