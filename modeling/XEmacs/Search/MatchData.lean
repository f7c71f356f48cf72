import Mathlib.Data.Int.Order.Basic
import Mathlib.Data.List.GetD
import Mathlib.Data.List.Induction

/-!
# Match data

`match-data` lists the search registers (`search_regs` in `search.c`), as markers or as integers,
and `store-match-data` puts such a list back.
-/

namespace XEmacs.Search

open List

/-- `search_regs.start[i]` and `search_regs.end[i]`. -/
structure Register where
  start : ℤ
  stop : ℤ
deriving DecidableEq, Repr

/-- What is in match data: nil, an integer, or a marker, with its buffer and position if it
points anywhere. -/
inductive Datum (β : Type) where
  | nil
  | int (n : ℤ)
  | marker (place : Option (β × ℤ))
deriving DecidableEq

/-- `last_thing_searched`. -/
inductive LastThing (β : Type) where
  | nil
  | t
  | buffer (b : β)

/-- The sizes of the buffers; a killed buffer has none. -/
abbrev Buffers (β : Type) := β → Option ℕ

/-- The search registers, with those that are saved while asynchronous code runs. -/
structure SearchState (β : Type) where
  searchRegs : List Register
  lastThingSearched : LastThing β
  runningAsynchCode : Bool
  savedSearchRegs : Option (List Register)

variable {β : Type}

namespace Datum

/-- `CHECK_INT_COERCE_MARKER`, after a marker that points nowhere has become `Qzero`. -/
def coerce : Datum β → Except (Datum β) ℤ
  | .nil => .error .nil
  | .int n => .ok n
  | .marker (some (_, n)) => .ok n
  | .marker none => .ok 0

/-- The position an element stands for: nil stands for none. -/
def position (d : Datum β) : Option ℤ :=
  d.coerce.toOption

/-- The buffer of a marker. -/
def markerBuffer : Datum β → Option β
  | .marker (some (b, _)) => some b
  | _ => none

end Datum

/-- `Fset_marker` of a new marker. -/
def setMarker (buffers : Buffers β) (b : β) (n : ℤ) : Datum β :=
  match buffers b with
  | none => .marker none
  | some size => .marker (some (b, min (max n 1) (size + 1)))

namespace SearchState

/-- The position of a register as an element of the match data. -/
def datum (buffers : Buffers β) (last : LastThing β) (integers : Bool) (n : ℤ) : Datum β :=
  match last with
  | .buffer b => if integers then .int n else setMarker buffers b n
  | _ => .int n

/-- The array `data` of `match-data`. -/
def data (buffers : Buffers β) (last : LastThing β) (integers : Bool) (regs : List Register) :
    List (Datum β) :=
  regs.flatMap fun reg =>
    if 0 ≤ reg.start then
      [datum buffers last integers reg.start, datum buffers last integers reg.stop]
    else [.nil, .nil]

/-- One more than `len`, the last register that is set. -/
def setCount (regs : List Register) : ℕ :=
  regs.zipIdx.foldl (fun count reg => if 0 ≤ reg.1.start then reg.2 + 1 else count) 0

/-- Elements are stored in the conses of `reuse` first. -/
def storeInReuse : List (Datum β) → List (Datum β) → List (Datum β)
  | [], data => data
  | _ :: reuse, [] => .nil :: storeInReuse reuse []
  | _ :: reuse, d :: data => d :: storeInReuse reuse data

def matchData (buffers : Buffers β) (integers : Bool) (reuse : List (Datum β))
    (s : SearchState β) : List (Datum β) :=
  match s.lastThingSearched with
  | .nil => []
  | last =>
    storeInReuse reuse ((data buffers last integers s.searchRegs).take
      (2 * setCount s.searchRegs))

def saveSearchRegs (s : SearchState β) : SearchState β :=
  match s.savedSearchRegs with
  | some _ => s
  | none => { s with savedSearchRegs := some s.searchRegs, searchRegs := [] }

/-- The loop of `Fstore_match_data` over the registers there have been. -/
def storeLoop : List Register → List (Datum β) → LastThing β →
    Except (Datum β) (List Register × LastThing β)
  | [], _, last => .ok ([], last)
  | reg :: regs, list, last =>
    match list.headD .nil with
    | .nil => do
      let (regs', last') ← storeLoop regs list.tail.tail last
      return ({ reg with start := -1 } :: regs', last')
    | marker => do
      let last := match marker.markerBuffer with
        | some b => .buffer b
        | none => last
      let start ← marker.coerce
      let stop ← (list.tail.headD .nil).coerce
      let (regs', last') ← storeLoop regs list.tail.tail last
      return (⟨start, stop⟩ :: regs', last')

/-- `Fstore_match_data`, of a list. `fresh` is what is in the memory that is allocated;
an error is of the type of the element. -/
def storeMatchData (fresh : ℕ → Register) (list : List (Datum β)) (s : SearchState β) :
    Except (Datum β) (SearchState β) := do
  let s := if s.runningAsynchCode then s.saveSearchRegs else s
  let length := list.length / 2
  let numRegs := s.searchRegs.length
  let grown := (List.range' numRegs (length - numRegs)).map fresh
  let (regs, last) ← storeLoop s.searchRegs list .t
  return { s with searchRegs := regs ++ grown, lastThingSearched := last }

/-! ### What match data is -/

section Data

variable {buffers : Buffers β} {last : LastThing β} {integers : Bool}

theorem datum_ne_nil (n : ℤ) : datum buffers last integers n ≠ .nil := by
  intro hnil
  cases last with
  | nil | t => cases hnil
  | buffer b =>
    rw [datum, setMarker] at hnil
    split_ifs at hnil
    split at hnil <;> cases hnil

/-- The list `l` shows `regs`: two elements for each register, nil if it is not set, and
nil behind them. -/
structure Shows (buffers : Buffers β) (last : LastThing β) (integers : Bool)
    (regs : List Register) (l : List (Datum β)) : Prop where
  set {i : ℕ} {reg : Register} : regs[i]? = some reg → 0 ≤ reg.start →
    l.getD (2 * i) .nil = datum buffers last integers reg.start ∧
      l.getD (2 * i + 1) .nil = datum buffers last integers reg.stop
  unset {i : ℕ} : (∀ reg ∈ regs[i]?, reg.start < 0) →
    l.getD (2 * i) .nil = .nil ∧ l.getD (2 * i + 1) .nil = .nil

theorem shows_data (regs : List Register) :
    Shows buffers last integers regs (data buffers last integers regs) := by
  induction regs with
  | nil => exact ⟨fun h => by simp at h, fun _ => by simp [data]⟩
  | cons reg regs ih =>
    have hdata : data buffers last integers (reg :: regs) =
        (if 0 ≤ reg.start then
          [datum buffers last integers reg.start, datum buffers last integers reg.stop]
        else [.nil, .nil]) ++ data buffers last integers regs := flatMap_cons
    constructor
    · intro i reg' hreg hset
      cases i with
      | zero =>
        cases hreg
        rw [hdata, if_pos hset]
        exact ⟨rfl, rfl⟩
      | succ i =>
        have htail := ih.set hreg hset
        rw [hdata]
        split_ifs <;> exact htail
    · intro i hunset
      cases i with
      | zero =>
        rw [hdata, if_neg (not_le.mpr (hunset reg rfl))]
        exact ⟨rfl, rfl⟩
      | succ i =>
        have htail := ih.unset hunset
        rw [hdata]
        split_ifs <;> exact htail

theorem setCount_spec (regs : List Register) :
    ∀ i, setCount regs ≤ i → ∀ reg ∈ regs[i]?, reg.start < 0 := by
  induction regs using List.reverseRecOn with
  | nil => simp
  | append_singleton regs last ih =>
    have hcount : setCount (regs ++ [last]) =
        if 0 ≤ last.start then regs.length + 1 else setCount regs := by
      simp [setCount, zipIdx_append]
    intro i hi reg hreg
    rw [hcount] at hi
    obtain hlt | hge := Nat.lt_or_ge i regs.length
    · rw [getElem?_append_left hlt] at hreg
      split_ifs at hi with hlast
      · omega
      · exact ih i hi reg hreg
    · rw [getElem?_append_right hge] at hreg
      have hi0 : i - regs.length = 0 := by
        by_contra hne
        obtain ⟨j, hj⟩ := Nat.exists_eq_succ_of_ne_zero hne
        rw [hj] at hreg
        simp at hreg
      rw [hi0] at hreg
      cases hreg
      split_ifs at hi with hlast
      · omega
      · exact not_le.mp hlast

theorem getD_storeInReuse (reuse l : List (Datum β)) (i : ℕ) :
    (storeInReuse reuse l).getD i .nil = l.getD i .nil := by
  induction reuse generalizing l i with
  | nil => rfl
  | cons _ reuse ih =>
    cases l with
    | nil =>
      cases i with
      | zero => rfl
      | succ i => exact ih [] i
    | cons d l =>
      cases i with
      | zero => rfl
      | succ i => exact ih l i

theorem getD_take (l : List (Datum β)) (n i : ℕ) :
    (l.take n).getD i .nil = if i < n then l.getD i .nil else .nil := by
  rw [getD_eq_getElem?_getD, getElem?_take]
  split_ifs
  · exact getD_eq_getElem?_getD.symm
  · rfl

/-- The registers that match data shows: none if nothing has been searched. -/
def shownRegs (s : SearchState β) : List Register :=
  match s.lastThingSearched with
  | .nil => []
  | _ => s.searchRegs

theorem shownRegs_of_ne {s : SearchState β} (hlast : s.lastThingSearched ≠ .nil) :
    s.shownRegs = s.searchRegs := by
  rw [shownRegs]
  split
  · rename_i heq
    exact absurd heq hlast
  · rfl

theorem shows_matchData {s : SearchState β} (reuse : List (Datum β)) :
    Shows buffers s.lastThingSearched integers s.shownRegs
      (matchData buffers integers reuse s) := by
  have htake : ∀ last' : LastThing β, Shows buffers last' integers s.searchRegs
      (storeInReuse reuse ((data buffers last' integers s.searchRegs).take
        (2 * setCount s.searchRegs))) := by
    intro last'
    have hshows : Shows buffers last' integers s.searchRegs _ := shows_data s.searchRegs
    constructor
    · intro i reg hreg hset
      have hi : i < setCount s.searchRegs := by
        by_contra hge
        exact absurd hset (not_le.mpr (setCount_spec _ i (Nat.not_lt.mp hge) reg hreg))
      rw [getD_storeInReuse, getD_storeInReuse, getD_take, getD_take, if_pos (by omega),
        if_pos (by omega)]
      exact hshows.set hreg hset
    · intro i hunset
      obtain ⟨hstart, hstop⟩ := hshows.unset hunset
      rw [getD_storeInReuse, getD_storeInReuse, getD_take, getD_take, hstart, hstop]
      exact ⟨ite_self _, ite_self _⟩
  rw [matchData, shownRegs]
  cases s.lastThingSearched with
  | nil => exact ⟨fun h => by simp at h, fun _ => ⟨rfl, rfl⟩⟩
  | t => exact htake .t
  | buffer b => exact htake (.buffer b)

/-- The buffer of all markers of match data. -/
def placed (buffers : Buffers β) (last : LastThing β) (integers : Bool) : Option β :=
  match last with
  | .buffer b => if integers then none else (buffers b).map fun _ => b
  | _ => none

theorem datum_cases (buffers : Buffers β) (last : LastThing β) (integers : Bool) (n : ℤ) :
    ∃ m, (datum buffers last integers n).coerce = .ok m ∧ (0 ≤ n → 0 ≤ m) ∧
      match placed buffers last integers with
      | none => (datum buffers last integers n).markerBuffer = none
      | some b => datum buffers last integers n = .marker (some (b, m)) ∧
        setMarker buffers b m = .marker (some (b, m)) := by
  cases last with
  | nil | t => exact ⟨n, rfl, id, rfl⟩
  | buffer b =>
    cases integers with
    | true => exact ⟨n, rfl, id, rfl⟩
    | false =>
      cases hb : buffers b with
      | none =>
        have hdatum : datum buffers (.buffer b) false n = .marker none := by
          simp [datum, setMarker, hb]
        rw [hdatum]
        refine ⟨0, rfl, fun _ => le_rfl, ?_⟩
        simp [placed, hb, Datum.markerBuffer]
      | some size =>
        have hdatum : datum buffers (.buffer b) false n =
            .marker (some (b, min (max n 1) (size + 1))) := by
          simp [datum, setMarker, hb]
        rw [hdatum]
        refine ⟨_, rfl, fun _ => by omega, ?_⟩
        simp only [placed, hb, Bool.false_eq_true, if_false, Option.map_some, true_and, setMarker]
        congr 3
        omega

theorem markerBuffer_datum (n : ℤ) :
    (datum buffers last integers n).markerBuffer = placed buffers last integers := by
  obtain ⟨m, -, -, hcases⟩ := datum_cases buffers last integers n
  cases hplaced : placed buffers last integers with
  | none => simpa only [hplaced] using hcases
  | some b =>
    simp only [hplaced] at hcases
    rw [hcases.1]
    rfl

end Data

/-! ### What is stored -/

theorem getD_tail_tail (l : List (Datum β)) (i : ℕ) :
    l.tail.tail.getD i .nil = l.getD (i + 2) .nil := by
  simp [getD_eq_getElem?_getD, getElem?_tail]

/-- `regs` and `last` are what the loop leaves of `list`, for registers that were `old`. -/
structure Stored (old : List Register) (list : List (Datum β)) (last : LastThing β)
    (regs : List Register) (last' : LastThing β) : Prop where
  length : regs.length = old.length
  unset {i : ℕ} {reg : Register} : regs[i]? = some reg → list.getD (2 * i) .nil = .nil →
    reg.start = -1
  set {i : ℕ} {reg : Register} : regs[i]? = some reg → list.getD (2 * i) .nil ≠ .nil →
    (list.getD (2 * i) .nil).coerce = .ok reg.start ∧
      (list.getD (2 * i + 1) .nil).coerce = .ok reg.stop
  noBuffer : (∀ i < old.length, (list.getD (2 * i) .nil).markerBuffer = none) → last' = last
  oneBuffer {b : β} : (∀ i < old.length, ∀ b' ∈ (list.getD (2 * i) .nil).markerBuffer, b' = b) →
    (last = .buffer b ∨ ∃ i < old.length, (list.getD (2 * i) .nil).markerBuffer = some b) →
      last' = .buffer b

theorem storeLoop_spec {old : List Register} {list : List (Datum β)} {last : LastThing β}
    (hlist : ∀ i, list.getD (2 * i) .nil ≠ .nil →
      ∃ m n, (list.getD (2 * i) .nil).coerce = .ok m ∧
        (list.getD (2 * i + 1) .nil).coerce = .ok n) :
    ∃ regs last', storeLoop old list last = .ok (regs, last') ∧
      Stored old list last regs last' := by
  induction old generalizing list last with
  | nil =>
    refine ⟨[], last, rfl, rfl, ?_, ?_, fun _ => rfl, ?_⟩
    · exact fun h => by simp at h
    · exact fun h => by simp at h
    · rintro b - (hlast | ⟨i, hi, -⟩)
      · exact hlast
      · exact absurd hi (Nat.not_lt_zero i)
  | cons reg old ih =>
    have htail : ∀ i, list.tail.tail.getD (2 * i) .nil ≠ .nil →
        ∃ m n, (list.tail.tail.getD (2 * i) .nil).coerce = .ok m ∧
          (list.tail.tail.getD (2 * i + 1) .nil).coerce = .ok n := by
      intro i
      rw [getD_tail_tail, getD_tail_tail]
      exact hlist (i + 1)
    have hhead : list.headD .nil = list.getD (2 * 0) .nil := by cases list <;> rfl
    have hnext : list.tail.headD .nil = list.getD (2 * 0 + 1) .nil := by
      cases list with
      | nil => rfl
      | cons _ list => cases list <;> rfl
    -- what the rest of the loop does after the first register has become `reg'`
    have hrest : ∀ reg' last₁,
        (list.getD (2 * 0) .nil = .nil → reg'.start = -1) →
        (list.getD (2 * 0) .nil ≠ .nil → (list.getD (2 * 0) .nil).coerce = .ok reg'.start ∧
          (list.getD (2 * 0 + 1) .nil).coerce = .ok reg'.stop) →
        (last₁ = match (list.getD (2 * 0) .nil).markerBuffer with
          | some b => .buffer b
          | none => last) →
        ∃ regs last', storeLoop old list.tail.tail last₁ = .ok (regs, last') ∧
          Stored (reg :: old) list last (reg' :: regs) last' := by
      intro reg' last₁ hunset hset hlast₁
      obtain ⟨regs, last', hloop, hstored⟩ := ih htail
      refine ⟨regs, last', hloop, ?_, ?_, ?_, ?_, ?_⟩
      · rw [length_cons, length_cons, hstored.length]
      · rintro (_ | i) reg'' hreg hnil
        · cases hreg
          exact hunset hnil
        · exact hstored.unset hreg (by rw [getD_tail_tail]; exact hnil)
      · rintro (_ | i) reg'' hreg hsome
        · cases hreg
          exact hset hsome
        · have hget := hstored.set hreg (by rw [getD_tail_tail]; exact hsome)
          rw [getD_tail_tail, getD_tail_tail] at hget
          exact hget
      · intro hnone
        rw [hnone 0 (Nat.succ_pos _)] at hlast₁
        rw [hstored.noBuffer, hlast₁]
        intro i hi
        rw [getD_tail_tail]
        exact hnone (i + 1) (Nat.succ_lt_succ hi)
      · intro b hsame hb
        refine hstored.oneBuffer ?_ ?_
        · intro i hi
          rw [getD_tail_tail]
          exact hsame (i + 1) (Nat.succ_lt_succ hi)
        · cases hbuffer : (list.getD (2 * 0) .nil).markerBuffer with
          | some b' =>
            rw [hbuffer] at hlast₁
            rw [hlast₁, hsame 0 (Nat.succ_pos _) b' hbuffer]
            exact .inl rfl
          | none =>
            rw [hbuffer] at hlast₁
            obtain hlast | ⟨i, hi, hib⟩ := hb
            · exact .inl (hlast₁.trans hlast)
            · cases i with
              | zero =>
                rw [hbuffer] at hib
                cases hib
              | succ i =>
                refine .inr ⟨i, Nat.lt_of_succ_lt_succ hi, ?_⟩
                rw [getD_tail_tail]
                exact hib
    rw [storeLoop, hhead]
    by_cases hnil : list.getD (2 * 0) .nil = .nil
    · have hbuffer : last = match (list.getD (2 * 0) .nil).markerBuffer with
          | some b => .buffer b
          | none => last := by rw [hnil]; rfl
      obtain ⟨regs, last', hloop, hstored⟩ :=
        hrest { reg with start := -1 } last (fun _ => rfl) (fun h => absurd hnil h) hbuffer
      refine ⟨_, last', ?_, hstored⟩
      simp only [hnil, hloop]
      rfl
    · obtain ⟨m, n, hm, hn⟩ := hlist 0 hnil
      obtain ⟨regs, last', hloop, hstored⟩ :=
        hrest ⟨m, n⟩ _ (fun h => absurd h hnil) (fun _ => ⟨hm, hn⟩) rfl
      refine ⟨_, last', ?_, hstored⟩
      split
      · rename_i heq
        exact absurd heq hnil
      · rw [hnext, hm, hn]
        simp only [bind, Except.bind, hloop]
        rfl

/-! ### The round trip -/

section RoundTrip

variable {buffers : Buffers β} {last : LastThing β} {integers : Bool} {old : List Register}
  {list : List (Datum β)}

theorem Shows.eq_datum_or_nil (hl : Shows buffers last integers old list) (i : ℕ) :
    (∃ reg, old[i]? = some reg ∧ 0 ≤ reg.start ∧
      list.getD (2 * i) .nil = datum buffers last integers reg.start ∧
        list.getD (2 * i + 1) .nil = datum buffers last integers reg.stop) ∨
      (list.getD (2 * i) .nil = .nil ∧ list.getD (2 * i + 1) .nil = .nil) := by
  by_cases hset : ∃ reg, old[i]? = some reg ∧ 0 ≤ reg.start
  · obtain ⟨reg, hreg, hstart⟩ := hset
    exact .inl ⟨reg, hreg, hstart, hl.set hreg hstart⟩
  · refine .inr (hl.unset fun reg hreg => ?_)
    exact not_le.mp fun hstart => hset ⟨reg, hreg, hstart⟩

theorem Shows.lt_of_ne_nil (hl : Shows buffers last integers old list) {i : ℕ}
    (hne : list.getD (2 * i) .nil ≠ .nil) : i < list.length / 2 := by
  obtain ⟨reg, -, -, -, hstop⟩ | ⟨hnil, -⟩ := hl.eq_datum_or_nil i
  · have hlt : 2 * i + 1 < list.length := by
      by_contra hge
      rw [getD_eq_default _ _ (Nat.not_lt.mp hge)] at hstop
      exact datum_ne_nil _ hstop.symm
    omega
  · exact absurd hnil hne

theorem Shows.storeLoop (hl : Shows buffers last integers old list) (regs : List Register) :
    ∃ regs' last', SearchState.storeLoop regs list .t = .ok (regs', last') ∧
      Stored regs list .t regs' last' := by
  refine storeLoop_spec fun i hne => ?_
  obtain ⟨reg, -, -, hstart, hstop⟩ | ⟨hnil, -⟩ := hl.eq_datum_or_nil i
  · obtain ⟨m, hm, -, -⟩ := datum_cases buffers last integers reg.start
    obtain ⟨n, hn, -, -⟩ := datum_cases buffers last integers reg.stop
    exact ⟨m, n, hstart ▸ hm, hstop ▸ hn⟩
  · exact absurd hnil hne

theorem Shows.lastThing (hl : Shows buffers last integers old list) {regs regs' : List Register}
    {last' : LastThing β} (hstored : Stored regs list .t regs' last') {i : ℕ}
    (hi : i < regs.length) (hne : list.getD (2 * i) .nil ≠ .nil) :
    last' = match placed buffers last integers with
      | some b => .buffer b
      | none => .t := by
  have hbuffer : ∀ j, (list.getD (2 * j) .nil).markerBuffer = none ∨
      (list.getD (2 * j) .nil).markerBuffer = placed buffers last integers := by
    intro j
    obtain ⟨reg, -, -, hstart, -⟩ | ⟨hnil, -⟩ := hl.eq_datum_or_nil j
    · rw [hstart, markerBuffer_datum]
      exact .inr rfl
    · rw [hnil]
      exact .inl rfl
  cases hplaced : placed buffers last integers with
  | none =>
    refine hstored.noBuffer fun j _ => ?_
    obtain hnone | hsame := hbuffer j
    · exact hnone
    · rw [hsame, hplaced]
  | some b =>
    refine hstored.oneBuffer (fun j _ b' hb' => ?_) (.inr ⟨i, hi, ?_⟩)
    · obtain hnone | hsame := hbuffer j
      · rw [hnone] at hb'
        cases hb'
      · rw [hsame, hplaced] at hb'
        exact (Option.some.inj hb').symm
    · obtain ⟨reg, -, -, hstart, -⟩ | ⟨hnil, -⟩ := hl.eq_datum_or_nil i
      · rw [hstart, markerBuffer_datum, hplaced]
      · exact absurd hnil hne

theorem Shows.lastThing_ne_nil (hl : Shows buffers last integers old list)
    {regs regs' : List Register} {last' : LastThing β} (hstored : Stored regs list .t regs' last') :
    last' ≠ .nil := by
  by_cases hset : ∃ i < regs.length, list.getD (2 * i) .nil ≠ .nil
  · obtain ⟨i, hi, hne⟩ := hset
    rw [hl.lastThing hstored hi hne]
    intro hnil
    cases hplaced : placed buffers last integers with
    | none =>
      rw [hplaced] at hnil
      cases hnil
    | some b =>
      rw [hplaced] at hnil
      cases hnil
  · rw [hstored.noBuffer]
    · exact fun hnil => by cases hnil
    · intro i hi
      have hnil : list.getD (2 * i) .nil = .nil := by
        by_contra hne
        exact hset ⟨i, hi, hne⟩
      rw [hnil]
      rfl

/-- `d'` stands for what `d` stands for; a marker is the same unless integers are asked
for. -/
def Matches (integers' : Bool) (d d' : Datum β) : Prop :=
  d'.position = d.position ∧
    (integers' = false → ∀ place, d = .marker (some place) → d' = .marker (some place))

theorem datum_again (n m : ℤ) (integers' : Bool)
    (hm : (datum buffers last integers n).coerce = .ok m) :
    Matches integers' (datum buffers last integers n)
      (datum buffers
        (match placed buffers last integers with
        | some b => .buffer b
        | none => .t) integers' m) := by
  have hposition : (datum buffers last integers n).position = some m := by
    rw [Datum.position, hm]
    rfl
  rw [Matches, hposition]
  obtain ⟨m', hm', -, hcases⟩ := datum_cases buffers last integers n
  cases hm.symm.trans hm'
  cases hplaced : placed buffers last integers with
  | none =>
    simp only [hplaced] at hcases
    refine ⟨rfl, fun _ place hplace => ?_⟩
    rw [hplace] at hcases
    cases hcases
  | some b =>
    simp only [hplaced] at hcases
    obtain ⟨hdatum, hagain⟩ := hcases
    cases integers' with
    | true => exact ⟨rfl, fun h => by cases h⟩
    | false =>
      have hshown : datum buffers (.buffer b) false m = .marker (some (b, m)) := hagain
      rw [hshown]
      exact ⟨rfl, fun _ place hplace => hdatum.symm.trans hplace⟩

/-- `match-data` gives the list `l` back: every element has the same position, markers are
markers of the same buffer, and no further register is set. -/
structure GivesBack (buffers : Buffers β) (l : List (Datum β)) (s : SearchState β) : Prop where
  position (integers : Bool) (reuse : List (Datum β)) (i : ℕ) :
    ((matchData buffers integers reuse s).getD i .nil).position = (l.getD i .nil).position
  marker {reuse : List (Datum β)} {i : ℕ} {place : β × ℤ} :
    l.getD i .nil = .marker (some place) →
      (matchData buffers false reuse s).getD i .nil = .marker (some place)
  unset {i : ℕ} {reg : Register} : l.length / 2 ≤ i → s.searchRegs[i]? = some reg →
    reg.start < 0

/-- The registers that `store-match-data` finds: none if it swaps them out. -/
def registersFound (s : SearchState β) : ℕ :=
  if s.runningAsynchCode && s.savedSearchRegs.isNone then 0 else s.searchRegs.length

theorem matches_again (hl : Shows buffers last integers old list) {regs : List Register}
    {s' : SearchState β} (hstored : Stored regs list .t s'.searchRegs s'.lastThingSearched)
    (hroom : list.length / 2 ≤ regs.length) (integers' : Bool) (reuse : List (Datum β)) (i : ℕ) :
    Matches integers' (list.getD (2 * i) .nil)
        ((matchData buffers integers' reuse s').getD (2 * i) .nil) ∧
      Matches integers' (list.getD (2 * i + 1) .nil)
        ((matchData buffers integers' reuse s').getD (2 * i + 1) .nil) := by
  have hshows : Shows buffers s'.lastThingSearched integers' _ _ :=
    shows_matchData (s := s') reuse
  obtain ⟨reg, -, hstart, heq⟩ | ⟨hnil, hnil'⟩ := hl.eq_datum_or_nil i
  · have hne : list.getD (2 * i) .nil ≠ .nil := by
      rw [heq.1]
      exact datum_ne_nil _
    have hi : i < regs.length := Nat.lt_of_lt_of_le (hl.lt_of_ne_nil hne) hroom
    have hlast := hl.lastThing hstored hi hne
    obtain ⟨reg', hreg'⟩ : ∃ reg', s'.searchRegs[i]? = some reg' :=
      ⟨_, getElem?_eq_getElem (hstored.length ▸ hi)⟩
    obtain ⟨hm, hn⟩ := hstored.set hreg' hne
    rw [heq.1] at hm
    rw [heq.2] at hn
    have hset : 0 ≤ reg'.start := by
      obtain ⟨m, hm', hpos, -⟩ := datum_cases buffers last integers reg.start
      cases hm.symm.trans hm'
      exact hpos hstart
    have hne' : s'.lastThingSearched ≠ .nil := hl.lastThing_ne_nil hstored
    have hshown := hshows.set ((shownRegs_of_ne hne').symm ▸ hreg') hset
    rw [hshown.1, hshown.2, heq.1, heq.2, hlast]
    exact ⟨datum_again _ _ _ hm, datum_again _ _ _ hn⟩
  · have hunset : ∀ reg ∈ s'.searchRegs[i]?, reg.start < 0 := by
      intro reg hreg
      rw [hstored.unset hreg hnil]
      exact Int.negSucc_lt_zero 0
    have hne' : s'.lastThingSearched ≠ .nil := hl.lastThing_ne_nil hstored
    have hshown := hshows.unset ((shownRegs_of_ne hne').symm ▸ hunset)
    rw [hshown.1, hshown.2, hnil, hnil']
    exact ⟨⟨rfl, fun _ _ h => h⟩, rfl, fun _ _ h => h⟩

theorem givesBack_of_stored (hl : Shows buffers last integers old list) {regs : List Register}
    {s' : SearchState β} (hstored : Stored regs list .t s'.searchRegs s'.lastThingSearched)
    (hroom : list.length / 2 ≤ regs.length) : GivesBack buffers list s' := by
  have hmatches : ∀ integers' reuse i, Matches integers' (list.getD i .nil)
      ((matchData buffers integers' reuse s').getD i .nil) := by
    intro integers' reuse i
    have hpair := matches_again hl hstored hroom integers' reuse (i / 2)
    obtain heven | hodd : 2 * (i / 2) = i ∨ 2 * (i / 2) + 1 = i := by omega
    · rw [heven] at hpair
      exact hpair.1
    · rw [hodd] at hpair
      exact hpair.2
  constructor
  · exact fun integers' reuse i => (hmatches integers' reuse i).1
  · exact fun hplace => (hmatches false _ _).2 rfl _ hplace
  · intro i reg hi hreg
    have hnil : list.getD (2 * i) .nil = .nil := by
      by_contra hne
      exact absurd (hl.lt_of_ne_nil hne) (Nat.not_lt.mpr hi)
    rw [hstored.unset hreg hnil]
    exact Int.negSucc_lt_zero 0

/-- A list that `match-data` returned is given back, whatever is in the memory that is
allocated, just when there is a register for each two of its elements. -/
theorem storeMatchData_givesBack_iff (buffers : Buffers β) (integers : Bool)
    (reuse : List (Datum β)) (s₀ s : SearchState β) :
    (∀ fresh, ∃ s', storeMatchData fresh (matchData buffers integers reuse s₀) s = .ok s' ∧
        GivesBack buffers (matchData buffers integers reuse s₀) s') ↔
      (matchData buffers integers reuse s₀).length / 2 ≤ registersFound s := by
  have hl : Shows buffers s₀.lastThingSearched integers _ (matchData buffers integers reuse s₀) :=
    shows_matchData reuse
  generalize matchData buffers integers reuse s₀ = list at hl ⊢
  obtain ⟨found, hfound⟩ : ∃ found : SearchState β,
      found = if s.runningAsynchCode then s.saveSearchRegs else s := ⟨_, rfl⟩
  have hcount : registersFound s = found.searchRegs.length := by
    rw [registersFound, hfound]
    cases s.runningAsynchCode with
    | false => rfl
    | true =>
      simp only [saveSearchRegs, Bool.true_and, if_true]
      cases s.savedSearchRegs <;> rfl
  rw [hcount]
  obtain ⟨regs, last, hloop, hstored⟩ := hl.storeLoop found.searchRegs
  have hstore : ∀ fresh, storeMatchData fresh list s = .ok
      { found with
        searchRegs := regs ++
          (List.range' found.searchRegs.length
            (list.length / 2 - found.searchRegs.length)).map fresh
        lastThingSearched := last } := by
    intro fresh
    simp only [storeMatchData, ← hfound, hloop, bind, Except.bind]
    rfl
  constructor
  · intro hgives
    by_contra hroom
    rw [Nat.not_le] at hroom
    -- the last register the list has is in the memory that is allocated
    have hget : ∀ reg : Register, (regs ++
        (List.range' found.searchRegs.length
          (list.length / 2 - found.searchRegs.length)).map
            fun _ => reg)[list.length / 2 - 1]? = some reg := by
      intro reg
      rw [List.getElem?_append_right (by rw [hstored.length]; omega), hstored.length]
      rw [List.getElem?_map, List.getElem?_range' (by omega)]
      rfl
    have hne' : last ≠ .nil := hl.lastThing_ne_nil hstored
    -- it is shown as it happens to be
    have hshown : ∀ reg : Register, ∃ l, Shows buffers last true
        (regs ++ (List.range' found.searchRegs.length
          (list.length / 2 - found.searchRegs.length)).map fun _ => reg) l ∧
        (l.getD (2 * (list.length / 2 - 1)) .nil).position =
          (list.getD (2 * (list.length / 2 - 1)) .nil).position := by
      intro reg
      obtain ⟨s', hs', hback⟩ := hgives fun _ => reg
      have heq := Except.ok.inj ((hstore _).symm.trans hs')
      have hlast : s'.lastThingSearched = last := by rw [← heq]
      refine ⟨_, ?_, hback.position true [] _⟩
      have hshows : Shows buffers s'.lastThingSearched true s'.shownRegs _ := shows_matchData []
      rw [shownRegs_of_ne (hlast ▸ hne'), hlast] at hshows
      rw [← heq] at hshows ⊢
      exact hshows
    obtain ⟨reg, -, -, hstart, -⟩ | ⟨hnil, -⟩ := hl.eq_datum_or_nil (list.length / 2 - 1)
    · obtain ⟨l, hshows, hposition⟩ := hshown ⟨-1, -1⟩
      have hunset := (hshows.unset fun reg hreg => by
        cases (hget ⟨-1, -1⟩).symm.trans hreg
        exact Int.negSucc_lt_zero 0).1
      obtain ⟨m, hm, -, -⟩ := datum_cases buffers s₀.lastThingSearched integers reg.start
      rw [hunset, hstart, Datum.position, Datum.position, hm] at hposition
      cases hposition
    · obtain ⟨l, hshows, hposition⟩ := hshown ⟨0, 0⟩
      have hset := (hshows.set (hget ⟨0, 0⟩) le_rfl).1
      obtain ⟨m, hm, -, -⟩ := datum_cases buffers last true 0
      rw [hset, hnil, Datum.position, Datum.position, hm] at hposition
      cases hposition
  · intro hroom fresh
    refine ⟨_, hstore fresh, givesBack_of_stored hl ?_ hroom⟩
    rw [Nat.sub_eq_zero_of_le hroom, List.range'_zero, List.map_nil, List.append_nil]
    exact hstored

/-- The match of a string's first character, stored when there are no registers: it becomes
what the memory has. -/
theorem storeMatchData_noRegisters :
    ∃ s' : SearchState Unit,
      storeMatchData (fun _ => ⟨0, 0⟩)
        (matchData (fun _ => none) false [] ⟨[⟨0, 1⟩], .t, false, none⟩) ⟨[], .nil, false, none⟩ =
          .ok s' ∧
      ¬ GivesBack (fun _ => none)
        (matchData (fun _ => none) false [] ⟨[⟨0, 1⟩], .t, false, none⟩) s' := by
  refine ⟨⟨[⟨0, 0⟩], .t, false, none⟩, rfl, fun hback => ?_⟩
  have hstop := hback.position false [] 1
  cases hstop

end RoundTrip

end SearchState

end XEmacs.Search
