import XEmacs.Rangetab.Tables
import Mathlib.Data.List.Nodup

/-!
# Mapping a function that changes the current range

`map-range-table` allows FUNCTION to pass the current range to `put-range-table` or
`remove-range-table`.
-/

namespace XEmacs.Rangetab

open IntervalMaps List

variable {V σ : Type} [DecidableEq V]

/-- What FUNCTION does with the current range. -/
inductive Answer (V : Type) where
  | nothing
  | put (value : V)
  | remove

/-- The table after a call with `entry`. -/
def Answer.run (table : List (RangeTableEntry V)) (entry : RangeTableEntry V) :
    Answer V → Option (List (RangeTableEntry V))
  | nothing => some table
  | put value => putRangeTable table entry.first entry.last (some value)
  | remove => putRangeTable table entry.first entry.last none

/-- A call of FUNCTION: the table before it, the entry whose bounds and value are passed, and what
FUNCTION does. -/
structure Call (V : Type) where
  table : List (RangeTableEntry V)
  entry : RangeTableEntry V
  answer : Answer V

/-- The loop of `Fmap_range_table` at the index `i`, with its `again:`. FUNCTION can read the table
and has a state of its own. -/
def mapLoop (function : σ → List (RangeTableEntry V) → RangeTableEntry V → σ × Answer V) :
    Nat → Nat → σ → List (RangeTableEntry V) → List (Call V) →
      Option (List (RangeTableEntry V) × List (Call V))
  | 0, _, _, _, _ => none
  | fuel + 1, i, world, table, calls =>
    match table[i]? with
    | none => some (table, calls)
    | some entry => do
      let (world, answer) := function world table entry
      let table' ← answer.run table entry
      let calls := calls ++ [⟨table, entry, answer⟩]
      match table'[i]? with
      | some entry' =>
        if table.length > table'.length ∧
            (entry.first ≠ entry'.first ∨ entry.last ≠ entry'.last) then
          mapLoop function fuel i world table' calls
        else mapLoop function fuel (i + 1) world table' calls
      | none => mapLoop function fuel (i + 1) world table' calls

def mapRangeTable (function : σ → List (RangeTableEntry V) → RangeTableEntry V → σ × Answer V)
    (table : List (RangeTableEntry V)) (world : σ) :
    Option (List (RangeTableEntry V) × List (Call V)) :=
  mapLoop function (table.length + 1) 0 world table []

/-- The value that is put is not that of an entry just after the current range. -/
def Call.Separate (c : Call V) : Prop :=
  ∀ value, c.answer = .put value → ∀ d ∈ c.table, d.first = c.entry.last + 1 → d.val ≠ value

/-! ### A change of the current entry -/

section change

variable {done rest : List (RangeTableEntry V)} {e : RangeTableEntry V}

omit [DecidableEq V]

theorem lefts_at (h : Canonical (done ++ e :: rest)) :
    lefts e.first (done ++ e :: rest) = done := by
  obtain ⟨hdone, hrest, hall⟩ := Canonical.append_iff.mp h
  have hnone : lefts e.first (e :: rest) = [] := by
    refine lefts_eq_nil fun d hd => ?_
    obtain rfl | hd := List.mem_cons.mp hd
    · exact Int.le_refl _
    · have := (hrest.head_apart d hd).1
      have := hrest.proper e (mem_cons_self ..)
      omega
  have hself : lefts e.first done = done := by
    refine (filterMap_congr fun d hd => ?_).trans filterMap_some
    have hbefore := (hall d hd e (mem_cons_self ..)).1
    have hproper := hdone.proper d hd
    rw [Interval.before, if_pos (by omega), min_eq_left (by omega)]
  rw [lefts, filterMap_append]
  exact (congrArg₂ (· ++ ·) hself hnone).trans (append_nil done)

theorem rights_at (h : Canonical (done ++ e :: rest)) :
    rights e.last (done ++ e :: rest) = rest := by
  obtain ⟨hdone, hrest, hall⟩ := Canonical.append_iff.mp h
  have hnone : rights e.last done = [] := by
    refine List.filterMap_eq_nil_iff.mpr fun d hd => if_neg ?_
    have := (hall d hd e (mem_cons_self ..)).1
    have := hrest.proper e (mem_cons_self ..)
    omega
  have hself : rights e.last (e :: rest) = rest := by
    rw [rights_cons_of_ge (Int.le_refl _)]
    exact rights_eq_self (fun d hd => (hrest.head_apart d hd).1) hrest.tail.proper
  rw [rights, filterMap_append]
  exact (congrArg₂ (· ++ ·) hnone hself).trans (nil_append rest)

end change

variable {done rest orig : List (RangeTableEntry V)} {e : RangeTableEntry V}

/-- The table after a call with the entry between `done` and `rest`. -/
def Answer.result (done : List (RangeTableEntry V)) (e : RangeTableEntry V)
    (rest : List (RangeTableEntry V)) : Answer V → List (RangeTableEntry V)
  | nothing => done ++ e :: rest
  | put value =>
    (joinLeft done { e with val := value }).1 ++
      joinRight (joinLeft done { e with val := value }).2 rest
  | remove => done ++ rest

theorem Answer.run_eq (h : Canonical (done ++ e :: rest)) (answer : Answer V) :
    answer.run (done ++ e :: rest) e = some (answer.result done e rest) ∧
      Canonical (answer.result done e rest) := by
  have hproper := h.proper e (mem_append_right _ (mem_cons_self ..))
  cases answer with
  | nothing => exact ⟨rfl, h⟩
  | put value =>
    have hpaint : paint ⟨e.first, e.last, value⟩ (done ++ e :: rest)
        = (Answer.put value).result done e rest := by
      rw [paint, lefts_at h, rights_at h]
      rfl
    have hcanonical := h.paint (e := ⟨e.first, e.last, value⟩) hproper
    rw [hpaint] at hcanonical
    exact ⟨(putRangeTable_some h hproper value).trans (congrArg some hpaint), hcanonical⟩
  | remove =>
    have herase : erase e.first e.last (done ++ e :: rest) = done ++ rest := by
      rw [erase, lefts_at h, rights_at h]
    have hcanonical := h.erase hproper
    rw [herase] at hcanonical
    exact ⟨(putRangeTable_none h hproper).trans (congrArg some herase), hcanonical⟩

theorem joinLeft_cases (done : List (RangeTableEntry V)) (e : RangeTableEntry V) :
    joinLeft done e = (done, e) ∨
      ∃ done' d, done = done' ++ [d] ∧ joinLeft done e = (done', { e with first := d.first }) := by
  rw [joinLeft]
  cases hlast : done.getLast? with
  | none => exact .inl rfl
  | some d =>
    obtain ⟨done', rfl⟩ := List.getLast?_eq_some_iff.mp hlast
    simp only
    split
    · exact .inr ⟨done', d, rfl, by rw [dropLast_concat]⟩
    · exact .inl rfl

theorem joinRight_cases (e : RangeTableEntry V) (rest : List (RangeTableEntry V)) :
    joinRight e rest = e :: rest ∨
      ∃ d rest', rest = d :: rest' ∧ joinRight e rest = { e with last := d.last } :: rest' := by
  cases rest with
  | nil => exact .inl rfl
  | cons d rest =>
    rw [joinRight]
    split
    · exact .inr ⟨d, rest, rfl, rfl⟩
    · exact .inl rfl

theorem Answer.result_le (answer : Answer V) (done : List (RangeTableEntry V))
    (e : RangeTableEntry V) (rest : List (RangeTableEntry V)) :
    (answer.result done e rest).length ≤ (done ++ e :: rest).length ∧
      ∀ c ∈ answer.result done e rest, ∃ d ∈ done ++ e :: rest, d.first = c.first := by
  cases answer with
  | nothing => exact ⟨Nat.le_refl _, fun c hc => ⟨c, hc, rfl⟩⟩
  | remove =>
    refine ⟨by simp only [result, length_append, length_cons]; omega, fun c hc => ?_⟩
    obtain hc | hc := List.mem_append.mp hc
    · exact ⟨c, mem_append_left _ hc, rfl⟩
    · exact ⟨c, mem_append_right _ (mem_cons_of_mem e hc), rfl⟩
  | put value =>
    rw [result]
    have hright : ∀ x : RangeTableEntry V, (joinRight x rest).length ≤ rest.length + 1 ∧
        ∀ c ∈ joinRight x rest, c.first = x.first ∨ c ∈ rest := by
      intro x
      obtain heq | ⟨d, rest', rfl, heq⟩ := joinRight_cases x rest
      · rw [heq]
        refine ⟨Nat.le_refl _, fun c hc => ?_⟩
        obtain rfl | hc := List.mem_cons.mp hc
        · exact .inl rfl
        · exact .inr hc
      · rw [heq]
        refine ⟨Nat.le_succ _, fun c hc => ?_⟩
        obtain rfl | hc := List.mem_cons.mp hc
        · exact .inl rfl
        · exact .inr (mem_cons_of_mem d hc)
    obtain heq | ⟨done', d, rfl, heq⟩ := joinLeft_cases done { e with val := value }
    · obtain ⟨hlength, hfirst⟩ := hright { e with val := value }
      rw [heq]
      refine ⟨by simp only [length_append, length_cons]; omega, fun c hc => ?_⟩
      obtain hc | hc := List.mem_append.mp hc
      · exact ⟨c, mem_append_left _ hc, rfl⟩
      · obtain hc | hc := hfirst c hc
        · exact ⟨e, mem_append_right _ (mem_cons_self ..), hc.symm⟩
        · exact ⟨c, mem_append_right _ (mem_cons_of_mem e hc), rfl⟩
    · obtain ⟨hlength, hfirst⟩ := hright { e with first := d.first, val := value }
      rw [heq]
      refine ⟨by simp only [length_append, length_cons]; omega, fun c hc => ?_⟩
      obtain hc | hc := List.mem_append.mp hc
      · exact ⟨c, mem_append_left _ (mem_append_left _ hc), rfl⟩
      · obtain hc | hc := hfirst c hc
        · refine ⟨d, mem_append_left _ (mem_append_right _ ?_), hc.symm⟩
          exact mem_singleton_self d
        · exact ⟨c, mem_append_right _ (mem_cons_of_mem e hc), rfl⟩

theorem Answer.result_separate (h : Canonical (done ++ e :: rest)) (answer : Answer V)
    (hseparate : Call.Separate ⟨done ++ e :: rest, e, answer⟩) :
    ∃ done', answer.result done e rest = done' ++ rest ∧
      (done'.length = done.length ∨ done'.length = done.length + 1) := by
  cases answer with
  | nothing =>
    refine ⟨done ++ [e], ?_, .inr length_append⟩
    rw [result, append_assoc, singleton_append]
  | remove => exact ⟨done, rfl, .inl rfl⟩
  | put value =>
    have hright : ∀ x : RangeTableEntry V, x.last = e.last → x.val = value →
        joinRight x rest = x :: rest := by
      intro x hlast hval
      cases rest with
      | nil => rfl
      | cons d rest =>
        refine if_neg fun hjoin => ?_
        refine hseparate value rfl d (mem_append_right _ ?_) (hlast ▸ hjoin.2) ?_
        · exact mem_cons_of_mem e (mem_cons_self ..)
        · rw [← hval, hjoin.1]
    rw [result]
    obtain heq | ⟨done', d, rfl, heq⟩ := joinLeft_cases done { e with val := value }
    · refine ⟨done ++ [{ e with val := value }], ?_, .inr length_append⟩
      rw [heq, append_assoc, singleton_append]
      exact congrArg (done ++ ·) (hright { e with val := value } rfl rfl)
    · refine ⟨done' ++ [{ e with first := d.first, val := value }], ?_, .inl ?_⟩
      · rw [heq, append_assoc, singleton_append]
        exact congrArg (done' ++ ·) (hright { e with first := d.first, val := value } rfl rfl)
      · rw [length_append, length_append]
        rfl

theorem Answer.result_joined (h : Canonical (done ++ e :: rest)) (answer : Answer V)
    (hjoined : ¬ Call.Separate ⟨done ++ e :: rest, e, answer⟩) :
    ∃ d rest', rest = d :: rest' ∧ ∀ c ∈ answer.result done e rest, c.first ≠ d.first := by
  unfold Call.Separate at hjoined
  push Not at hjoined
  obtain ⟨value, rfl, d, hd, hfirst, hval⟩ := hjoined
  simp only at hd hfirst
  obtain ⟨hdone, hrest, hall⟩ := Canonical.append_iff.mp h
  have hproper := hrest.proper e (mem_cons_self ..)
  have hdproper := h.proper d hd
  have hnext : d ∈ rest := by
    obtain hd | hd := List.mem_append.mp hd
    · have := (hall d hd e (mem_cons_self ..)).1
      omega
    · obtain rfl | hd := List.mem_cons.mp hd
      · omega
      · exact hd
  cases rest with
  | nil => cases hnext
  | cons b rest' =>
    obtain rfl : d = b := by
      obtain rfl | hlater := List.mem_cons.mp hnext
      · rfl
      · have := (hrest.head_apart b (mem_cons_self ..)).1
        have := (hrest.tail.head_apart d hlater).1
        have := hrest.tail.proper b (mem_cons_self ..)
        omega
    refine ⟨d, rest', rfl, ?_⟩
    have hright : ∀ x : RangeTableEntry V, x.last = e.last → x.val = value → x.first ≤ e.first →
        ∀ c ∈ joinRight x (d :: rest'), c.first ≠ d.first := by
      intro x hlast hxval hxfirst c hc
      rw [joinRight, if_pos ⟨hxval.trans hval.symm, by omega⟩] at hc
      obtain rfl | hc := List.mem_cons.mp hc
      · simp only
        omega
      · have := (hrest.tail.head_apart c hc).1
        omega
    have hbefore : ∀ c ∈ done, c.first < d.first := by
      intro c hc
      have := (hall c hc e (mem_cons_self ..)).1
      have := hdone.proper c hc
      omega
    rw [result]
    intro c hc
    obtain heq | ⟨done', b, rfl, heq⟩ := joinLeft_cases done { e with val := value }
    · rw [heq] at hc
      obtain hc | hc := List.mem_append.mp hc
      · exact (hbefore c hc).ne
      · exact hright { e with val := value } rfl rfl (Int.le_refl _) c hc
    · rw [heq] at hc
      obtain hc | hc := List.mem_append.mp hc
      · exact (hbefore c (mem_append_left _ hc)).ne
      · refine hright { e with first := b.first, val := value } rfl rfl ?_ c hc
        have hb : b ∈ done' ++ [b] := mem_append_right _ (mem_singleton_self b)
        have := (hall b hb e (mem_cons_self ..)).1
        have := hdone.proper b hb
        simp only
        omega

/-! ### The walk -/

omit [DecidableEq V] in
theorem nodup_of_canonical (h : Canonical orig) : orig.Nodup := by
  refine List.Pairwise.imp_of_mem (fun {a b} ha hb hab => ?_) h.apart
  rintro rfl
  have := hab.1
  have := h.proper a ha
  omega

/-- What holds when the loop is at the index `i`, for the table it started on: as long as no call
has joined the entry with the next one, the entries that are to come are as they were; then
there is an entry that is not passed and never will be. -/
structure Walks (orig : List (RangeTableEntry V)) (i : Nat) (table : List (RangeTableEntry V))
    (calls : List (Call V)) : Prop where
  canonical : Canonical table
  separate : (∀ c ∈ calls, c.Separate) → ∃ done rest, table = done ++ rest ∧
    orig = calls.map Call.entry ++ rest ∧ (i = done.length ∨ rest = [] ∧ done.length ≤ i)
  joined : (∃ c ∈ calls, ¬ c.Separate) →
    ∃ d ∈ orig, d ∉ calls.map Call.entry ∧ ∀ c ∈ table, c.first ≠ d.first

/-- One call. -/
theorem Walks.step {i : Nat} {calls : List (Call V)} (horig : Canonical orig)
    (h : Walks orig i (done ++ e :: rest) calls) (hi : i = done.length) (answer : Answer V) {j : Nat}
    (hj : ∀ done', answer.result done e rest = done' ++ rest →
      done'.length = done.length ∨ done'.length = done.length + 1 →
        j = done'.length ∨ rest = [] ∧ done'.length ≤ j) :
    Walks orig j (answer.result done e rest) (calls ++ [⟨done ++ e :: rest, e, answer⟩]) := by
  obtain ⟨-, hcanonical⟩ := Answer.run_eq h.canonical answer
  have hcalls : (∀ c ∈ calls ++ [(⟨done ++ e :: rest, e, answer⟩ : Call V)], c.Separate) ↔
      (∀ c ∈ calls, c.Separate) ∧ Call.Separate ⟨done ++ e :: rest, e, answer⟩ := by
    rw [forall_mem_append, forall_mem_singleton]
  have hnow : (∀ c ∈ calls, c.Separate) → orig = calls.map Call.entry ++ e :: rest := by
    intro hall
    obtain ⟨done₀, rest₀, htable, hrest, hor⟩ := h.separate hall
    have hlength : done.length = done₀.length := by
      obtain heq | ⟨rfl, hle⟩ := hor
      · omega
      · rw [append_nil] at htable
        have := congrArg List.length htable
        rw [length_append, length_cons] at this
        omega
    rw [hrest, (append_inj htable hlength).2]
  refine ⟨hcanonical, fun hall => ?_, fun hsome => ?_⟩
  · obtain ⟨hall, hseparate⟩ := hcalls.mp hall
    obtain ⟨done', hresult, hlength⟩ := Answer.result_separate h.canonical answer hseparate
    refine ⟨done', rest, hresult, ?_, hj done' hresult hlength⟩
    rw [hnow hall, map_append, append_assoc]
    rfl
  · by_cases hall : ∀ c ∈ calls, c.Separate
    · have hjoined : ¬ Call.Separate ⟨done ++ e :: rest, e, answer⟩ := by
        intro hseparate
        obtain ⟨c, hc, hnot⟩ := hsome
        exact hnot (hcalls.mpr ⟨hall, hseparate⟩ c hc)
      obtain ⟨d, rest', rfl, hgone⟩ := Answer.result_joined h.canonical answer hjoined
      have hnodup := nodup_of_canonical horig
      have horder := hnow hall
      refine ⟨d, ?_, ?_, hgone⟩
      · rw [horder]
        exact mem_append_right _ (mem_cons_of_mem e (mem_cons_self ..))
      · rw [map_append]
        rw [horder, ← singleton_append, ← append_assoc] at hnodup
        exact fun hd => (List.nodup_append.mp hnodup).2.2 d hd d (mem_cons_self ..) rfl
    · push Not at hall
      obtain ⟨d, hd, hnot, hgone⟩ := h.joined hall
      refine ⟨d, hd, ?_, fun c hc => ?_⟩
      · rw [map_append, mem_append, not_or]
        refine ⟨hnot, fun hin => ?_⟩
        obtain rfl := List.mem_singleton.mp hin
        exact hgone d (mem_append_right _ (mem_cons_self ..)) rfl
      · obtain ⟨b, hb, hfirst⟩ := (answer.result_le _ _ _).2 c hc
        exact hfirst ▸ hgone b hb

/-- The loop, with fuel for every entry that is to come. -/
theorem Walks.run {table : List (RangeTableEntry V)} {calls : List (Call V)} {i fuel : Nat}
    (function : σ → List (RangeTableEntry V) → RangeTableEntry V → σ × Answer V) (world : σ)
    (horig : Canonical orig) (h : Walks orig i table calls) (hfuel : table.length < fuel + i)
    (hpos : 0 < fuel) :
    ∃ j table' calls', mapLoop function fuel i world table calls = some (table', calls') ∧
      Walks orig j table' calls' ∧ table'.length ≤ j := by
  induction fuel generalizing i world table calls with
  | zero => exact absurd hpos (lt_irrefl 0)
  | succ fuel ih =>
    rw [mapLoop]
    cases hentry : table[i]? with
    | none => exact ⟨i, table, calls, rfl, h, List.getElem?_eq_none_iff.mp hentry⟩
    | some e =>
      obtain ⟨hi, rfl⟩ := List.getElem?_eq_some_iff.mp hentry
      have htable : table = table.take i ++ table[i] :: table.drop (i + 1) := by
        rw [← drop_eq_getElem_cons hi, take_append_drop]
      have hlength : i = (table.take i).length := by
        rw [length_take]
        omega
      generalize table[i] = e at htable hentry
      generalize table.take i = done at htable hlength
      generalize table.drop (i + 1) = rest at htable
      subst htable
      obtain ⟨hrun, hcanonical⟩ := Answer.run_eq h.canonical (function world (done ++ e :: rest) e).2
      simp only [hrun, Option.bind_eq_bind, Option.bind_some]
      generalize hanswer : (function world (done ++ e :: rest) e).2 = answer
      rw [hanswer] at hcanonical
      have hle := (answer.result_le done e rest).1
      have hrest : ∀ done', answer.result done e rest = done' ++ rest →
          done'.length = done.length → (answer.result done e rest)[i]? = rest[0]? := by
        intro done' hresult hsame
        rw [hresult, hlength, ← hsame, getElem?_append_right (Nat.le_refl _), Nat.sub_self]
      cases hnext : (answer.result done e rest)[i]? with
      | none =>
        refine ih _ (h.step horig hlength answer fun done' hresult hor => ?_) (by omega) (by omega)
        obtain hsame | hmore := hor
        · have hnil := (hrest done' hresult hsame).symm.trans hnext
          have hzero := Nat.le_zero.mp (List.getElem?_eq_none_iff.mp hnil)
          exact .inr ⟨List.length_eq_zero_iff.mp hzero, by omega⟩
        · exact .inl (by omega)
      | some e' =>
        simp only
        split
        · rename_i hagain
          refine ih _ (h.step horig hlength answer fun done' hresult hor => ?_) (by omega) (by omega)
          refine .inl (hlength.trans ?_)
          obtain hsame | hmore := hor
          · exact hsame.symm
          · have hlt := hagain.1
            rw [hresult, length_append, length_append, length_cons] at hlt
            omega
        · rename_i hon
          refine ih _ (h.step horig hlength answer fun done' hresult hor => ?_) (by omega) (by omega)
          refine .inl (hlength ▸ ?_)
          obtain hsame | hmore := hor
          · -- the table is shorter, and the next entry begins elsewhere
            have hhead := (hrest done' hresult hsame).symm.trans hnext
            have hmem := mem_of_getElem? hhead
            obtain ⟨-, hcons, -⟩ := Canonical.append_iff.mp h.canonical
            have hbefore := (hcons.head_apart e' hmem).1
            have hproper := hcons.proper e (mem_cons_self ..)
            refine absurd ⟨?_, .inl (by omega)⟩ hon
            rw [hresult, length_append, length_append, length_cons]
            omega
          · exact hmore.symm

/-- **`map-range-table` passes each entry once** if and only if no call puts the value of an
entry just after the current range. -/
theorem map_range_table_once_iff (h : Canonical orig)
    (function : σ → List (RangeTableEntry V) → RangeTableEntry V → σ × Answer V) (world : σ) :
    ∃ table calls, mapRangeTable function orig world = some (table, calls) ∧
      ((∀ e ∈ orig, (calls.map Call.entry).count e = 1) ↔ ∀ c ∈ calls, c.Separate) := by
  have hstart : Walks orig 0 orig ([] : List (Call V)) :=
    ⟨h, fun _ => ⟨[], orig, rfl, rfl, .inl rfl⟩, fun ⟨c, hc, _⟩ => absurd hc List.not_mem_nil⟩
  obtain ⟨j, table, calls, hrun, hwalks, hend⟩ :=
    hstart.run function world h (Nat.lt_succ_self _) (Nat.succ_pos _)
  refine ⟨table, calls, hrun, fun hall => ?_, fun hall => ?_⟩
  · by_contra hnot
    push Not at hnot
    obtain ⟨d, hd, hno, -⟩ := hwalks.joined hnot
    have hone := hall d hd
    rw [List.count_eq_zero.mpr hno] at hone
    cases hone
  · obtain ⟨done, rest, rfl, horder, hor⟩ := hwalks.separate hall
    have hrest : rest = [] := by
      obtain rfl | ⟨hnil, -⟩ := hor
      · rw [List.length_append] at hend
        exact List.length_eq_zero_iff.mp (by omega)
      · exact hnil
    rw [hrest, List.append_nil] at horder
    intro e he
    rw [← horder]
    exact List.count_eq_one_of_mem (nodup_of_canonical h) he

/-- The ranges 1 to 2 with the value `a` and 3 to 4 with `b`, and a function that gives each range
the value `b`: the first call makes one range of the two, which is passed next. -/
theorem twoRanges_not_once : Canonical [⟨1, 2, 'a'⟩, ⟨3, 4, 'b'⟩] ∧
    (mapRangeTable (fun _ _ _ => ((), Answer.put 'b')) [⟨1, 2, 'a'⟩, ⟨3, 4, 'b'⟩] ()).map
        (fun result => result.2.map Call.entry) = some [⟨1, 2, 'a'⟩, ⟨1, 4, 'b'⟩] ∧
    ¬ ∃ table calls, mapRangeTable (fun _ _ _ => ((), Answer.put 'b'))
        [⟨1, 2, 'a'⟩, ⟨3, 4, 'b'⟩] () = some (table, calls) ∧
      ∀ e ∈ [⟨1, 2, 'a'⟩, ⟨3, 4, 'b'⟩], (calls.map Call.entry).count e = 1 := by
  have hcanonical : Canonical [⟨1, 2, 'a'⟩, ⟨3, 4, 'b'⟩] := by
    refine ⟨by decide, ?_⟩
    simp [Apart]
  have hrun : (mapRangeTable (fun _ _ _ => ((), Answer.put 'b'))
      [⟨1, 2, 'a'⟩, ⟨3, 4, 'b'⟩] ()).map (fun result => result.2.map Call.entry)
        = some [⟨1, 2, 'a'⟩, ⟨1, 4, 'b'⟩] := by
    decide
  refine ⟨hcanonical, hrun, ?_⟩
  rintro ⟨table, calls, hmap, hall⟩
  rw [hmap, Option.map_some, Option.some.injEq] at hrun
  have hone := hall ⟨3, 4, 'b'⟩ (by decide)
  rw [hrun] at hone
  exact absurd hone (by decide)

theorem twoRanges_once_iff : ∃ table calls, mapRangeTable (fun _ _ _ => ((), Answer.put 'c'))
      [⟨1, 2, 'a'⟩, ⟨4, 5, 'b'⟩] () = some (table, calls) ∧
    ((∀ e ∈ [⟨1, 2, 'a'⟩, ⟨4, 5, 'b'⟩], (calls.map Call.entry).count e = 1) ↔
      ∀ c ∈ calls, c.Separate) :=
  map_range_table_once_iff ⟨by decide, by simp [Apart]⟩ _ ()

end XEmacs.Rangetab
