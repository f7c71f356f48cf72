import Mathlib.Data.List.Perm.Subperm
import Mathlib.Logic.Function.Basic
import XEmacs.Lib.Chains
import XEmacs.Sxhash.Hash

/-!
# Obarrays (symbols.c)

An obarray is a vector of hash chains: an element is zero, or the first symbol of a chain that is
linked by the fields `next` of its symbols.
-/

namespace XEmacs.Obarray

open Chains Function

open List hiding Chain

/-! ## The code -/

/-- A symbol, with the value it has when it is interned. -/
structure Lisp_Symbol where
  name : List Nat
  next : Option ℕ
  value : Option ℕ

/-- An element of an obarray. -/
inductive Bucket where
  | zero
  | symbol (sym : ℕ)
  | other
  deriving DecidableEq

/-- The first symbol of the chain. -/
def Bucket.first : Bucket → Option ℕ
  | symbol sym => some sym
  | _ => none

/-- The vectors that may be obarrays; what is no vector has no elements. -/
structure Vectors where
  length : ℕ → ℕ
  initialObarray : ℕ

/-- The symbols made so far, the elements of the vectors, and `Vobarray`. -/
structure Symbols where
  symbol : ℕ → Lisp_Symbol
  count : ℕ
  data : ℕ × ℕ → Bucket
  vobarray : ℕ

/-- A name given to a function: a string or a symbol. -/
inductive Name where
  | string (name : List Nat)
  | symbol (sym : ℕ)

/-- What a call returns; an error returns nothing. -/
inductive Value where
  | symbol (sym : ℕ)
  | nil
  | t
  | error
  deriving DecidableEq

/-- What `oblookup` returns. -/
inductive Looked where
  | symbol (sym : ℕ)
  | int (hash : ℕ)
  | error

/-- Whether the symbol found will do: a symbol is to be found itself. -/
def Name.isFor : Name → ℕ → Bool
  | string _, _ => true
  | symbol sym, tem => sym = tem

/-- The name that is looked up. -/
def Name.chars (symbolName : ℕ → List Nat) : Name → List Nat
  | string name => name
  | symbol sym => symbolName sym

variable (v : Vectors)

/-- `check_obarray`, after nil has been taken for `Vobarray`: the obarray, unless an error is
signaled, and `Vobarray` afterwards. -/
def checkObarray (vobarray : ℕ) (obarray : Option ℕ) : Option ℕ × ℕ :=
  let obarray := obarray.getD vobarray
  if v.length obarray = 0 then
    (none, if vobarray = obarray then v.initialObarray else vobarray)
  else (some obarray, vobarray)

/-- The place in the obarray that a name hashes to. -/
def place (obarray : ℕ) (name : List Nat) : ℕ × ℕ :=
  (obarray, (Sxhash.hashString name).toNat % v.length obarray)

namespace Symbols

variable (s : Symbols)

/-- The loop of `oblookup` from `tail` on. -/
def oblookupLoop (name : List Nat) : ℕ → ℕ → Option (Option ℕ)
  | 0, _ => none
  | fuel + 1, tail =>
    if (s.symbol tail).name = name then some (some tail)
    else
      match (s.symbol tail).next with
      | none => some none
      | some next => oblookupLoop name fuel next

/-- `oblookup`; it does not end on a chain of more symbols than there are. -/
def oblookup (obarray : ℕ) (name : List Nat) : Option Looked :=
  match s.data (place v obarray name) with
  | .zero => some (.int (place v obarray name).2)
  | .other => some .error
  | .symbol bucket => (s.oblookupLoop name s.count bucket).map fun found =>
      found.elim (.int (place v obarray name).2) .symbol

/-- A function of an obarray that has been checked. -/
def withObarray (obarray : Option ℕ) (body : ℕ → Option (Symbols × Value)) :
    Option (Symbols × Value) :=
  match checkObarray v s.vobarray obarray with
  | (none, vobarray) => some ({ s with vobarray }, .error)
  | (some obarray, _) => body obarray

/-- A new symbol in front of the chain at a place; a keyword of `Vobarray` is its own value. -/
def push (k : ℕ × ℕ) (name : List Nat) : Symbols where
  symbol := update s.symbol s.count
    { name
      next := (s.data k).first
      value := if name.head? = some 0x3A ∧ k.1 = s.vobarray then some s.count else none }
  count := s.count + 1
  data := update s.data k (.symbol s.count)
  vobarray := s.vobarray

def intern (name : List Nat) (obarray : Option ℕ) : Option (Symbols × Value) :=
  s.withObarray v obarray fun obarray => (s.oblookup v obarray name).map fun
    | .symbol object => (s, .symbol object)
    | .error => (s, .error)
    | .int hash => (s.push (obarray, hash) name, .symbol s.count)

def internSoft (name : Name) (obarray : Option ℕ) : Option (Symbols × Value) :=
  s.withObarray v obarray fun obarray =>
    (s.oblookup v obarray (name.chars fun a => (s.symbol a).name)).map fun
    | .symbol tem => (s, if name.isFor tem then .symbol tem else .nil)
    | .error => (s, .error)
    | .int _ => (s, .nil)

/-- The loop of `Funintern` from `tail` on. -/
def uninternLoop (tem : ℕ) : ℕ → ℕ → Option (ℕ → Lisp_Symbol)
  | 0, _ => none
  | fuel + 1, tail =>
    match (s.symbol tail).next with
    | none => some s.symbol
    | some following =>
      if following = tem then
        some (update s.symbol tail { s.symbol tail with next := (s.symbol following).next })
      else uninternLoop tem fuel following

/-- How `Funintern` takes the symbol `tem` out of the chain at a place. -/
def unlink (tem : ℕ) (k : ℕ × ℕ) : Option Symbols :=
  match s.data k with
  | .symbol bucket =>
    if bucket = tem then
      some { s with data := update s.data k ((s.symbol tem).next.elim .zero .symbol) }
    else (s.uninternLoop tem s.count bucket).map fun symbol => { s with symbol }
  | _ => none

def unintern (name : Name) (obarray : Option ℕ) : Option (Symbols × Value) :=
  s.withObarray v obarray fun obarray =>
    (s.oblookup v obarray (name.chars fun a => (s.symbol a).name)).bind fun
    | .int _ => some (s, .nil)
    | .error => some (s, .error)
    | .symbol tem =>
      if name.isFor tem then
        (s.unlink tem (place v obarray (name.chars fun a => (s.symbol a).name))).map (·, .t)
      else some (s, .nil)

/-- The inner loop of `map_obarray`: the symbols it calls `fn` for, and whether that stops it. -/
def mapTail (fn : ℕ → Bool) : ℕ → ℕ → Option (List ℕ × Bool)
  | 0, _ => none
  | fuel + 1, tail =>
    if fn tail then some ([tail], true)
    else
      match (s.symbol tail).next with
      | none => some ([tail], false)
      | some next => (mapTail fn fuel next).map fun r => (tail :: r.1, r.2)

/-- The outer loop, over the elements in front of an index. -/
def mapBelow (fn : ℕ → Bool) (obarray : ℕ) : ℕ → Option (List ℕ × Bool)
  | 0 => some ([], false)
  | i + 1 =>
    match s.data (obarray, i) with
    | .symbol tail => (s.mapTail fn s.count tail).bind fun r =>
        if r.2 then some r else (mapBelow fn obarray i).map fun r' => (r.1 ++ r'.1, r'.2)
    | _ => mapBelow fn obarray i

/-- `map_obarray`, with a function that leaves the obarray alone. -/
def mapObarray (fn : ℕ → Bool) (obarray : ℕ) : Option (List ℕ × Bool) :=
  s.mapBelow fn obarray (v.length obarray)

end Symbols

/-- The calls. -/
inductive Call where
  | makeSymbol (name : List Nat)
  | setObarray (obarray : ℕ)
  | intern (name : List Nat) (obarray : Option ℕ)
  | internSoft (name : Name) (obarray : Option ℕ)
  | unintern (name : Name) (obarray : Option ℕ)

def Symbols.call (s : Symbols) : Call → Option (Symbols × Value)
  | .makeSymbol name =>
    some ({ s with symbol := update s.symbol s.count ⟨name, none, none⟩, count := s.count + 1 },
      .symbol s.count)
  | .setObarray obarray => some ({ s with vobarray := obarray }, .nil)
  | .intern name obarray => s.intern v name obarray
  | .internSoft name obarray => s.internSoft v name obarray
  | .unintern name obarray => s.unintern v name obarray

/-- Calls, one after the other, with what they return. -/
def Symbols.calls (s : Symbols) : List Call → Option (Symbols × List Value)
  | [] => some (s, [])
  | c :: l => (s.call v c).bind fun r => (r.1.calls l).map fun r' => (r'.1, r.2 :: r'.2)

/-! ## The maps -/

/-- Maps from names to symbols, one for each obarray. -/
structure Table where
  name : ℕ → List Nat
  value : ℕ → Option ℕ
  count : ℕ
  vobarray : ℕ
  interned : ℕ × List Nat → Option ℕ
  interned_lt : ∀ {k a}, interned k = some a → a < count
  name_interned : ∀ {k a}, interned k = some a → name a = k.2
  one_obarray : ∀ {k k' a}, interned k = some a → interned k' = some a → k.1 = k'.1

namespace Table

variable (t : Table)

/-- A new symbol, which is interned at the key `k`, if there is one. -/
def make (name : List Nat) (value : Option ℕ) (k : Option ℕ) : Table where
  name := update t.name t.count name
  value := update t.value t.count value
  count := t.count + 1
  vobarray := t.vobarray
  interned := k.elim t.interned fun obarray => update t.interned (obarray, name) (some t.count)
  interned_lt := by
    rintro k' a h
    cases k with
    | none => exact Nat.lt_succ_of_lt (t.interned_lt h)
    | some obarray =>
      simp only [Option.elim_some, update_apply] at h
      split_ifs at h
      · cases h
        exact Nat.lt_succ_self _
      · exact Nat.lt_succ_of_lt (t.interned_lt h)
  name_interned := by
    rintro k' a h
    have hold : ∀ {a}, t.interned k' = some a → update t.name t.count name a = k'.2 :=
      fun h => by rw [update_of_ne (Nat.ne_of_lt (t.interned_lt h)), t.name_interned h]
    cases k with
    | none => exact hold h
    | some obarray =>
      simp only [Option.elim_some, update_apply] at h
      split_ifs at h with hk
      · cases h
        rw [update_self, hk]
      · exact hold h
  one_obarray := by
    rintro k₁ k₂ a h₁ h₂
    cases k with
    | none => exact t.one_obarray h₁ h₂
    | some obarray =>
      simp only [Option.elim_some, update_apply] at h₁ h₂
      split_ifs at h₁ h₂ with hk₁ hk₂ hk₂
      · rw [hk₁, hk₂]
      · cases h₁
        exact absurd (t.interned_lt h₂) (Nat.lt_irrefl _)
      · cases h₂
        exact absurd (t.interned_lt h₁) (Nat.lt_irrefl _)
      · exact t.one_obarray h₁ h₂

/-- The map without a key. -/
def remove (k : ℕ × List Nat) : Table :=
  have hold : ∀ {k' a}, update t.interned k none k' = some a → t.interned k' = some a := by
    intro k' a h
    rw [update_apply] at h
    split_ifs at h
    exact h
  { t with
    interned := update t.interned k none
    interned_lt := fun h => t.interned_lt (hold h)
    name_interned := fun h => t.name_interned (hold h)
    one_obarray := fun h h' => t.one_obarray (hold h) (hold h') }

/-- A function of an obarray that has been checked. -/
def withObarray (obarray : Option ℕ) (body : ℕ → Table × Value) : Table × Value :=
  match checkObarray v t.vobarray obarray with
  | (none, vobarray) => ({ t with vobarray }, .error)
  | (some obarray, _) => body obarray

/-- What a call does to the maps, and what it returns. -/
def call (t : Table) : Call → Table × Value
  | .makeSymbol name => (t.make name none none, .symbol t.count)
  | .setObarray obarray => ({ t with vobarray := obarray }, .nil)
  | .intern name obarray => t.withObarray v obarray fun obarray =>
      match t.interned (obarray, name) with
      | some a => (t, .symbol a)
      | none => (t.make name (if name.head? = some 0x3A ∧ obarray = t.vobarray then some t.count
          else none) (some obarray), .symbol t.count)
  | .internSoft name obarray => t.withObarray v obarray fun obarray =>
      match t.interned (obarray, name.chars t.name) with
      | some a => (t, if name.isFor a then .symbol a else .nil)
      | none => (t, .nil)
  | .unintern name obarray => t.withObarray v obarray fun obarray =>
      match t.interned (obarray, name.chars t.name) with
      | some a =>
        if name.isFor a then (t.remove (obarray, name.chars t.name), .t) else (t, .nil)
      | none => (t, .nil)

/-- Calls, one after the other. -/
def calls (t : Table) : List Call → Table × List Value
  | [] => (t, [])
  | c :: l =>
    let r := t.call v c
    ((r.1.calls l).1, r.2 :: (r.1.calls l).2)

end Table

/-! ## The chains hold the maps -/

namespace Symbols

/-- The symbol after a symbol. -/
def next (s : Symbols) (a : ℕ) : Option ℕ := (s.symbol a).next

/-- The chain at a place has the symbols of the map whose names hash to it. -/
structure Holds (s : Symbols) (t : Table) (chain : ℕ × ℕ → List ℕ) : Prop where
  name : ∀ a, (s.symbol a).name = t.name a
  value : ∀ a, (s.symbol a).value = t.value a
  count : s.count = t.count
  vobarray : s.vobarray = t.vobarray
  proper : ∀ k, s.data k ≠ .other
  linked : ∀ k, Chain s.next (s.data k).first (chain k)
  mem : ∀ k a, a ∈ chain k ↔ ∃ nm, place v k.1 nm = k ∧ t.interned (k.1, nm) = some a

/-- The symbols are those of the maps. -/
def Refines (s : Symbols) (t : Table) : Prop := ∃ chain, s.Holds v t chain

variable {v} {s : Symbols} {t : Table} {chain : ℕ × ℕ → List ℕ}

namespace Holds

theorem lt (h : s.Holds v t chain) {k : ℕ × ℕ} {a : ℕ} (ha : a ∈ chain k) : a < s.count := by
  obtain ⟨_, -, hin⟩ := (h.mem k a).mp ha
  exact h.count ▸ t.interned_lt hin

theorem length_le (h : s.Holds v t chain) (k : ℕ × ℕ) : (chain k).length ≤ s.count := by
  have hsub : chain k ⊆ range s.count := fun a ha => List.mem_range.mpr (h.lt ha)
  have hle := ((h.linked k).nodup.subperm hsub).length_le
  rwa [length_range] at hle

theorem one_chain (h : s.Holds v t chain) {k k' : ℕ × ℕ} {a : ℕ} (ha : a ∈ chain k)
    (ha' : a ∈ chain k') : k = k' := by
  obtain ⟨nm, hk, hin⟩ := (h.mem k a).mp ha
  obtain ⟨nm', hk', hin'⟩ := (h.mem k' a).mp ha'
  have hname : nm = nm' := (t.name_interned hin).symm.trans (t.name_interned hin')
  rw [← hk, ← hk', t.one_obarray hin hin', hname]

theorem mem_place (h : s.Holds v t chain) {obarray a : ℕ} {nm : List Nat} :
    t.interned (obarray, nm) = some a ↔ a ∈ chain (place v obarray nm) ∧ t.name a = nm := by
  constructor
  · exact fun hin => ⟨(h.mem _ a).mpr ⟨nm, rfl, hin⟩, t.name_interned hin⟩
  · rintro ⟨ha, rfl⟩
    obtain ⟨nm', -, hin⟩ := (h.mem _ a).mp ha
    have hname : t.name a = nm' := t.name_interned hin
    rw [hname]
    exact hin

theorem replace (h : s.Holds v t chain) {s' : Symbols} {t' : Table} {obarray : ℕ}
    {nm : List Nat} {l : List ℕ} (hname : ∀ a, (s'.symbol a).name = t'.name a)
    (hvalue : ∀ a, (s'.symbol a).value = t'.value a) (hcount : s'.count = t'.count)
    (hvobarray : s'.vobarray = t'.vobarray) (hproper : s'.data (place v obarray nm) ≠ .other)
    (hdata : ∀ k, k ≠ place v obarray nm → s'.data k = s.data k)
    (hnext : ∀ k, k ≠ place v obarray nm → ∀ a ∈ chain k, s'.next a = s.next a)
    (hlinked : Chain s'.next (s'.data (place v obarray nm)).first l)
    (hin : ∀ k, k ≠ (obarray, nm) → t'.interned k = t.interned k)
    (hmem : ∀ a, a ∈ l ↔ t'.interned (obarray, nm) = some a ∨
      a ∈ chain (place v obarray nm) ∧ t.name a ≠ nm) : s'.Refines v t' := by
  refine ⟨update chain (place v obarray nm) l, hname, hvalue, hcount, hvobarray, fun k => ?_,
    fun k => ?_, fun k a => ?_⟩ <;>
    by_cases hk : k = place v obarray nm
  · exact hk ▸ hproper
  · exact hdata k hk ▸ h.proper k
  · rw [hk, update_self]
    exact hlinked
  · rw [update_of_ne hk, hdata k hk]
    exact (h.linked k).congr (hnext k hk)
  · subst hk
    rw [update_self, hmem]
    constructor
    · rintro (hnew | ⟨ha, hne⟩)
      · exact ⟨nm, rfl, hnew⟩
      · obtain ⟨nm', hplace, hold⟩ := (h.mem _ a).mp ha
        refine ⟨nm', hplace, (hin _ fun heq => hne ?_).trans hold⟩
        exact (t.name_interned hold).trans (congrArg Prod.snd heq)
    · rintro ⟨nm', hplace, hnew⟩
      by_cases hnm : nm' = nm
      · exact .inl (hnm ▸ hnew)
      · rw [hin _ fun heq => hnm (congrArg Prod.snd heq)] at hnew
        exact .inr ⟨(h.mem _ a).mpr ⟨nm', hplace, hnew⟩, (t.name_interned hnew).trans_ne hnm⟩
  · rw [update_of_ne hk, h.mem]
    refine exists_congr fun nm' => and_congr_right fun hplace => ?_
    rw [hin]
    intro heq
    obtain ⟨hobarray, hnm⟩ := Prod.mk.inj heq
    exact hk (by rw [← hplace, hobarray, hnm])

theorem chars_eq (h : s.Holds v t chain) (name : Name) :
    (name.chars fun a => (s.symbol a).name) = name.chars t.name :=
  congrArg name.chars (funext h.name)

end Holds

theorem oblookupLoop_eq (s : Symbols) (nm : List Nat) {fuel a : ℕ} {l : List ℕ}
    (hl : Chain s.next (some a) l) (hfuel : l.length ≤ fuel) :
    s.oblookupLoop nm fuel a = some (l.find? fun a => (s.symbol a).name = nm) := by
  induction fuel generalizing a l with
  | zero =>
    cases hl
    cases hfuel
  | succ fuel ih =>
    cases hl with
    | @cons _ l htail =>
      rw [oblookupLoop, find?_cons]
      by_cases hname : (s.symbol a).name = nm
      · rw [if_pos hname, decide_eq_true hname]
      · rw [if_neg hname, decide_eq_false hname]
        rw [next] at htail
        cases hnext : (s.symbol a).next with
        | none =>
          rw [hnext] at htail
          cases htail
          rfl
        | some b =>
          rw [hnext] at htail
          exact ih htail (Nat.le_of_succ_le_succ hfuel)

theorem Holds.find?_eq (h : s.Holds v t chain) (obarray : ℕ) (nm : List Nat) :
    (chain (place v obarray nm)).find? (fun a => (s.symbol a).name = nm) =
      t.interned (obarray, nm) := by
  cases hfind : (chain (place v obarray nm)).find? fun a => (s.symbol a).name = nm with
  | none =>
    refine (Option.eq_none_iff_forall_ne_some.mpr fun a hin => ?_).symm
    obtain ⟨ha, hname⟩ := h.mem_place.mp hin
    exact List.find?_eq_none.mp hfind a ha (decide_eq_true ((h.name a).trans hname))
  | some a =>
    have hname := find?_some hfind
    exact (h.mem_place.mpr
      ⟨mem_of_find?_eq_some hfind, (h.name a).symm.trans (of_decide_eq_true hname)⟩).symm

/-- **`oblookup` ends with what the map has.** -/
theorem Holds.oblookup_eq (h : s.Holds v t chain) (obarray : ℕ) (nm : List Nat) :
    s.oblookup v obarray nm =
      some ((t.interned (obarray, nm)).elim (.int (place v obarray nm).2) .symbol) := by
  rw [oblookup, ← h.find?_eq obarray nm]
  have hlinked := h.linked (place v obarray nm)
  cases hdata : s.data (place v obarray nm) with
  | zero =>
    rw [hdata] at hlinked
    generalize chain (place v obarray nm) = l at hlinked
    cases hlinked
    rfl
  | other => exact absurd hdata (h.proper _)
  | symbol bucket =>
    rw [hdata] at hlinked
    simp only [oblookupLoop_eq s nm hlinked (h.length_le _), Option.map_some]

theorem Holds.push (h : s.Holds v t chain) {obarray : ℕ} {nm : List Nat}
    (hnew : t.interned (obarray, nm) = none) :
    (s.push (place v obarray nm) nm).Refines v
      (t.make nm (if nm.head? = some 0x3A ∧ obarray = t.vobarray then some t.count else none)
        (some obarray)) := by
  have hnext : ∀ k, ∀ a ∈ chain k, (s.push (place v obarray nm) nm).next a = s.next a :=
    fun k a ha => congrArg Lisp_Symbol.next (update_of_ne (Nat.ne_of_lt (h.lt ha)) ..)
  have hdata : (s.push (place v obarray nm) nm).data (place v obarray nm) = .symbol s.count :=
    update_self ..
  have hfirst : (s.push (place v obarray nm) nm).next s.count =
      (s.data (place v obarray nm)).first := by
    rw [Symbols.next, Symbols.push]
    simp only [update_self]
  refine h.replace (l := s.count :: chain (place v obarray nm)) (fun a => ?_)
    (fun a => ?_) (congrArg (· + 1) h.count) h.vobarray ?_ (fun k hk => update_of_ne hk ..)
    (fun k _ => hnext k) ?_ (fun k hk => update_of_ne hk ..) fun a => ?_
  · simp only [Symbols.push, Table.make, ← h.count, update_apply, ← h.name]
    split_ifs <;> rfl
  · have hplace : (place v obarray nm).1 = obarray := rfl
    simp only [Symbols.push, Table.make, ← h.count, ← h.vobarray, update_apply, ← h.value, hplace]
    split_ifs <;> rfl
  · rw [hdata]
    exact Bucket.noConfusion
  · rw [hdata]
    refine .cons ?_
    rw [hfirst]
    exact (h.linked _).congr (hnext _)
  · have hinterned : (t.make nm (if nm.head? = some 0x3A ∧ obarray = t.vobarray then some t.count
        else none) (some obarray)).interned (obarray, nm) = some s.count :=
      (update_self ..).trans (congrArg some h.count.symm)
    rw [hinterned, List.mem_cons, Option.some_inj, eq_comm]
    refine or_congr_right (iff_self_and.mpr fun ha hname => ?_)
    rw [h.mem_place.mpr ⟨ha, hname⟩] at hnew
    cases hnew

theorem uninternLoop_eq (s : Symbols) {tem p a fuel : ℕ} {l₁ l₂ : List ℕ}
    (hl : Chain s.next (some a) (l₁ ++ p :: tem :: l₂)) (hfuel : l₁.length < fuel) :
    s.uninternLoop tem fuel a =
      some (update s.symbol p { s.symbol p with next := s.next tem }) := by
  have hnodup := hl.nodup
  induction l₁ generalizing a fuel with
  | nil =>
    cases fuel with
    | zero => cases hfuel
    | succ fuel =>
      cases hl with
      | cons htail =>
        have hnext : (s.symbol p).next = some tem := htail.first_eq
        simp only [uninternLoop, hnext, if_pos]
        rfl
  | cons b l₁ ih =>
    cases fuel with
    | zero => cases hfuel
    | succ fuel =>
      cases hl with
      | cons htail =>
        have hrest := (List.nodup_cons.mp hnodup).2
        obtain ⟨c, hc, hne⟩ : ∃ c, (l₁ ++ p :: tem :: l₂).head? = some c ∧ c ≠ tem := by
          cases l₁ with
          | nil => exact ⟨p, rfl, by rintro rfl; simp at hrest⟩
          | cons d l₁ => exact ⟨d, rfl, by rintro rfl; simp at hrest⟩
        have hnext : s.next b = some c := htail.first_eq.trans hc
        simp only [uninternLoop, show (s.symbol b).next = some c from hnext, if_neg hne]
        exact ih (hnext ▸ htail) (Nat.lt_of_succ_lt_succ hfuel) hrest

/-- A symbol of a chain is taken out of it, and the links of other symbols stay. -/
theorem unlink_eq (s : Symbols) {k : ℕ × ℕ} {tem : ℕ} {l : List ℕ} (hproper : s.data k ≠ .other)
    (hl : Chain s.next (s.data k).first l) (htem : tem ∈ l) (hlen : l.length ≤ s.count) :
    ∃ symbol bucket l', s.unlink tem k =
        some { s with symbol, data := update s.data k bucket } ∧ bucket ≠ .other ∧
      (∀ a, (symbol a).name = (s.symbol a).name ∧ (symbol a).value = (s.symbol a).value) ∧
      (∀ a, a ∉ l → (symbol a).next = s.next a) ∧
      Chain (fun a => (symbol a).next) bucket.first l' ∧ ∀ a, a ∈ l' ↔ a ∈ l ∧ a ≠ tem := by
  rw [unlink]
  cases hdata : s.data k with
  | other => exact absurd hdata hproper
  | zero =>
    rw [hdata] at hl
    cases hl
    cases htem
  | symbol bucket =>
    have hnodup := hl.nodup
    rw [hdata] at hl
    obtain ⟨l₁, l₂, rfl⟩ := append_of_mem htem
    have hmem : ∀ a, a ∈ l₁ ++ l₂ ↔ a ∈ l₁ ++ tem :: l₂ ∧ a ≠ tem := by
      intro a
      rw [nodup_middle, List.nodup_cons] at hnodup
      rw [List.mem_append, List.mem_append, List.mem_cons]
      constructor
      · intro ha
        refine ⟨by tauto, ?_⟩
        rintro rfl
        exact hnodup.1 (List.mem_append.mpr ha)
      · tauto
    rcases List.eq_nil_or_concat l₁ with rfl | ⟨l₁, p, rfl⟩
    · cases hl with
      | cons htail =>
        refine ⟨s.symbol, _, l₂, if_pos rfl, ?_, fun _ => ⟨rfl, rfl⟩, fun _ _ => rfl, ?_, hmem⟩
        · cases (s.symbol tem).next <;> exact Bucket.noConfusion
        · have hfirst : ((s.symbol tem).next.elim Bucket.zero .symbol).first = s.next tem := by
            rw [next]
            cases (s.symbol tem).next <;> rfl
          rw [hfirst]
          exact htail
    · rw [List.concat_eq_append, List.append_assoc, List.singleton_append] at hl hlen hnodup hmem ⊢
      have hne : bucket ≠ tem := by
        have hfirst : some bucket = (l₁ ++ p :: tem :: l₂).head? := hl.first_eq
        rintro rfl
        cases l₁ with
        | nil =>
          cases hfirst
          exact absurd hnodup (by simp)
        | cons b l₁ =>
          cases hfirst
          exact absurd hnodup (by simp)
      have hfuel : l₁.length < s.count := by
        rw [List.length_append, List.length_cons] at hlen
        omega
      have hother : ∀ a, a ≠ p → (update s.symbol p { s.symbol p with next := s.next tem } a) =
          s.symbol a :=
        fun a ha => update_of_ne ha ..
      refine ⟨update s.symbol p { s.symbol p with next := s.next tem }, .symbol bucket,
        l₁ ++ p :: l₂, ?_, by rintro ⟨⟩, fun a => ?_, fun a ha => ?_, ?_, by simpa using hmem⟩
      · simp only [if_neg hne, uninternLoop_eq s hl hfuel, Option.map_some, ← hdata,
          update_eq_self]
      · by_cases ha : a = p
        · subst ha
          rw [update_self]
          exact ⟨rfl, rfl⟩
        · rw [hother a ha]
          exact ⟨rfl, rfl⟩
      · rw [hother a fun h => ha (by simp [h])]
        rfl
      · refine hl.relink (fun b hb => congrArg Lisp_Symbol.next (hother b hb)) ?_
        rw [update_self]
        have hsplit : Chain s.next (some bucket) ((l₁ ++ [p]) ++ tem :: l₂) := by
          rw [List.append_assoc]
          exact hl
        refine hsplit.after.congr fun b hb => congrArg Lisp_Symbol.next (hother b ?_)
        rintro rfl
        exact absurd hnodup (by simp [nodup_append, hb])

theorem Holds.unlink (h : s.Holds v t chain) {obarray tem : ℕ} {nm : List Nat}
    (hin : t.interned (obarray, nm) = some tem) :
    ∃ s', s.unlink tem (place v obarray nm) = some s' ∧
      s'.Refines v (t.remove (obarray, nm)) := by
  obtain ⟨htem, hname⟩ := h.mem_place.mp hin
  obtain ⟨symbol, bucket, l, hunlink, hproper, hsame, hnext, hl, hmem⟩ :=
    unlink_eq s (h.proper _) (h.linked _) htem (h.length_le _)
  have hnone : (t.remove (obarray, nm)).interned (obarray, nm) = none := update_self ..
  refine ⟨_, hunlink, h.replace (l := l) (fun a => (hsame a).1.trans (h.name a))
    (fun a => (hsame a).2.trans (h.value a)) h.count h.vobarray ?_ (fun k hk => update_of_ne hk ..)
    (fun k hk a ha => hnext a fun ha' => hk (h.one_chain ha ha')) ?_
    (fun k hk => update_of_ne hk ..) fun a => ?_⟩
  · simpa only [update_self] using hproper
  · show Chain _ (update s.data (place v obarray nm) bucket (place v obarray nm)).first l
    rw [update_self]
    exact hl
  · -- what is left are the symbols with another name
    rw [hmem, hnone, or_iff_right (by rintro ⟨⟩)]
    refine and_congr_right fun ha => not_congr ⟨fun heq => heq ▸ hname, fun heq => ?_⟩
    exact Option.some.inj ((h.mem_place.mpr ⟨ha, heq⟩).symm.trans hin)

/-- **A call** ends, and does what it does to the maps. -/
theorem Refines.call (h : s.Refines v t) (c : Call) :
    ∃ s', s.call v c = some (s', (t.call v c).2) ∧ s'.Refines v (t.call v c).1 := by
  obtain ⟨chain, h⟩ := h
  have hobarray : ∀ obarray body tbody,
      (∀ obarray, ∃ s', body obarray = some (s', (tbody obarray).2) ∧
        s'.Refines v (tbody obarray).1) →
      ∃ s', s.withObarray v obarray body = some (s', (t.withObarray v obarray tbody).2) ∧
        s'.Refines v (t.withObarray v obarray tbody).1 := by
    intro obarray body tbody hbody
    rw [withObarray, Table.withObarray, h.vobarray]
    obtain ⟨found, vobarray⟩ := checkObarray v t.vobarray obarray
    cases found with
    | none => exact ⟨_, rfl, chain, h.name, h.value, h.count, rfl, h.proper, h.linked, h.mem⟩
    | some obarray => exact hbody obarray
  cases c with
  | makeSymbol nm =>
    have hother : ∀ a, a ≠ s.count → update s.symbol s.count ⟨nm, none, none⟩ a = s.symbol a :=
      fun a ha => update_of_ne ha ..
    have hreturn : ∀ s' : Symbols, some (s', Value.symbol s.count) = some (s', .symbol t.count) :=
      fun s' => by rw [h.count]
    refine ⟨_, hreturn _, chain, fun a => ?_, fun a => ?_, congrArg (· + 1) h.count, h.vobarray,
      h.proper, fun k => ?_, h.mem⟩
    · simp only [Table.call, Table.make, ← h.count, update_apply, ← h.name]
      split_ifs <;> rfl
    · simp only [Table.call, Table.make, ← h.count, update_apply, ← h.value]
      split_ifs <;> rfl
    · exact (h.linked k).congr fun a ha =>
        congrArg Lisp_Symbol.next (hother a (Nat.ne_of_lt (h.lt ha)))
  | setObarray obarray =>
    exact ⟨_, rfl, chain, h.name, h.value, h.count, rfl, h.proper, h.linked, h.mem⟩
  | intern nm obarray =>
    refine hobarray obarray _ _ fun obarray => ?_
    rw [h.oblookup_eq]
    cases hin : t.interned (obarray, nm) with
    | none => exact ⟨_, by rw [← h.count]; rfl, h.push hin⟩
    | some a => exact ⟨s, rfl, chain, h⟩
  | internSoft name obarray =>
    refine hobarray obarray _ _ fun obarray => ?_
    rw [h.oblookup_eq, h.chars_eq]
    cases hin : t.interned (obarray, name.chars t.name) with
    | none => exact ⟨s, rfl, chain, h⟩
    | some a => exact ⟨s, rfl, chain, h⟩
  | unintern name obarray =>
    refine hobarray obarray _ _ fun obarray => ?_
    rw [h.oblookup_eq, h.chars_eq]
    cases hin : t.interned (obarray, name.chars t.name) with
    | none => exact ⟨s, rfl, chain, h⟩
    | some a =>
      obtain ⟨s', hunlink, hs'⟩ := h.unlink hin
      by_cases hfor : name.isFor a = true
      · exact ⟨s', by simp [hfor, hunlink], by simpa only [hfor, if_true] using hs'⟩
      · exact ⟨s, by simp [hfor], by simpa [hfor] using ⟨chain, h⟩⟩

/-! ## Mapping -/

/-- A list up to the first element at which the mapping is stopped. -/
def upTo (fn : ℕ → Bool) : List ℕ → List ℕ
  | [] => []
  | a :: l => a :: if fn a then [] else upTo fn l

theorem upTo_append (fn : ℕ → Bool) (l l' : List ℕ) :
    upTo fn (l ++ l') = upTo fn l ++ if l.any fn then [] else upTo fn l' := by
  induction l with
  | nil => rfl
  | cons a l ih =>
    rw [cons_append, upTo, upTo, any_cons, ih]
    cases fn a <;> rfl

theorem mapTail_eq (s : Symbols) (fn : ℕ → Bool) {fuel a : ℕ} {l : List ℕ}
    (hl : Chain s.next (some a) l) (hfuel : l.length ≤ fuel) :
    s.mapTail fn fuel a = some (upTo fn l, l.any fn) := by
  induction fuel generalizing a l with
  | zero =>
    cases hl
    cases hfuel
  | succ fuel ih =>
    cases hl with
    | @cons _ l htail =>
      rw [mapTail, upTo, any_cons]
      cases hfn : fn a with
      | true => rfl
      | false =>
        have hfirst : (s.symbol a).next = l.head? := htail.first_eq
        rw [hfirst]
        cases l with
        | nil => rfl
        | cons b l =>
          have hrest : Chain s.next (b :: l).head? (b :: l) := htail.first_eq ▸ htail
          simp only [head?_cons, ih hrest (Nat.le_of_succ_le_succ hfuel)]
          rfl

/-- The symbols of the chains in front of an index, from the last chain on. -/
def below (chain : ℕ × ℕ → List ℕ) (obarray : ℕ) : ℕ → List ℕ
  | 0 => []
  | i + 1 => chain (obarray, i) ++ below chain obarray i

theorem mem_below {obarray n a : ℕ} :
    a ∈ below chain obarray n ↔ ∃ i < n, a ∈ chain (obarray, i) := by
  induction n with
  | zero => simp [below]
  | succ n ih =>
    rw [below, List.mem_append, ih]
    constructor
    · rintro (ha | ⟨i, hi, ha⟩)
      · exact ⟨n, Nat.lt_succ_self n, ha⟩
      · exact ⟨i, Nat.lt_succ_of_lt hi, ha⟩
    · rintro ⟨i, hi, ha⟩
      rcases Nat.lt_or_eq_of_le (Nat.le_of_lt_succ hi) with hlt | rfl
      · exact .inr ⟨i, hlt, ha⟩
      · exact .inl ha

theorem Holds.nodup_below (h : s.Holds v t chain) (obarray n : ℕ) :
    (below chain obarray n).Nodup := by
  induction n with
  | zero => exact nodup_nil
  | succ n ih =>
    refine Nodup.append (h.linked _).nodup ih fun a ha ha' => ?_
    obtain ⟨i, hi, hmem⟩ := mem_below.mp ha'
    obtain ⟨-, heq⟩ := Prod.mk.inj (h.one_chain ha hmem)
    exact Nat.ne_of_gt hi heq

theorem Holds.mapBelow_eq (h : s.Holds v t chain) (fn : ℕ → Bool) (obarray n : ℕ) :
    s.mapBelow fn obarray n =
      some (upTo fn (below chain obarray n), (below chain obarray n).any fn) := by
  induction n with
  | zero => rfl
  | succ n ih =>
    have hlinked := h.linked (obarray, n)
    have hlen := h.length_le (obarray, n)
    rw [mapBelow, below, upTo_append, any_append]
    cases hdata : s.data (obarray, n) with
    | other => exact absurd hdata (h.proper _)
    | zero =>
      rw [hdata] at hlinked
      generalize chain (obarray, n) = l at hlinked
      cases hlinked
      exact ih
    | symbol tail =>
      rw [hdata] at hlinked
      simp only [mapTail_eq s fn hlinked hlen, ih, Option.bind_some]
      cases (chain (obarray, n)).any fn <;> simp

/-- **`map_obarray` ends**, and calls its function for the symbols of the map, once for each one,
in an order that does not depend on the function, up to the first that it is stopped at. -/
theorem mapObarray_visits (h : s.Refines v t) {obarray : ℕ} (hlen : v.length obarray ≠ 0) :
    ∃ l : List ℕ, l.Nodup ∧ (∀ a, a ∈ l ↔ ∃ nm, t.interned (obarray, nm) = some a) ∧
      ∀ fn, s.mapObarray v fn obarray = some (upTo fn l, l.any fn) := by
  obtain ⟨chain, h⟩ := h
  refine ⟨_, h.nodup_below obarray _, fun a => ?_, fun fn => h.mapBelow_eq fn obarray _⟩
  rw [mem_below]
  constructor
  · rintro ⟨i, -, ha⟩
    obtain ⟨nm, -, hin⟩ := (h.mem _ a).mp ha
    exact ⟨nm, hin⟩
  · rintro ⟨nm, hin⟩
    exact ⟨_, Nat.mod_lt _ (Nat.pos_of_ne_zero hlen), (h.mem_place.mp hin).1⟩

/-! ## Runs -/

/-- **Any calls**, one after the other, end, return what the maps tell, and leave the maps they
should. -/
theorem calls_refine (h : s.Refines v t) (l : List Call) :
    ∃ s', s.calls v l = some (s', (t.calls v l).2) ∧ s'.Refines v (t.calls v l).1 := by
  induction l generalizing s t with
  | nil => exact ⟨s, rfl, h⟩
  | cons c l ih =>
    obtain ⟨s', hcall, hs'⟩ := h.call c
    obtain ⟨s'', hcalls, hs''⟩ := ih hs'
    exact ⟨s'', by rw [Symbols.calls, hcall, Option.bind_some, hcalls]; rfl, hs''⟩

def start : Symbols := ⟨fun _ => ⟨[], none, none⟩, 0, fun _ => .zero, 0⟩

def Table.start : Table where
  name _ := []
  value _ := none
  count := 0
  vobarray := 0
  interned _ := none
  interned_lt := by rintro _ _ ⟨⟩
  name_interned := by rintro _ _ ⟨⟩
  one_obarray := by rintro _ _ _ ⟨⟩

theorem start_holds (v : Vectors) : start.Holds v Table.start fun _ => [] where
  name _ := rfl
  value _ := rfl
  count := rfl
  vobarray := rfl
  proper _ := by rintro ⟨⟩
  linked _ := .nil
  mem _ _ := ⟨fun ha => absurd ha not_mem_nil, by rintro ⟨_, -, ⟨⟩⟩⟩

/-- Vectors of one element, so that all names are in one chain. -/
def oneBucket : Vectors := ⟨fun _ => 1, 0⟩

/-- Two symbols in one chain; the one behind is taken out, and its name gets another symbol. -/
theorem calls_refine_oneBucket :
    ∃ s', start.calls oneBucket [.intern [0x3A] none, .intern [0x62] none,
        .unintern (.symbol 0) none, .internSoft (.symbol 0) none, .intern [0x3A] none] =
      some (s', [.symbol 0, .symbol 1, .t, .nil, .symbol 2]) ∧
      s'.Refines oneBucket (Table.start.calls oneBucket [.intern [0x3A] none,
        .intern [0x62] none, .unintern (.symbol 0) none, .internSoft (.symbol 0) none,
        .intern [0x3A] none]).1 :=
  calls_refine ⟨_, start_holds oneBucket⟩ _

/-- The mapping comes to a symbol that has been interned. -/
theorem mapObarray_visits_one :
    ∃ l : List ℕ, l.Nodup ∧
      (∀ a, a ∈ l ↔ ∃ nm, (Table.start.make [0x62] none (some 0)).interned (0, nm) = some a) ∧
      ∀ fn, (start.push (0, 0) [0x62]).mapObarray oneBucket fn 0 =
        some (upTo fn l, l.any fn) := by
  have hnew : Table.start.interned (0, [0x62]) = none := rfl
  exact mapObarray_visits ((start_holds oneBucket).push hnew) Nat.one_ne_zero

end Symbols

end XEmacs.Obarray
