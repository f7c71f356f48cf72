import Mathlib.Data.List.Lex
import XEmacs.Keymap.Lookup
import XEmacs.Lib.ListSort

/-!
# The order of keys

`map-keymap` with SORT-FIRST and `keymap_submaps` sort the entries of a table by
`map_keymap_sort_predicate`. It is made to put characters before symbols, and modifier keys last
("if only one is a bucky, then it comes later").
-/

namespace XEmacs.Keymap

open ListSort

/-- `MODIFIER_HASH_KEY_BITS`. -/
def Key.modifierBits : Key → Nat
  | .modifiers m => m.bits
  | .keysym _ => 0

/-- What the comparison of keys reads of a symbol: the value of its `character-set-property`, if
that is a character or the code of one, and the bytes of its name. -/
structure KeysymEnv where
  characterSetProperty : Keysym → Option Nat
  name : Keysym → List Nat

/-- `XTYPE`. -/
inductive XType
  | char
  | int
  | record
  deriving DecidableEq

def Key.xtype : Key → XType
  | .modifiers _ => .int
  | .keysym (.char _) => .char
  | .keysym _ => .record

section predicate

variable (env : KeysymEnv)

/-- "If either is a symbol with a character-set-property, then sort it by that code instead of
alphabetically": the key to compare, and whether it was such a symbol. -/
def coerceKeysym : Key → Key × Bool
  | .modifiers m => (.modifiers m, false)
  | .keysym (.char c) => (.keysym (.char c), false)
  | .keysym k =>
    match env.characterSetProperty k with
    | some code => (.keysym (.char code), true)
    | none => (.keysym k, false)

/-- The bytes up to the NUL that ends a C string. -/
def cString (name : List Nat) : List Nat :=
  name.takeWhile (· ≠ 0)

def Key.xchar : Key → Nat
  | .keysym (.char c) => c
  | _ => 0

/-- `string_data (XSYMBOL (obj)->name)`. -/
def Key.stringData : Key → List Nat
  | .keysym k => env.name k
  | .modifiers _ => []

def mapKeymapSortPredicate (key1 key2 : Key) : Int :=
  let bit1 := key1.modifierBits
  let bit2 := key2.modifierBits
  let (obj1, sym1P) := coerceKeysym env key1
  let (obj2, sym2P) := coerceKeysym env key2
  if key1 = key2 then -1
  -- all symbols come after characters
  else if obj1.xtype ≠ obj2.xtype then
    if obj2.xtype = .record then 1 else -1
  else if bit1 = 0 ∧ obj1.xtype = .char then
    if obj1.xchar = obj2.xchar ∧ sym1P ≠ sym2P then
      if sym2P then 1 else -1
    else if obj1.xchar < obj2.xchar then 1 else -1
  else if bit1 ≠ 0 ∧ bit2 ≠ 0 then
    if bit1 < bit2 then 1 else -1
  else if bit1 ≠ 0 ∨ bit2 ≠ 0 then
    if bit2 ≠ 0 then 1 else -1
  else if cString (obj1.stringData env) < cString (obj2.stringData env) then 1 else -1

/-- The result that lets `list_merge` put the first key first. -/
def before (key1 key2 : Key) : Bool :=
  0 ≤ mapKeymapSortPredicate env key1 key2

/-- The entries of a table as `map_keymap_sorted` and `keymap_submaps` go through them: the conses
of a key and its binding, sorted. -/
def sortContents {β : Type} (contents : List (Key × β)) : List (Key × β) :=
  listSort (fun obj1 obj2 => before env obj1.1 obj2.1) contents

/-- The order of the keys of a table is canonical: a strict weak order with the modifier keys
behind the characters, and the sorted entries are in an order that depends on the keys alone. -/
structure SortsCanonically (keys : List Key) : Prop where
  order : StrictWeakOn (before env) (· ∈ keys)
  modifiers : ∀ c m, .keysym (.char c) ∈ keys → .modifiers m ∈ keys →
    before env (.keysym (.char c)) (.modifiers m)
  canonical : ∀ l₁ l₂ : List (Key × Def), (l₁.map Prod.fst).Perm keys →
    (l₂.map Prod.fst).Perm keys →
    (sortContents env l₁).map Prod.fst = (sortContents env l₂).map Prod.fst

/-- The code a key is sorted by as a character. -/
def Key.code : Key → Option Nat
  | .modifiers _ => none
  | .keysym (.char c) => some c
  | .keysym k => env.characterSetProperty k

/-- A key that is a symbol. -/
def Key.symbolp (key : Key) : Bool :=
  key.xtype = .record

/-- No two keys of a table are taken for each other: there is no modifier key beside a character or
a symbol with the code of one, no code belongs to two symbols, and the names of two symbols without
a code differ. -/
structure TellsApart (keys : List Key) : Prop where
  modifiers : ∀ m, .modifiers m ∈ keys → ∀ key ∈ keys, key.code env = none
  codes : ∀ key ∈ keys, ∀ key' ∈ keys, key.symbolp → key'.symbolp →
    key.code env ≠ none → key.code env = key'.code env → key = key'
  names : ∀ key ∈ keys, ∀ key' ∈ keys, key.symbolp → key'.symbolp →
    key.code env = none → key'.code env = none →
    cString (key.stringData env) = cString (key'.stringData env) → key = key'

end predicate

/-! ## What keys are compared by -/

/-- What a key is compared by: a character, with whether it was a symbol; the bits of a modifier
key; or the name of a symbol. -/
inductive Rank
  | char (code : Nat) (symP : Bool)
  | bits (n : Nat)
  | name (s : List Nat)

/-- What a key is compared by. -/
def rank (env : KeysymEnv) (key : Key) : Rank :=
  match coerceKeysym env key with
  | (.modifiers m, _) => .bits m.bits
  | (.keysym (.char c), symP) => .char c symP
  | (.keysym k, _) => .name (cString (env.name k))

/-- One rank comes before another. -/
def Rank.Before : Rank → Rank → Prop
  | .char c symP, .char c' symP' => c < c' ∨ c = c' ∧ symP = false ∧ symP' = true
  | .char _ _, .name _ => True
  | .bits n, .bits n' => n < n'
  | .bits _, .name _ => True
  | .name s, .name s' => s < s'
  | _, _ => False

section rank

variable {env : KeysymEnv} {key key' : Key}

theorem coerceKeysym_cases (env : KeysymEnv) (key : Key) :
    (∃ m, key = .modifiers m) ∨
    (∃ c, coerceKeysym env key = (.keysym (.char c), key.symbolp) ∧ key.modifierBits = 0 ∧
      key.code env = some c ∧ (key.symbolp = false → key = .keysym (.char c))) ∨
    (coerceKeysym env key = (key, false) ∧ key.modifierBits = 0 ∧ key.code env = none ∧
      key.xtype = .record ∧ rank env key = .name (cString (key.stringData env))) := by
  match key with
  | .modifiers m => exact .inl ⟨m, rfl⟩
  | .keysym (.char c) => exact .inr (.inl ⟨c, rfl, rfl, rfl, fun _ => rfl⟩)
  | .keysym .nil | .keysym .space | .keysym .backspace | .keysym .tab | .keysym .linefeed
  | .keysym .return | .keysym .escape | .keysym .delete | .keysym (.charSymbol _)
  | .keysym (.symbol _) =>
    right
    simp only [coerceKeysym, rank, Key.code]
    cases env.characterSetProperty _ with
    | none => exact .inr ⟨rfl, rfl, rfl, rfl, rfl⟩
    | some c => exact .inl ⟨c, rfl, rfl, rfl, fun h => Bool.noConfusion h⟩

theorem Modifiers.bits_injective : Function.Injective Modifiers.bits := by
  rintro ⟨a, b, c, d, e, f, n⟩ ⟨a', b', c', d', e', f', n'⟩ h
  simp only [bits] at h
  have hle : ∀ b : Bool, b.toNat ≤ 1 := Bool.toNat_le
  have := hle a; have := hle b; have := hle c; have := hle d; have := hle e; have := hle f
  have := hle a'; have := hle b'; have := hle c'; have := hle d'; have := hle e'; have := hle f'
  have hinj : ∀ b b' : Bool, b.toNat = b'.toNat → b = b' := by decide
  rw [hinj a a' (by omega), hinj b b' (by omega), hinj c c' (by omega), hinj d d' (by omega),
    hinj e e' (by omega), hinj f f' (by omega), show n = n' by omega]

@[simp] theorem xtype_modifiers (m : Modifiers) : (Key.modifiers m).xtype = .int :=
  rfl

@[simp] theorem xtype_char (c : Nat) : (Key.keysym (.char c)).xtype = .char :=
  rfl

@[simp] theorem coerceKeysym_modifiers (env : KeysymEnv) (m : Modifiers) :
    coerceKeysym env (.modifiers m) = (.modifiers m, false) :=
  rfl

theorem rank_modifiers (env : KeysymEnv) (m : Modifiers) :
    rank env (.modifiers m) = .bits m.bits :=
  rfl

theorem rank_char {c : Nat} {symP : Bool}
    (h : coerceKeysym env key = (.keysym (.char c), symP)) : rank env key = .char c symP := by
  rw [rank, h]

/-- **The comparison** of two keys compares their ranks. -/
theorem before_iff : before env key key' ↔ key ≠ key' ∧ (rank env key).Before (rank env key') := by
  by_cases heq : key = key'
  · simp [before, mapKeymapSortPredicate, heq]
  rw [and_iff_right heq, before, decide_eq_true_iff, mapKeymapSortPredicate]
  obtain ⟨m, rfl⟩ | ⟨c, hc, hbits, -, -⟩ | ⟨hc, hbits, -, htype, hrank⟩ :=
    coerceKeysym_cases env key
  · obtain ⟨m', rfl⟩ | ⟨c', hc', -, -, -⟩ | ⟨hc', -, -, htype', hrank'⟩ :=
      coerceKeysym_cases env key'
    · have hne : m.bits ≠ m'.bits := fun h => heq (congrArg _ (Modifiers.bits_injective h))
      simp [heq, Key.modifierBits, rank_modifiers, Rank.Before]
      split_ifs <;> omega
    · simp [heq, hc', rank_modifiers, rank_char hc', Rank.Before]
    · simp [heq, hc', htype', hrank', rank_modifiers, Rank.Before]
  · obtain ⟨m', rfl⟩ | ⟨c', hc', -, -, -⟩ | ⟨hc', -, -, htype', hrank'⟩ :=
      coerceKeysym_cases env key'
    · simp [heq, hc, rank_modifiers, rank_char hc, Rank.Before]
    · simp [heq, hc, hc', hbits, Key.xchar, rank_char hc, rank_char hc', Rank.Before]
      generalize key.symbolp = symP
      generalize key'.symbolp = symP'
      cases symP <;> cases symP' <;> grind
    · simp [heq, hc, hc', htype', hrank', rank_char hc, Rank.Before]
  · obtain ⟨m', rfl⟩ | ⟨c', hc', -, -, -⟩ | ⟨hc', hbits', -, htype', hrank'⟩ :=
      coerceKeysym_cases env key'
    · simp [heq, hc, htype, hrank, rank_modifiers, Rank.Before]
    · simp [heq, hc, hc', htype, hrank, rank_char hc', Rank.Before]
    · simp [heq, hc, hc', hbits, hbits', htype, htype', hrank, hrank', Rank.Before]
      split_ifs with h <;> simp [h]

theorem Rank.Before.asymm {r r' : Rank} (h : r.Before r') : ¬ r'.Before r := by
  cases r with
  | char c symP =>
    cases r' with
    | char c' symP' =>
      simp only [Before] at h ⊢
      cases symP <;> cases symP' <;> grind
    | bits n => exact absurd h id
    | name s => exact id
  | bits n =>
    cases r' with
    | char c symP => exact id
    | bits n' => exact Nat.lt_asymm h
    | name s => exact id
  | name s =>
    cases r' with
    | char c symP => exact absurd h id
    | bits n => exact absurd h id
    | name s' => exact lt_asymm (show s < s' from h)

theorem Rank.Before.trans {r r' r'' : Rank} (h : r.Before r') (h' : r'.Before r'') :
    r.Before r'' := by
  match r, r', r'', h, h' with
  | .char c symP, .char c' symP', .char c'' symP'', h, h' =>
    simp only [Before] at h h' ⊢
    cases symP <;> cases symP' <;> cases symP'' <;> grind
  | .char _ _, .char _ _, .name _, _, _ | .char _ _, .name _, .name _, _, _ => trivial
  | .bits _, .bits _, .bits _, h, h' => exact Nat.lt_trans h h'
  | .bits _, .bits _, .name _, _, _ | .bits _, .name _, .name _, _, _ => trivial
  | .name s, .name s', .name s'', h, h' => exact lt_trans (show s < s' from h) h'

/-! ## When the order is canonical -/

theorem rank_cases (env : KeysymEnv) (key : Key) :
    (∃ m, key = .modifiers m ∧ rank env key = .bits m.bits ∧ key.code env = none) ∨
    (∃ c, rank env key = .char c key.symbolp ∧ key.code env = some c ∧
      (key.symbolp = false → key = .keysym (.char c))) ∨
    (rank env key = .name (cString (key.stringData env)) ∧ key.code env = none ∧
      key.symbolp) := by
  obtain ⟨m, rfl⟩ | ⟨c, hc, -, hcode, hchar⟩ | ⟨-, -, hcode, htype, hrank⟩ :=
    coerceKeysym_cases env key
  · exact .inl ⟨m, rfl, rank_modifiers env m, rfl⟩
  · exact .inr (.inl ⟨c, rank_char hc, hcode, hchar⟩)
  · exact .inr (.inr ⟨hrank, hcode, decide_eq_true htype⟩)

theorem TellsApart.comparable {keys : List Key} (h : TellsApart env keys) (hkey : key ∈ keys)
    (hkey' : key' ∈ keys) (hne : key ≠ key') : before env key key' ∨ before env key' key := by
  rw [before_iff, before_iff, and_iff_right hne, and_iff_right hne.symm]
  obtain ⟨m, rfl, hrank, -⟩ | ⟨c, hrank, hcode, hchar⟩ | ⟨hrank, hcode, hsym⟩ :=
    rank_cases env key
  · obtain ⟨m', rfl, hrank', -⟩ | ⟨c', hrank', hcode', -⟩ | ⟨hrank', -⟩ := rank_cases env key'
    · rw [hrank, hrank']
      exact Nat.lt_or_gt_of_ne fun heq => hne (congrArg _ (Modifiers.bits_injective heq))
    · rw [h.modifiers m hkey key' hkey'] at hcode'
      cases hcode'
    · rw [hrank, hrank']
      exact .inl trivial
  · obtain ⟨m', rfl, -⟩ | ⟨c', hrank', hcode', hchar'⟩ | ⟨hrank', -⟩ := rank_cases env key'
    · rw [h.modifiers m' hkey' key hkey] at hcode
      cases hcode
    · rw [hrank, hrank']
      simp only [Rank.Before]
      obtain hlt | rfl | hlt := Nat.lt_trichotomy c c'
      · exact .inl (.inl hlt)
      · -- a character and a symbol for it, since one of two characters or two symbols is enough
        cases hsym : key.symbolp with
        | false =>
          cases hsym' : key'.symbolp with
          | false => exact absurd ((hchar hsym).trans (hchar' hsym').symm) hne
          | true => exact .inl (.inr ⟨rfl, rfl, rfl⟩)
        | true =>
          cases hsym' : key'.symbolp with
          | false => exact .inr (.inr ⟨rfl, rfl, rfl⟩)
          | true =>
            refine absurd (h.codes key hkey key' hkey' hsym hsym' ?_ ?_) hne
            · rw [hcode]
              exact Option.some_ne_none c
            · rw [hcode, hcode']
      · exact .inr (.inl hlt)
    · rw [hrank, hrank']
      exact .inl trivial
  · obtain ⟨m', rfl, hrank', -⟩ | ⟨c', hrank', -⟩ | ⟨hrank', hcode', hsym'⟩ :=
      rank_cases env key'
    · rw [hrank, hrank']
      exact .inr trivial
    · rw [hrank, hrank']
      exact .inr trivial
    · rw [hrank, hrank']
      exact lt_or_gt_of_ne fun heq =>
        hne (h.names key hkey key' hkey' hsym hsym' hcode hcode' heq)

theorem tellsApart_iff {keys : List Key} : TellsApart env keys ↔
    ∀ key ∈ keys, ∀ key' ∈ keys, key ≠ key' → before env key key' ∨ before env key' key := by
  constructor
  · exact fun h key hkey key' hkey' hne => h.comparable hkey hkey' hne
  intro h
  -- two keys with ranks that do not come before each other are one
  have hsame : ∀ key ∈ keys, ∀ key' ∈ keys, ¬ (rank env key).Before (rank env key') →
      ¬ (rank env key').Before (rank env key) → key = key' := by
    intro key hkey key' hkey' hlt hgt
    by_contra hne
    obtain hbefore | hbefore := h key hkey key' hkey' hne
    · exact hlt (before_iff.mp hbefore).2
    · exact hgt (before_iff.mp hbefore).2
  refine ⟨fun m hm key hkey => ?_, fun key hkey key' hkey' hsym hsym' hne heq => ?_,
    fun key hkey key' hkey' hsym hsym' hnone hnone' heq => ?_⟩
  · obtain ⟨_, -, -, hcode⟩ | ⟨c, hrank, hcode, -⟩ | ⟨-, hcode, -⟩ := rank_cases env key
    · exact hcode
    · have hkeys : .modifiers m = key := by
        refine hsame _ hm key hkey ?_ ?_ <;> rw [rank_modifiers, hrank] <;> exact id
      rw [← hkeys] at hcode
      cases hcode
    · exact hcode
  · obtain ⟨_, rfl, -⟩ | ⟨c, hrank, hcode, -⟩ | ⟨-, hcode, -⟩ := rank_cases env key
    · cases hsym
    · obtain ⟨_, rfl, -⟩ | ⟨c', hrank', hcode', -⟩ | ⟨-, hcode', -⟩ := rank_cases env key'
      · cases hsym'
      · have hc : c = c' := Option.some_injective _ (by rw [← hcode, ← hcode', heq])
        refine hsame key hkey key' hkey' ?_ ?_ <;>
          rw [hrank, hrank', hsym, hsym', hc] <;> simp [Rank.Before]
      · rw [heq, hcode'] at hne
        exact absurd rfl hne
    · exact absurd hcode hne
  · obtain ⟨_, rfl, -⟩ | ⟨c, -, hcode, -⟩ | ⟨hrank, -⟩ := rank_cases env key
    · cases hsym
    · rw [hnone] at hcode
      cases hcode
    · obtain ⟨_, rfl, -⟩ | ⟨c', -, hcode', -⟩ | ⟨hrank', -⟩ := rank_cases env key'
      · cases hsym'
      · rw [hnone'] at hcode'
        cases hcode'
      · refine hsame key hkey key' hkey' ?_ ?_ <;> rw [hrank, hrank', heq] <;> exact lt_irrefl _

theorem before_asymm (h : before env key key') : before env key' key = false := by
  rw [← Bool.not_eq_true, before_iff, not_and]
  exact fun _ => (before_iff.mp h).2.asymm

theorem before_trans {key'' : Key} (h : before env key key') (h' : before env key' key'') :
    before env key key'' := by
  have hlt := (before_iff.mp h).2.trans (before_iff.mp h').2
  refine before_iff.mpr ⟨?_, hlt⟩
  rintro rfl
  exact hlt.asymm hlt

end rank

/-- No symbol has a code, and the names are numbered. -/
def plainKeysyms : KeysymEnv where
  characterSetProperty := fun _ => none
  name
    | .symbol i => [i + 1]
    | _ => []

end XEmacs.Keymap
