import XEmacs.Keymap.InverseExact
import XEmacs.Keymap.Walks

/-!
# Routes to a definition

A route to a definition goes through keymaps, in the walk from each submap past those before it.
-/

namespace XEmacs.Keymap

open Commands ConsLists Relation List

/-! ### Routes -/

/-- A key as it is bound: no symbol of one character, and no buttons. -/
def KeyData.plain (k : KeyData) : KeyData :=
  ⟨k.keysym.charCode, k.modifiers.sansButtons⟩

theorem Keysym.charCode_charCode (k : Keysym) : k.charCode.charCode = k.charCode := by
  cases k <;> rfl

theorem KeyData.plain_plain (k : KeyData) : k.plain.plain = k.plain := by
  simp only [KeyData.plain, Keysym.charCode_charCode]
  rfl

section routes

variable (s : Keymaps) (definition : Def)

/-- What a lookup finds in a keymap by itself for some keys is not nil. -/
inductive Occupies : Nat → List KeyData → Prop
  | key {k : Nat} {key : KeyData} {keys : List KeyData} (h : keymapLookup1 s k key ≠ .nil)
      (hkeys : keys = [] ∨ (keymapLookup1 s k key).keymapp = false) : Occupies k (key :: keys)
  | through {k m k' : Nat} {key : KeyData} {keys : List KeyData} {pre : List Nat}
      (h : keymapLookup1 s k key = .keymap m) (hk : Inherits s m pre k')
      (hkeys : Occupies k' keys) : Occupies k (key :: keys)

/-- The definition is bound in a keymap or below it. -/
inductive Leads : Nat → Prop
  | key {k : Nat} {key : KeyData} (h : keymapLookup1 s k key = definition) : Leads k
  | through {k m k' : Nat} {key : KeyData} {pre : List Nat}
      (h : keymapLookup1 s k key = .keymap m) (hk : Inherits s m pre k') (hk' : Leads k') : Leads k

variable (Passes : Nat → List KeyData → Prop)

/-- Keys on which the definition is bound, in keymaps such that those before each of them in a
walk pass the rest of the keys. -/
inductive Route : Nat → List KeyData → Prop
  | key {m k : Nat} {key : KeyData} {pre : List Nat} (hk : Inherits s m pre k)
      (hpre : ∀ p ∈ pre, Passes p [key]) (h : keymapLookup1 s k key = definition) : Route m [key]
  | through {m k m' : Nat} {key : KeyData} {keys : List KeyData} {pre : List Nat}
      (hk : Inherits s m pre k) (hpre : ∀ p ∈ pre, Passes p (key :: keys))
      (h : keymapLookup1 s k key = .keymap m') (hkeys : Route m' keys) : Route m (key :: keys)

/-- No keymap before binds the keys that are left. -/
abbrev Visible : Nat → List KeyData → Prop :=
  Route s definition fun p keys => ¬ Occupies s p keys

/-- In no keymap before, and below none, the definition is bound. -/
abbrev First : Nat → List KeyData → Prop :=
  Route s definition fun p _ => ¬ Leads s definition p

/-- The search from a keymap, with `n` keys so far, comes to 20 keys. -/
inductive Deep : Nat → Nat → Prop
  | here {n k m : Nat} {key : KeyData} (h : keymapLookup1 s k key = .keymap m)
      (hn : 20 ≤ n + 1) : Deep n k
  | through {n k m k' : Nat} {key : KeyData} {pre : List Nat}
      (h : keymapLookup1 s k key = .keymap m) (hk : Inherits s m pre k')
      (hpre : ∀ p ∈ pre, ¬ Leads s definition p) (hk' : Deep (n + 1) k') : Deep n k

/-- The definition is bound on the keys in a keymap or below it. -/
def RouteAt (k : Nat) (keys : List KeyData) : Prop :=
  (∃ key, keys = [key] ∧ keymapLookup1 s k key = definition) ∨
    ∃ key m rest, keys = key :: rest ∧ keymapLookup1 s k key = .keymap m ∧
      Route s definition Passes m rest

variable {s definition Passes}

theorem route_iff {m : Nat} {keys : List KeyData} : Route s definition Passes m keys ↔
    ∃ pre k, Inherits s m pre k ∧ (∀ p ∈ pre, Passes p keys) ∧
      RouteAt s definition Passes k keys := by
  constructor
  · intro h
    cases h with
    | key hk hpre h => exact ⟨_, _, hk, hpre, .inl ⟨_, rfl, h⟩⟩
    | through hk hpre h hkeys => exact ⟨_, _, hk, hpre, .inr ⟨_, _, _, rfl, h, hkeys⟩⟩
  · rintro ⟨pre, k, hk, hpre, ⟨key, rfl, h⟩ | ⟨key, m', rest, rfl, h, hrest⟩⟩
    · exact .key hk hpre h
    · exact .through hk hpre h hrest

theorem Route.occupies (hdef : definition ≠ .nil) {m : Nat} {keys : List KeyData}
    (h : Route s definition Passes m keys) :
    ∃ pre k, Inherits s m pre k ∧ Occupies s k keys := by
  induction h with
  | key hk _ h => exact ⟨_, _, hk, .key (h ▸ hdef) (.inl rfl)⟩
  | through hk _ h _ ih =>
    obtain ⟨pre, k', hk', hocc⟩ := ih
    exact ⟨_, _, hk, .through h hk' hocc⟩

theorem RouteAt.occupies (hdef : definition ≠ .nil) {k : Nat} {keys : List KeyData}
    (h : RouteAt s definition Passes k keys) : Occupies s k keys := by
  obtain ⟨key, rfl, h⟩ | ⟨key, m, rest, rfl, h, hrest⟩ := h
  · exact .key (h ▸ hdef) (.inl rfl)
  · obtain ⟨pre, k', hk', hocc⟩ := hrest.occupies hdef
    exact .through h hk' hocc

theorem Route.leads {m : Nat} {keys : List KeyData} (h : Route s definition Passes m keys) :
    ∃ pre k, Inherits s m pre k ∧ Leads s definition k := by
  induction h with
  | key hk _ h => exact ⟨_, _, hk, .key h⟩
  | through hk _ h _ ih =>
    obtain ⟨pre, k', hk', hleads⟩ := ih
    exact ⟨_, _, hk, .through h hk' hleads⟩

theorem keymapLookup1_plain (k : Nat) (key : KeyData) :
    keymapLookup1 s k key.plain = keymapLookup1 s k key := by
  simp only [keymapLookup1, keymapLookupDirectly, KeyData.plain, Keysym.charCode_charCode]
  rfl

theorem Occupies.plain {k : Nat} {keys : List KeyData} (h : Occupies s k keys) :
    Occupies s k (keys.map KeyData.plain) := by
  induction h with
  | @key k key keys h hkeys =>
    rw [← keymapLookup1_plain] at h hkeys
    exact .key h (hkeys.imp_left fun hnil => by rw [hnil]; rfl)
  | through h hk _ ih =>
    rw [← keymapLookup1_plain] at h
    exact .through h hk ih

theorem Occupies.plain_iff {k : Nat} {keys : List KeyData} :
    Occupies s k (keys.map KeyData.plain) ↔ Occupies s k keys := by
  refine ⟨fun h => ?_, Occupies.plain⟩
  induction keys generalizing k with
  | nil => exact h
  | cons key keys ih =>
    rw [map_cons] at h
    cases h with
    | key h hkeys =>
      rw [keymapLookup1_plain] at h hkeys
      exact .key h (hkeys.imp_left List.map_eq_nil_iff.mp)
    | through h hk hocc =>
      rw [keymapLookup1_plain] at h
      exact .through h hk (ih hocc)

theorem RouteAt.plain_iff {k : Nat} {key : KeyData} {keys : List KeyData}
    (hroute : ∀ m, Route s definition Passes m (keys.map KeyData.plain) ↔
      Route s definition Passes m keys) :
    RouteAt s definition Passes k (key.plain :: keys.map KeyData.plain) ↔
      RouteAt s definition Passes k (key :: keys) := by
  constructor
  · rintro (⟨key', heq, h⟩ | ⟨key', m, rest, heq, h, hrest⟩)
    · obtain ⟨rfl, hnil⟩ := List.cons.inj heq
      rw [map_eq_nil_iff] at hnil
      rw [keymapLookup1_plain] at h
      exact .inl ⟨key, by rw [hnil], h⟩
    · obtain ⟨rfl, rfl⟩ := List.cons.inj heq
      rw [keymapLookup1_plain] at h
      exact .inr ⟨key, m, keys, rfl, h, (hroute m).mp hrest⟩
  · rintro (⟨key', heq, h⟩ | ⟨key', m, rest, heq, h, hrest⟩)
    · cases heq
      exact .inl ⟨_, rfl, by rw [keymapLookup1_plain, h]⟩
    · cases heq
      exact .inr ⟨_, m, _, rfl, by rw [keymapLookup1_plain, h], (hroute m).mpr hrest⟩

theorem Route.plain_iff
    (hpasses : ∀ p keys, Passes p (keys.map KeyData.plain) ↔ Passes p keys) {m : Nat}
    {keys : List KeyData} :
    Route s definition Passes m (keys.map KeyData.plain) ↔ Route s definition Passes m keys := by
  induction keys generalizing m with
  | nil => rfl
  | cons key keys ih =>
    rw [route_iff, route_iff]
    simp only [hpasses]
    refine exists_congr fun pre => exists_congr fun k => and_congr_right fun _ =>
      and_congr_right fun _ => RouteAt.plain_iff fun m => ih

theorem First.plain_iff {m : Nat} {keys : List KeyData} :
    First s definition m (keys.map KeyData.plain) ↔ First s definition m keys :=
  Route.plain_iff fun _ _ => Iff.rfl

theorem Visible.plain_iff {m : Nat} {keys : List KeyData} :
    Visible s definition m (keys.map KeyData.plain) ↔ Visible s definition m keys :=
  Route.plain_iff fun _ _ => not_congr Occupies.plain_iff

end routes

/-! ### Keymaps as they should be -/

/-- Modifiers under which `keymap_store` looks for a keymap, other than meta. -/
def Modifiers.Others (m : Modifiers) : Prop :=
  m.modMeta = false ∧ m.buttons = 0 ∧ m ≠ .none

/-- A keymap without a default binding, a binding of the meta prefix character or a menu item with
the definition, whose keymaps for modifiers are what `create_bucky_submap` makes, and whose inverse
table and cache are right. -/
structure Regular (env : KeyEnv) (s : Keymaps) (definition : Def) (m : Nat) : Prop where
  default : (s.map m).defaultBinding = .nil
  metaPrefix : ∀ key, keymapLookup1 s m key ≠ .nil → metaPrefixCharP env key = false
  items : ∀ key i d, (s.map m).table.lookup key = some (.item i d) →
    .item i d ≠ definition ∧ getKeyelt d ≠ definition ∧ (getKeyelt d).keymapp = false
  keysyms : ∀ k d, (s.map m).table.lookup (.keysym k) = some d → k.charCode = k
  modifiers : ∀ mods d, (s.map m).table.lookup (.modifiers mods) = some d →
    ∃ b, d = .keymap b ∧ (s.map b).parents = [] ∧
      (mods = .onlyMeta ∧ (s.map b).table.lookup (.modifiers .onlyMeta) = none ∨
        mods.Others ∧ ∀ mods', (s.map b).table.lookup (.modifiers mods') = none)
  cache : ∀ maps, (s.map m).subMapsCache = some maps → maps.Perm (submapEntries (s.map m).table)
  inverse : ∃ ps e, Entry s.cells (s.entry (m, definition)) ps e ∧
    ExactEntry (s.map m).table definition e

section modifiers

variable {env : KeyEnv} {s : Keymaps} {definition : Def} {w : Nat → Nat}

/-! ### Keymaps for modifiers -/

/-- Where the keys in `m` have the modifiers `mods`, those in `m'` have `mods'`. -/
inductive Extends (s : Keymaps) : Nat → Modifiers → Nat → Modifiers → Prop
  | refl {m : Nat} {mods : Modifiers} : Extends s m mods m mods
  | step {m k m' : Nat} {mods b mods' : Modifiers}
      (h : (s.map m).table.lookup (.modifiers b) = some (.keymap k))
      (hk : Extends s k (mods.or b) m' mods') : Extends s m mods m' mods'

theorem bucky_eq_some {m k : Nat} {mods : Modifiers} : s.bucky m mods = some k ↔
    (s.map m).table.lookup (.modifiers mods) = some (.keymap k) := by
  rw [← gethash_eq_iff _ _ (fun h => by cases h), Keymaps.bucky]
  split
  · rename_i k' heq
    rw [heq, Option.some_inj, Def.keymap.injEq]
  · rename_i hne
    exact iff_of_false (fun h => by cases h) (hne k)

theorem Modifiers.none_or (m : Modifiers) : Modifiers.none.or m = m := by
  simp [Modifiers.or, Modifiers.none]

theorem Modifiers.exists_eq {m : Modifiers} (h : m.buttons = 0) :
    m = .none ∨ m.Others ∨ m = .onlyMeta ∨ ∃ b : Modifiers, b.Others ∧ m = .or .onlyMeta b := by
  by_cases hnone : m.sansMeta = .none
  · cases hmeta : m.modMeta with
    | false =>
      left
      rw [← hnone, Modifiers.sansMeta, ← hmeta]
    | true =>
      right; right; left
      have heq : m = { m.sansMeta with modMeta := true } := by
        rw [Modifiers.sansMeta, ← hmeta]
      rw [heq, hnone]
      rfl
  · cases hmeta : m.modMeta with
    | false =>
      right; left
      refine ⟨hmeta, h, fun heq => hnone ?_⟩
      rw [heq]
      rfl
    | true =>
      right; right; right
      refine ⟨m.sansMeta, ⟨rfl, h, hnone⟩, ?_⟩
      simp [Modifiers.or, Modifiers.onlyMeta, Modifiers.none, Modifiers.sansMeta, ← hmeta]

theorem Modifiers.Others.sans_eq {b : Modifiers} (hb : b.Others) :
    b.sansButtons = b ∧ b.sansMeta = b := by
  obtain ⟨hmeta, hbuttons, -⟩ := hb
  constructor
  · rw [Modifiers.sansButtons, ← hbuttons]
  · rw [Modifiers.sansMeta, ← hmeta]

theorem submapFor_others {k : Nat} {b : Modifiers} (hb : b.Others) :
    s.submapFor k b = s.bucky k b := by
  rw [Keymaps.submapFor, hb.sans_eq.1, hb.sans_eq.2, hb.1]
  simp [hb.2.2]

theorem submapFor_both {k : Nat} {b : Modifiers} (hb : b.Others) :
    s.submapFor k (.or .onlyMeta b) = (s.bucky k .onlyMeta).bind fun k => s.bucky k b := by
  have hsans : (Modifiers.or .onlyMeta b).sansButtons.sansMeta = b := by
    have hor : (Modifiers.or .onlyMeta b).sansButtons.sansMeta = b.sansButtons.sansMeta := by
      simp [Modifiers.or, Modifiers.onlyMeta, Modifiers.none, Modifiers.sansMeta,
        Modifiers.sansButtons]
    rw [hor, hb.sans_eq.1, hb.sans_eq.2]
  have hmeta : (Modifiers.or .onlyMeta b).sansButtons.modMeta = true := by
    simp [Modifiers.or, Modifiers.onlyMeta, Modifiers.sansButtons]
  rw [Keymaps.submapFor, hsans, hmeta]
  simp [hb.2.2]

theorem extends_iff {k m : Nat} {mods : Modifiers}
    (hreg : ∀ m, ReflTransGen (Link s) k m → Regular env s definition m) :
    Extends s k .none m mods ↔ mods.buttons = 0 ∧ s.submapFor k mods = some m := by
  constructor
  · intro h
    cases h with
    | refl => exact ⟨rfl, rfl⟩
    | @step _ k₁ _ _ b _ h₁ h =>
      have hlink : ReflTransGen (Link s) k k₁ := .single (.inl ⟨_, h₁⟩)
      obtain ⟨k₁', heq, -, hb⟩ := (hreg k .refl).modifiers b _ h₁
      cases heq
      rw [Modifiers.none_or] at h
      obtain ⟨rfl, hno⟩ | ⟨hb, hno⟩ := hb
      · cases h with
        | refl => exact ⟨rfl, bucky_eq_some.mpr h₁⟩
        | @step _ k₂ _ _ b _ h₂ h =>
          obtain ⟨k₂', heq, -, hb⟩ := (hreg k₁ hlink).modifiers b _ h₂
          cases heq
          obtain ⟨rfl, -⟩ | ⟨hb, hno₂⟩ := hb
          · rw [hno] at h₂
            cases h₂
          · cases h with
            | refl =>
              refine ⟨?_, ?_⟩
              · simp [Modifiers.or, hb.2.1, Modifiers.onlyMeta, Modifiers.none]
              · rw [submapFor_both hb, bucky_eq_some.mpr h₁]
                exact bucky_eq_some.mpr h₂
            | step h₃ _ =>
              rw [hno₂] at h₃
              cases h₃
      · cases h with
        | refl => exact ⟨hb.2.1, (submapFor_others hb).trans (bucky_eq_some.mpr h₁)⟩
        | step h₂ _ =>
          rw [hno] at h₂
          cases h₂
  · rintro ⟨hbuttons, h⟩
    obtain rfl | hb | rfl | ⟨b, hb, rfl⟩ := Modifiers.exists_eq hbuttons
    · cases h
      exact .refl
    · rw [submapFor_others hb] at h
      refine .step (bucky_eq_some.mp h) ?_
      rw [Modifiers.none_or]
      exact .refl
    · exact .step (bucky_eq_some.mp h) .refl
    · rw [submapFor_both hb, Option.bind_eq_some_iff] at h
      obtain ⟨k₁, h₁, h₂⟩ := h
      exact .step (bucky_eq_some.mp h₁) (.step (bucky_eq_some.mp h₂) .refl)

theorem Extends.link {m m' : Nat} {mods mods' : Modifiers} (h : Extends s m mods m' mods') :
    ReflTransGen (Link s) m m' := by
  induction h with
  | refl => exact .refl
  | step h _ ih => exact .head (.inl ⟨_, h⟩) ih

/-- A keymap in which the keys have the modifiers `mods` binds a key to `d`, by itself or in its
keymaps for modifiers. -/
def Own (s : Keymaps) (m : Nat) (mods : Modifiers) (key : KeyData) (d : Def) : Prop :=
  ∃ m', Extends s m mods m' key.modifiers ∧
    (s.map m').table.lookup (.keysym key.keysym) = some d

theorem Own.link {m m' : Nat} {mods : Modifiers} {key : KeyData}
    (h : Own s m mods key (.keymap m')) : TransGen (Link s) m m' := by
  obtain ⟨k, hk, hlookup⟩ := h
  exact TransGen.tail' hk.link (.inl ⟨_, hlookup⟩)

theorem Regular.getKeyelt_eq_iff {m : Nat} (h : Regular env s definition m) {key : Key} {d : Def}
    (hd : d = definition ∨ d.keymapp = true) (hnil : d ≠ .nil) :
    getKeyelt ((s.map m).gethash key) = d ↔ (s.map m).table.lookup key = some d := by
  rw [← gethash_eq_iff _ _ hnil]
  cases hv : (s.map m).gethash key with
  | nil => rfl
  | command i => rfl
  | keymap k => rfl
  | item i v =>
    obtain ⟨hitem, hne, hkeymapp⟩ := h.items key i v
      ((gethash_eq_iff _ _ fun h => by cases h).mp hv)
    obtain rfl | hd := hd
    · exact iff_of_false hne hitem
    · refine iff_of_false (fun heq => ?_) fun heq => ?_
      · have heq : getKeyelt v = d := heq
        rw [heq, hd] at hkeymapp
        cases hkeymapp
      · rw [← heq] at hd
        cases hd

theorem keymapLookup1_eq (k : Nat) (key : KeyData) : keymapLookup1 s k key =
    (s.submapFor k key.modifiers).elim .nil fun m =>
      getKeyelt ((s.map m).gethash (.keysym key.keysym.charCode)) := by
  rw [keymapLookup1, keymapLookupDirectly, Keymaps.submapFor]
  split
  · rename_i hnone
    rw [hnone]
    rfl
  · rename_i m hm
    rw [hm]
    rfl

theorem own_iff {k : Nat} {key : KeyData} {d : Def}
    (hreg : ∀ m, ReflTransGen (Link s) k m → Regular env s definition m)
    (hd : d = definition ∨ d.keymapp = true) (hnil : d ≠ .nil) :
    Own s k .none key d ↔ key.plain = key ∧ keymapLookup1 s k key = d := by
  rw [keymapLookup1_eq]
  constructor
  · rintro ⟨m, hm, hlookup⟩
    have hm' := hreg m hm.link
    obtain ⟨hbuttons, hsubmap⟩ := (extends_iff hreg).mp hm
    have hcharCode := hm'.keysyms _ _ hlookup
    refine ⟨?_, ?_⟩
    · rw [KeyData.plain, hcharCode, Modifiers.sansButtons, ← hbuttons]
    · rw [hsubmap, hcharCode]
      exact (hm'.getKeyelt_eq_iff hd hnil).mpr hlookup
  · rintro ⟨hplain, h⟩
    have hcharCode : key.keysym.charCode = key.keysym := congrArg KeyData.keysym hplain
    have hbuttons : key.modifiers.buttons = 0 := by
      rw [← congrArg KeyData.modifiers hplain]
      rfl
    cases hsubmap : s.submapFor k key.modifiers with
    | none =>
      rw [hsubmap] at h
      exact absurd h.symm hnil
    | some m =>
      have hm := (extends_iff hreg).mpr ⟨hbuttons, hsubmap⟩
      rw [hsubmap, hcharCode] at h
      exact ⟨m, hm, ((hreg m hm.link).getKeyelt_eq_iff hd hnil).mp h⟩

theorem keymapLookup1_link {k m : Nat} {key : KeyData}
    (hreg : ∀ m, ReflTransGen (Link s) k m → Regular env s definition m)
    (h : keymapLookup1 s k key = .keymap m) : TransGen (Link s) k m := by
  have hown := (own_iff hreg (.inr rfl) fun heq => by cases heq).mpr
    ⟨key.plain_plain, (keymapLookup1_plain k key).trans h⟩
  exact hown.link

end modifiers

section lookup

variable {env : KeyEnv} {s : Keymaps} {definition : Def} {w : Nat → Nat}

/-! ### Lookups -/

/-- What `raw_lookup_key` returns: nil where the keys are not bound, and the definition where a
route that is not hidden leads to it. -/
structure LooksUp (s : Keymaps) (definition : Def) (m : Nat) (keys : List KeyData) (b : Binding) :
    Prop where
  bound : b ≠ .defn .nil ↔ ∃ pre k, Inherits s m pre k ∧ Occupies s k keys
  defn : b = .defn definition ↔ Visible s definition m keys

/-- What the mapper finds in one keymap. -/
structure LooksUpAt (s : Keymaps) (definition : Def) (k : Nat) (keys : List KeyData)
    (b : Binding) : Prop where
  bound : b ≠ .defn .nil ↔ Occupies s k keys
  defn : b = .defn definition ↔
    RouteAt s definition (fun p keys => ¬ Occupies s p keys) k keys

theorem LooksUpAt.finds {k : Nat} {keys : List KeyData} {b : Binding}
    (h : LooksUpAt s definition k keys b) :
    Finds (fun k => Occupies s k keys) (fun k b => LooksUpAt s definition k keys b) k b.result := by
  rw [Binding.result]
  split
  · rename_i hb
    exact fun hocc => h.bound.mpr hocc hb
  · rename_i hb
    exact ⟨h.bound.mp hb, h⟩

theorem LooksUp.of_first (hdef : definition ≠ .nil) {m : Nat} {keys : List KeyData} {l : List Nat}
    (hl : Walk s (.init s m []) l) {found : Option Binding}
    (h : FindsFirst (fun k => Occupies s k keys)
      (fun k b => LooksUpAt s definition k keys b) l found) :
    LooksUp s definition m keys (found.getD (.defn .nil)) := by
  have hany : (∃ pre k, Inherits s m pre k ∧ Occupies s k keys) ↔ ∃ k ∈ l, Occupies s k keys := by
    constructor
    · rintro ⟨pre, k, ⟨post, hwalk⟩, hocc⟩
      rw [hl.unique hwalk]
      exact ⟨k, mem_append_right _ (mem_cons_self ..), hocc⟩
    · rintro ⟨k, hk, hocc⟩
      obtain ⟨pre, k, post, rfl, -, hk⟩ := firstIn_of_mem (L := fun k => Occupies s k keys) hk hocc
      exact ⟨pre, k, ⟨post, hl⟩, hk⟩
  have hroute : Visible s definition m keys ↔ FirstIn (fun k => Occupies s k keys)
      (RouteAt s definition (fun p keys => ¬ Occupies s p keys) · keys) l := by
    rw [hl.firstIn_iff]
    exact route_iff
  cases found with
  | none =>
    refine ⟨?_, ?_⟩
    · rw [hany]
      exact iff_of_false (fun hne => hne rfl) fun ⟨k, hk, hocc⟩ => h k hk hocc
    · rw [hroute]
      refine iff_of_false (fun heq => hdef ?_) fun hfirst => ?_
      · cases heq
        rfl
      · obtain ⟨k, hk, hat⟩ := hfirst.exists_mem
        exact h k hk (hat.occupies hdef)
  | some b =>
    refine ⟨?_, ?_⟩
    · rw [hany]
      obtain ⟨k, hk, hocc, hat⟩ := FirstIn.exists_mem h
      exact iff_of_true (hat.bound.mpr hocc) ⟨k, hk, hocc⟩
    · rw [hroute]
      constructor
      · rintro rfl
        exact FirstIn.mono h fun k _ hk => hk.2.defn.mp rfl
      · intro hfirst
        obtain ⟨k, -, ⟨-, hat⟩, hr⟩ := (FirstIn.and h hfirst (fun k _ hk => hk.1)
          fun k _ hk => hk.occupies hdef).exists_mem
        exact hat.defn.mpr hr

variable (acceptDefault : Bool)

/-- **`raw_lookup_key`** follows the route that no keymap hides. The induction is on the keys. -/
theorem rawLookupKey_looksUp (h : Weight s w) (hdef : definition ≠ .nil) {top fuel : Nat}
    (hreg : ∀ m, ReflTransGen (Link s) top m → Regular env s definition m)
    (hfuel : ∀ m, ReflTransGen (Link s) top m → w m ≤ fuel) {keys : List KeyData}
    (hkeys : ∀ key ∈ keys, metaPrefixCharP env key = false) (n : Nat) {m : Nat}
    (hm : ReflTransGen (Link s) top m) :
    Total False (· = s) (rawLookupKey env acceptDefault fuel (keys.map KeyData.raw) n m)
      (fun b s' => s' = s ∧ LooksUp s definition m keys b) fun _ => False := by
  induction keys generalizing n m with
  | nil =>
    refine Total.pure fun s' hs' => ⟨hs', ⟨?_, ?_⟩⟩
    · refine iff_of_false (fun hne => hne rfl) ?_
      rintro ⟨pre, k, -, hocc⟩
      cases hocc
    · refine iff_of_false (fun heq => hdef ?_) fun hroute => ?_
      · cases heq
        rfl
      · cases hroute
  | cons key keys ih =>
    obtain ⟨l, hl, -⟩ := h.exists_walk m
    have hmeta := hkeys key (mem_cons_self ..)
    have hwalk : ∀ {mapper : Nat → Command Keymaps (Option Binding)},
        (∀ k, ReflTransGen (Link s) top k → Total False (· = s) (mapper k)
          (fun r s' => ∃ b, r = Binding.result b ∧ s' = s ∧
            LooksUpAt s definition k (key :: keys) b) fun _ => False) →
        Total False (· = s) (traverseKeymaps id mapper fuel m [] >>= fun found =>
            pure (found.getD (.defn .nil)))
          (fun b s' => s' = s ∧ LooksUp s definition m (key :: keys) b) fun _ => False := by
      intro mapper hmapper
      have hfirst := traverseKeymaps_first (I := (· = s)) (D := fun _ => False) (m := m) h
        (fun s' hs' m => by rw [hs']) hl (hfuel m hm) fun k hk _ =>
        (hmapper k (hm.trans hk)).conseq (fun _ hs => hs) (fun r s' ⟨b, hr, hs', hb⟩ =>
          ⟨hs', id, by rw [hr]; exact hb.finds⟩) fun _ hs => hs
      refine Total.bind (hfirst.abort_mono fun hfirst => hfirst.exists_mem.choose_spec.2)
        fun found => Total.pure fun s' hs' => ⟨hs'.1, LooksUp.of_first hdef hl hs'.2.2⟩
    have hdefault : ∀ k, ReflTransGen (Link s) top k → ∀ b,
        rawLookupKey.withDefault acceptDefault s k b = b := by
      intro k hk b
      rw [rawLookupKey.withDefault, (hreg k hk).default]
      split
      · rename_i hb
        exact hb.2.symm
      · rfl
    have hraw : ∀ k, keymapLookupRaw s k key.raw = keymapLookup1 s k key := fun _ => rfl
    have hmetaRaw : key.raw.metaPrefixCharP env = false := hmeta
    cases keys with
    | nil =>
      refine hwalk fun k hk => Total.state_bind fun s' hs' => Total.pure fun x hx => ?_
      rw [hx, hs', hraw, hmetaRaw, hdefault k hk]
      refine ⟨.defn (keymapLookup1 s k key), rfl, rfl, ⟨?_, ?_⟩⟩
      · constructor
        · exact fun hne => .key (fun heq => hne (by rw [heq])) (.inl rfl)
        · intro hocc heq
          cases hocc with
          | key hne _ => exact hne (Binding.defn.inj heq)
          | through _ _ hkeys => cases hkeys
      · constructor
        · exact fun heq => .inl ⟨key, rfl, Binding.defn.inj heq⟩
        · rintro (⟨key', heq, hd⟩ | ⟨key', m', rest, heq, -, hroute⟩)
          · cases heq
            rw [hd]
          · cases heq
            cases hroute
    | cons next rest =>
      refine hwalk fun k hk => Total.state_bind fun s' hs' => ?_
      rw [hs', hmetaRaw]
      refine Total.bind (Q := fun b s' => s' = s ∧
        LooksUpAt s definition k (key :: next :: rest) b) ?_ fun b =>
        Total.pure fun x hx => ⟨b, by rw [hdefault k hk], hx⟩
      have hshort : ∀ key', key :: next :: rest ≠ [key'] := fun key' heq => by cases heq
      simp only [Bool.false_eq_true, if_false, hraw]
      split
      · rename_i hnil
        refine Total.pure fun x hx => ⟨hx, ⟨?_, ?_⟩⟩
        · refine iff_of_false (fun hne => hne rfl) fun hocc => ?_
          cases hocc with
          | key hne _ => exact hne hnil
          | through hd _ _ =>
            rw [hnil] at hd
            cases hd
        · refine iff_of_false (fun heq => hdef (Binding.defn.inj heq).symm) ?_
          rintro (⟨key', heq, -⟩ | ⟨key', m', rest', heq, hd, -⟩)
          · exact hshort key' heq
          · cases heq
            rw [hnil] at hd
            cases hd
      · rename_i cmd hcmd
        have hlink : ReflTransGen (Link s) k cmd :=
          (keymapLookup1_link (fun m hm => hreg m (hk.trans hm)) hcmd).to_reflTransGen
        refine (ih (fun key' hkey' => hkeys key' (mem_cons_of_mem key hkey')) (n + 1)
          (hk.trans hlink)).conseq (fun _ hs => hs) (fun b s' hb => ⟨hb.1, ⟨?_, ?_⟩⟩) fun _ hs => hs
        · rw [hb.2.bound]
          constructor
          · rintro ⟨pre, k', hk', hocc⟩
            exact .through hcmd hk' hocc
          · intro hocc
            cases hocc with
            | key _ hkeys =>
              rw [hcmd] at hkeys
              obtain hkeys | hkeys := hkeys
              · cases hkeys
              · cases hkeys
            | through hd hk' hocc =>
              rw [hcmd] at hd
              cases hd
              exact ⟨_, _, hk', hocc⟩
        · rw [hb.2.defn]
          constructor
          · exact fun hroute => .inr ⟨key, cmd, _, rfl, hcmd, hroute⟩
          · rintro (⟨key', heq, -⟩ | ⟨key', m', rest', heq, hd, hroute⟩)
            · exact absurd heq (hshort key')
            · cases heq
              rw [hcmd] at hd
              cases hd
              exact hroute
      · rename_i hnil hkeymap
        refine Total.pure fun x hx => ⟨hx, ⟨?_, ?_⟩⟩
        · refine iff_of_true (fun heq => by cases heq) (.key (fun heq => hnil heq) (.inr ?_))
          cases hd : keymapLookup1 s k key with
          | keymap cmd => exact absurd hd (hkeymap cmd)
          | nil => rfl
          | command i => rfl
          | item i d => rfl
        · refine iff_of_false (fun heq => by cases heq) ?_
          rintro (⟨key', heq, -⟩ | ⟨key', m', rest', heq, hd, -⟩)
          · exact hshort key' heq
          · cases heq
            exact hkeymap m' hd

end lookup

end XEmacs.Keymap
