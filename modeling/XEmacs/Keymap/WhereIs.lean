import XEmacs.Keymap.Routes

/-!
# `where-is-internal` against lookups

A lookup goes on to the parents of a keymap that does not bind the keys; the search of
`where-is-internal` goes on to the parents of a keymap below which the definition is not found,
and gives up where it comes to 20 keys.
-/

namespace XEmacs.Keymap

open Commands ConsLists Relation List

/-! ### The search -/

section search

variable (s : Keymaps) (definition : Def)

/-- From a keymap whose keys have the modifiers `mods`, the search finds the keys. -/
def FoundBelow (m : Nat) (mods : Modifiers) (keys : List KeyData) : Prop :=
  (∃ key, keys = [key] ∧ Own s m mods key definition) ∨
    ∃ key sub rest, keys = key :: rest ∧ Own s m mods key (.keymap sub) ∧
      First s definition sub rest ∧ ∀ k ∈ rest, k.plain = k

/-- The search of the walk from a submap, with `n` keys so far, comes to 20 keys. -/
def DeepFrom (n sub : Nat) : Prop :=
  20 ≤ n ∨ ∃ pre k, Inherits s sub pre k ∧ (∀ p ∈ pre, ¬ Leads s definition p) ∧
    Deep s definition n k

/-- The search from a keymap whose keys have the modifiers `mods` comes to 20 keys. -/
def DeepBelow (n m : Nat) (mods : Modifiers) : Prop :=
  ∃ key sub, Own s m mods key (.keymap sub) ∧ DeepFrom s definition (n + 1) sub

/-- What is found in a submap. -/
def EntryFinds (mods : Modifiers) (e : Key × Nat) (keys : List KeyData) : Prop :=
  match e.1 with
  | .keysym k => ∃ rest, keys = ⟨k, mods⟩ :: rest ∧ First s definition e.2 rest ∧
      ∀ k ∈ rest, k.plain = k
  | .modifiers b => FoundBelow s definition e.2 (mods.or b) keys

def EntryDeep (n : Nat) (mods : Modifiers) (e : Key × Nat) : Prop :=
  match e.1 with
  | .keysym _ => DeepFrom s definition (n + 1) e.2
  | .modifiers b => DeepBelow s definition n e.2 (mods.or b)

variable {s definition} {env : KeyEnv} {w : Nat → Nat}

theorem own_cases {m : Nat} {mods : Modifiers} {key : KeyData} {d : Def} :
    Own s m mods key d ↔
      (key.modifiers = mods ∧ (s.map m).table.lookup (.keysym key.keysym) = some d) ∨
        ∃ b k, (s.map m).table.lookup (.modifiers b) = some (.keymap k) ∧
          Own s k (mods.or b) key d := by
  constructor
  · rintro ⟨m', hm', hlookup⟩
    cases hm' with
    | refl => exact .inl ⟨rfl, hlookup⟩
    | step h hk => exact .inr ⟨_, _, h, m', hk, hlookup⟩
  · rintro (⟨hmods, hlookup⟩ | ⟨b, k, h, m', hk, hlookup⟩)
    · exact ⟨m, hmods ▸ .refl, hlookup⟩
    · exact ⟨m', .step h hk, hlookup⟩

theorem foundBelow_cases {m : Nat} {mods : Modifiers} {keys : List KeyData} :
    FoundBelow s definition m mods keys ↔
      (∃ k, keys = [⟨k, mods⟩] ∧ (s.map m).table.lookup (.keysym k) = some definition) ∨
        ∃ e ∈ submapEntries (s.map m).table, EntryFinds s definition mods e keys := by
  constructor
  · rintro (⟨key, rfl, hown⟩ | ⟨key, sub, rest, rfl, hown, hrest⟩)
    · obtain ⟨rfl, hlookup⟩ | ⟨b, k, hb, hown⟩ := own_cases.mp hown
      · exact .inl ⟨key.keysym, rfl, hlookup⟩
      · exact .inr ⟨(.modifiers b, k), mem_submapEntries.mpr hb, .inl ⟨key, rfl, hown⟩⟩
    · obtain ⟨rfl, hlookup⟩ | ⟨b, k, hb, hown⟩ := own_cases.mp hown
      · exact .inr ⟨(.keysym key.keysym, sub), mem_submapEntries.mpr hlookup, rest, rfl, hrest⟩
      · exact .inr ⟨(.modifiers b, k), mem_submapEntries.mpr hb,
          .inr ⟨key, sub, rest, rfl, hown, hrest⟩⟩
  · rintro (⟨k, rfl, hlookup⟩ | ⟨⟨key, sub⟩, he, hfinds⟩)
    · exact .inl ⟨_, rfl, own_cases.mpr (.inl ⟨rfl, hlookup⟩)⟩
    · have hlookup := mem_submapEntries.mp he
      cases key with
      | keysym k =>
        obtain ⟨rest, rfl, hrest⟩ := hfinds
        exact .inr ⟨_, sub, rest, rfl, own_cases.mpr (.inl ⟨rfl, hlookup⟩), hrest⟩
      | modifiers b =>
        obtain ⟨key, rfl, hown⟩ | ⟨key, sub', rest, rfl, hown, hrest⟩ := hfinds
        · exact .inl ⟨key, rfl, own_cases.mpr (.inr ⟨b, sub, hlookup, hown⟩)⟩
        · exact .inr ⟨key, sub', rest, rfl, own_cases.mpr (.inr ⟨b, sub, hlookup, hown⟩), hrest⟩

theorem deepBelow_cases {n m : Nat} {mods : Modifiers} : DeepBelow s definition n m mods ↔
    ∃ e ∈ submapEntries (s.map m).table, EntryDeep s definition n mods e := by
  constructor
  · rintro ⟨key, sub, hown, hdeep⟩
    obtain ⟨-, hlookup⟩ | ⟨b, k, hb, hown⟩ := own_cases.mp hown
    · exact ⟨(.keysym key.keysym, sub), mem_submapEntries.mpr hlookup, hdeep⟩
    · exact ⟨(.modifiers b, k), mem_submapEntries.mpr hb, key, sub, hown, hdeep⟩
  · rintro ⟨⟨key, sub⟩, he, hdeep⟩
    have hlookup := mem_submapEntries.mp he
    cases key with
    | keysym k => exact ⟨⟨k, mods⟩, sub, own_cases.mpr (.inl ⟨rfl, hlookup⟩), hdeep⟩
    | modifiers b =>
      obtain ⟨key, sub', hown, hdeep⟩ := hdeep
      exact ⟨key, sub', own_cases.mpr (.inr ⟨b, sub, hlookup, hown⟩), hdeep⟩

section level

variable {k : Nat} (hreg : ∀ m, ReflTransGen (Link s) k m → Regular env s definition m)

include hreg

theorem foundBelow_iff (hdef : definition ≠ .nil) {keys : List KeyData} :
    FoundBelow s definition k .none keys ↔
      RouteAt s definition (fun p _ => ¬ Leads s definition p) k keys ∧
        ∀ key ∈ keys, key.plain = key := by
  have hown : ∀ {key : KeyData} {m : Nat},
      Own s k .none key (.keymap m) ↔ key.plain = key ∧ keymapLookup1 s k key = .keymap m :=
    own_iff hreg (.inr rfl) fun heq => by cases heq
  constructor
  · rintro (⟨key, rfl, h⟩ | ⟨key, sub, rest, rfl, h, hrest, hplain⟩)
    · obtain ⟨hkey, hlookup⟩ := (own_iff hreg (.inl rfl) hdef).mp h
      exact ⟨.inl ⟨key, rfl, hlookup⟩, List.forall_mem_singleton.mpr hkey⟩
    · obtain ⟨hkey, hlookup⟩ := hown.mp h
      exact ⟨.inr ⟨key, sub, rest, rfl, hlookup, hrest⟩, List.forall_mem_cons.mpr ⟨hkey, hplain⟩⟩
  · rintro ⟨⟨key, rfl, hlookup⟩ | ⟨key, sub, rest, rfl, hlookup, hrest⟩, hplain⟩
    · have hkey := List.forall_mem_singleton.mp hplain
      exact .inl ⟨key, rfl, (own_iff hreg (.inl rfl) hdef).mpr ⟨hkey, hlookup⟩⟩
    · obtain ⟨hkey, hplain⟩ := List.forall_mem_cons.mp hplain
      exact .inr ⟨key, sub, rest, rfl, hown.mpr ⟨hkey, hlookup⟩, hrest, hplain⟩

theorem deepBelow_iff {n : Nat} :
    DeepBelow s definition n k .none ↔ Deep s definition n k := by
  have hown : ∀ {key : KeyData} {m : Nat},
      Own s k .none key (.keymap m) ↔ key.plain = key ∧ keymapLookup1 s k key = .keymap m :=
    own_iff hreg (.inr rfl) fun heq => by cases heq
  constructor
  · rintro ⟨key, sub, h, hn | ⟨pre, k', hk', hpre, hdeep⟩⟩
    · exact .here (hown.mp h).2 hn
    · exact .through (hown.mp h).2 hk' hpre hdeep
  · intro h
    cases h with
    | @here _ _ m key h hn =>
      refine ⟨key.plain, m, hown.mpr ⟨key.plain_plain, ?_⟩, .inl hn⟩
      rw [keymapLookup1_plain, h]
    | @through _ _ m k' key pre h hk' hpre hdeep =>
      refine ⟨key.plain, m, hown.mpr ⟨key.plain_plain, ?_⟩, .inr ⟨pre, k', hk', hpre, hdeep⟩⟩
      rw [keymapLookup1_plain, h]

end level

theorem RouteAt.leads {Passes : Nat → List KeyData → Prop} {k : Nat} {keys : List KeyData}
    (h : RouteAt s definition Passes k keys) : Leads s definition k := by
  obtain ⟨key, rfl, h⟩ | ⟨key, m, rest, rfl, h, hrest⟩ := h
  · exact .key h
  · obtain ⟨pre, k', hk', hleads⟩ := hrest.leads
    exact .through h hk' hleads

theorem Weight.link_lt (h : Weight s w) {a b : Nat} (hab : Link s a b) : w b < w a := by
  obtain hmem | hp := link_iff.mp hab
  · have hle : w b ≤ submapsWeight w (s.map a) := by
      obtain ⟨e, he, rfl⟩ := List.mem_map.mp hmem
      exact single_le_sum (fun _ _ => Nat.zero_le _) _ (mem_map_of_mem he)
    have ha := h a
    omega
  · exact h.parent_lt hp

theorem Weight.reach_le (h : Weight s w) {a b : Nat} (hab : ReflTransGen (Link s) a b) :
    w b ≤ w a := by
  induction hab with
  | refl => exact Nat.le_refl _
  | tail _ hlink ih => exact (h.link_lt hlink).le.trans ih

theorem Leads.exists_routeAt (h : Weight s w) {k : Nat}
    (hreg : ∀ m, ReflTransGen (Link s) k m → Regular env s definition m)
    (hleads : Leads s definition k) :
    ∃ keys, RouteAt s definition (fun p _ => ¬ Leads s definition p) k keys := by
  induction hw : w k using Nat.strong_induction_on generalizing k with
  | _ n ih =>
    cases hleads with
    | key hkey => exact ⟨_, .inl ⟨_, rfl, hkey⟩⟩
    | @through _ m k' key _ hm hk' hleads =>
      have hlink := keymapLookup1_link hreg hm
      obtain ⟨l, hl, -, hall⟩ := h.exists_walk m
      obtain ⟨post, hwalk⟩ := hk'
      have hfirst : FirstIn (Leads s definition) (Leads s definition) (m :: l) := by
        refine firstIn_of_mem (k := k') ?_ hleads
        rw [hl.unique hwalk]
        exact mem_append_right _ (mem_cons_self ..)
      obtain ⟨pre, x, hx, hpre, hleads⟩ := hl.firstIn_iff.mp hfirst
      have hmx := (hx.link h).1
      have hlt : w x < n := by
        obtain ⟨c, hc, hcm⟩ := TransGen.tail'_iff.mp hlink
        have hle := (h.reach_le hmx).trans_lt (h.link_lt hcm)
        exact hw ▸ hle.trans_le (h.reach_le hc)
      obtain ⟨keys, hkeys⟩ := ih (w x) hlt
        (fun y hy => hreg y ((hlink.to_reflTransGen.trans hmx).trans hy)) hleads rfl
      exact ⟨key :: keys, .inr ⟨key, m, keys, rfl, hm, route_iff.mpr ⟨pre, x, hx, hpre, hkeys⟩⟩⟩

/-! ### `where_is_recursive_mapper` -/

variable (env : KeyEnv) (before : Key → Key → Bool) (charp : Def → Bool)

theorem matchingKeys_all {A : Prop} {E : Keymaps → Prop} (P : Keymaps → Prop) (fuel : Nat)
    (keysSoFar : List RawKey) (mods : Modifiers) (keys : List Key) (result : List (List RawKey)) :
    Total A P (matchingKeys env fuel charp definition false [] keysSoFar mods keys result)
      (fun r x => P x ∧
        ∀ y, y ∈ r ↔ y ∈ result ∨ ∃ k ∈ keys, y = keysSoFar ++ [⟨k, mods⟩]) E := by
  induction keys generalizing result with
  | nil => exact Total.pure fun x hx => ⟨hx, fun y => by simp⟩
  | cons k keys ih =>
    refine Total.bind (Q := fun b x => P x ∧ b = false) (Total.pure fun x hx => ⟨hx, rfl⟩)
      fun b => Total.of_and fun hb => ?_
    rw [if_neg (by simp [hb]), if_neg (by simp)]
    refine (ih _).conseq (fun _ hx => hx) (fun r x hx => ⟨hx.1, fun y => ?_⟩) fun _ hx => hx
    rw [hx.2 y, mem_cons, or_comm (a := y = _), or_assoc]
    simp only [mem_cons, exists_eq_or_imp]

theorem collect_all {α : Type} {D : α → Prop} {R : α → List RawKey → Prop} {P : Keymaps → Prop}
    {f : α → Command Keymaps (List (List RawKey))} {l : List α}
    (hf : ∀ a ∈ l, Total (D a) P (f a) (fun r x => P x ∧ ¬ D a ∧ ∀ y, y ∈ r ↔ R a y)
      fun _ => False)
    (result : List (List RawKey)) :
    Total (∃ a ∈ l, D a) P (collect false f l result)
      (fun r x => P x ∧ (¬ ∃ a ∈ l, D a) ∧ ∀ y, y ∈ r ↔ y ∈ result ∨ ∃ a ∈ l, R a y)
      fun _ => False := by
  induction l generalizing result with
  | nil => exact Total.pure fun x hx => ⟨hx, by simp, fun y => by simp⟩
  | cons a l ih =>
    have ha := hf a (mem_cons_self ..)
    have hl := fun b hb => hf b (mem_cons_of_mem a hb)
    simp only [mem_cons, exists_eq_or_imp]
    refine Total.bind (ha.abort_mono .inl) fun lower => ?_
    refine Total.conseq (Total.of_and fun hlower : ¬ D a ∧ ∀ y, y ∈ lower ↔ R a y =>
      ((ih hl (lower ++ result)).abort_mono .inr).conseq (fun _ hx => hx)
        (fun r x hx => ⟨hx.1, not_or.mpr ⟨hlower.1, hx.2.1⟩, fun y => ?_⟩) fun _ hx => hx)
      (fun _ hx => hx) (fun _ _ hx => hx) fun _ hx => hx
    rw [hx.2.2 y, mem_append, hlower.2 y]
    tauto

theorem firstIn_route {l : List Nat} {sub : Nat} {rest : List KeyData}
    (hl : Walk s (.init s sub []) l) :
    First s definition sub rest ↔ FirstIn (Leads s definition)
      (RouteAt s definition (fun p _ => ¬ Leads s definition p) · rest) l := by
  rw [hl.firstIn_iff]
  exact route_iff

/-- What `where_is_recursive_mapper` returns. -/
abbrev FindsBelow (s : Keymaps) (definition : Def) (keysSoFar : List RawKey) (mods : Modifiers) :
    Nat → Option (List (List RawKey)) → Prop :=
  Finds (fun m => ∃ keys, FoundBelow s definition m mods keys) fun m found =>
    ∀ x, x ∈ found ↔
      ∃ keys, FoundBelow s definition m mods keys ∧ x = keysSoFar ++ keys.map KeyData.raw

/-- What a call of `where_is_recursive_mapper` does. -/
def Searches (s : Keymaps) (definition : Def) (keysSoFar : List RawKey) (mods : Modifiers)
    (m : Nat) (x : Command Keymaps (Option (List (List RawKey)))) : Prop :=
  Total (DeepBelow s definition keysSoFar.length m mods) (Filled s) x
    (fun r s' => Filled s s' ∧ ¬ DeepBelow s definition keysSoFar.length m mods ∧
      FindsBelow s definition keysSoFar mods m r) fun _ => False

section mapper

variable {keysSoFar : List RawKey} {fuel sub : Nat} (h : Weight s w)
  {mapper : Nat → Command Keymaps (Option (List (List RawKey)))}

include h

theorem traverseBucky_finds {mods : Modifiers} (hparents : (s.map sub).parents = [])
    (hfuel : w sub ≤ fuel)
    (hmapper : ∀ k, ReflTransGen (Link s) sub k → w k ≤ w sub →
      Searches s definition keysSoFar mods k (mapper k)) :
    Total (DeepBelow s definition keysSoFar.length sub mods) (Filled s)
      (traverseKeymaps id mapper fuel sub [] >>= fun lower => pure (lower.getD []))
      (fun r s' => Filled s s' ∧ ¬ DeepBelow s definition keysSoFar.length sub mods ∧
        ∀ x, x ∈ r ↔ ∃ keys, FoundBelow s definition sub mods keys ∧
          x = keysSoFar ++ keys.map KeyData.raw) fun _ => False := by
  have hl : Walk s (.init s sub []) [sub] := by
    refine .last (t := .init s sub []) ?_
    simp [Traversal.next, Traversal.init, hparents]
  have hone : ∀ L R : Nat → Prop, FirstIn L R [sub] ↔ R sub := fun L R => by
    rw [firstIn_cons]
    exact ⟨fun h => h.elim id fun h => absurd h.2 firstIn_nil, .inl⟩
  have hwalk := traverseKeymaps_first h (fun s' (hs' : Filled s s') => hs'.parents) hl hfuel hmapper
  rw [hone] at hwalk
  refine Total.bind hwalk fun lower => Total.pure fun s' hs' => ⟨hs'.1, hs'.2.1, ?_⟩
  cases lower with
  | none =>
    have hnone := hs'.2.2 sub (mem_singleton_self _)
    intro x
    refine iff_of_false not_mem_nil ?_
    rintro ⟨keys, hkeys, -⟩
    exact hnone ⟨keys, hkeys⟩
  | some found => exact ((hone _ _).mp hs'.2.2).2

/-- The search of a submap and its parents: what is found is from the first one below which the
definition is bound. -/
theorem traverseSubmap_finds (hdef : definition ≠ .nil)
    (hreg : ∀ m, ReflTransGen (Link s) sub m → Regular env s definition m)
    (hn : keysSoFar.length < 20) (hfuel : w sub ≤ fuel)
    (hmapper : ∀ k, ReflTransGen (Link s) sub k → w k ≤ w sub →
      Searches s definition keysSoFar .none k (mapper k)) :
    Total (DeepFrom s definition keysSoFar.length sub) (Filled s)
      (traverseKeymaps id mapper fuel sub [] >>= fun lower => pure (lower.getD []))
      (fun r s' => Filled s s' ∧ ¬ DeepFrom s definition keysSoFar.length sub ∧
        ∀ x, x ∈ r ↔ ∃ keys, First s definition sub keys ∧ (∀ k ∈ keys, k.plain = k) ∧
          x = keysSoFar ++ keys.map KeyData.raw) fun _ => False := by
  obtain ⟨l, hl, -⟩ := h.exists_walk sub
  have hdeep : DeepFrom s definition keysSoFar.length sub ↔
      FirstIn (Leads s definition) (Deep s definition keysSoFar.length) (sub :: l) := by
    rw [hl.firstIn_iff, DeepFrom]
    exact ⟨fun h => h.resolve_left (by omega), .inr⟩
  rw [hdeep]
  have hwalk := traverseKeymaps_first (L := Leads s definition)
    (D := Deep s definition keysSoFar.length) (S := fun k found => ∀ x, x ∈ found ↔
      ∃ keys, RouteAt s definition (fun p _ => ¬ Leads s definition p) k keys ∧
        (∀ key ∈ keys, key.plain = key) ∧ x = keysSoFar ++ keys.map KeyData.raw)
    h (fun s' (hs' : Filled s s') => hs'.parents) hl hfuel fun k hk hle => by
    have hreg' := fun m hm => hreg m (hk.trans hm)
    have hsearch := hmapper k hk hle
    rw [Searches, deepBelow_iff hreg'] at hsearch
    refine hsearch.conseq (fun _ hs => hs) (fun r s' hs' => ⟨hs'.1, hs'.2.1, ?_⟩) fun _ hs => hs
    have hfound := hs'.2.2
    cases r with
    | none =>
      intro hleads
      obtain ⟨keys, hkeys⟩ := Leads.exists_routeAt h hreg' hleads
      refine hfound ⟨keys.map KeyData.plain, (foundBelow_iff hreg' hdef).mpr ⟨?_, ?_⟩⟩
      · cases keys with
        | nil => exact hkeys
        | cons key keys => exact (RouteAt.plain_iff fun m => First.plain_iff).mpr hkeys
      · intro key hkey
        obtain ⟨key, -, rfl⟩ := List.mem_map.mp hkey
        exact key.plain_plain
    | some found =>
      obtain ⟨⟨keys, hkeys⟩, hmem⟩ := hfound
      refine ⟨((foundBelow_iff hreg' hdef).mp hkeys).1.leads, fun x => ?_⟩
      simp only [hmem x, foundBelow_iff hreg' hdef, and_assoc]
  refine Total.bind hwalk fun lower => Total.pure fun s' hs' => ⟨hs'.1, hs'.2.1, fun x => ?_⟩
  simp only [firstIn_route hl]
  cases lower with
  | none =>
    refine iff_of_false not_mem_nil ?_
    rintro ⟨keys, hkeys, -⟩
    obtain ⟨k, hk, hroute⟩ := hkeys.exists_mem
    exact hs'.2.2 k hk hroute.leads
  | some found =>
    have hfirst := hs'.2.2
    constructor
    · intro hx
      obtain ⟨pre, k, post, heq, hpre, -, hmem⟩ := hfirst
      obtain ⟨keys, hroute, hplain, rfl⟩ := (hmem x).mp hx
      exact ⟨keys, ⟨pre, k, post, heq, hpre, hroute⟩, hplain, rfl⟩
    · rintro ⟨keys, hkeys, hplain, rfl⟩
      obtain ⟨k, -, ⟨-, hmem⟩, hroute⟩ := (FirstIn.and hfirst hkeys (fun k _ hk => hk.1)
        fun k _ hk => hk.leads).exists_mem
      exact (hmem _).mpr ⟨keys, hroute, hplain, rfl⟩

end mapper

/-- The keys that match in one keymap. -/
theorem whereIsKeys_finds {A : Prop} {E : Keymaps → Prop} (hsound : Sound s)
    (hkeymapp : definition.keymapp = false) {m fuel : Nat} (hreg : Regular env s definition m)
    (hcells : s.cells.next < fuel) (keysSoFar : List RawKey) (mods : Modifiers) :
    Total A (Filled s) (whereIsKeys env fuel charp definition false [] keysSoFar mods m)
      (fun found x => Filled s x ∧ ∀ y, y ∈ found ↔
        ∃ k, (s.map m).table.lookup (.keysym k) = some definition ∧
          y = keysSoFar ++ [⟨.keysym k, mods⟩]) E := by
  refine Total.state_bind fun s' hs' => ?_
  obtain ⟨ps, e, hentry, hexact⟩ := hreg.inverse
  rw [Keymaps.entry] at hentry
  rw [hs'.inverseTable m, hs'.cells]
  have hkeysym : ∀ {k : Key}, (s.map m).table.lookup k = some definition →
      ∃ k', k = .keysym k' := by
    intro k hk
    cases k with
    | keysym k => exact ⟨k, rfl⟩
    | modifiers mods' =>
      obtain ⟨b, rfl, -⟩ := hreg.modifiers mods' _ hk
      cases hkeymapp
  cases hlookup : (s.map m).inverseTable.lookup definition with
  | none =>
    rw [hlookup] at hentry
    cases hentry
    refine Total.pure fun x hx => ⟨hx ▸ hs', fun y => iff_of_false not_mem_nil ?_⟩
    rintro ⟨k, hk, -⟩
    exact hexact _ hk
  | some r =>
    rw [hlookup] at hentry
    cases hentry with
    | @some _ _ ks z hdotted =>
      obtain ⟨rank, hends⟩ := hsound.lists.ends
      cases hspell : s.cells.spell fuel r with
      | none => exact absurd hspell (Cells.spell_ne_none hends hcells r)
      | some keys =>
        have hkeys : ∀ k, k ∈ keys ↔ (s.map m).table.lookup k = some definition := by
          rw [Cells.spell_eq hdotted hspell]
          exact hexact.2
        have hfound : ∀ found : List (List RawKey), (∀ y, y ∈ found ↔
              y ∈ ([] : List (List RawKey)) ∨ ∃ k ∈ keys, y = keysSoFar ++ [⟨k, mods⟩]) →
            ∀ y, y ∈ found ↔ ∃ k, (s.map m).table.lookup (.keysym k) = some definition ∧
              y = keysSoFar ++ [⟨.keysym k, mods⟩] := by
          intro found hall y
          rw [hall y]
          constructor
          · rintro (hy | ⟨k, hk, rfl⟩)
            · exact absurd hy not_mem_nil
            · obtain ⟨k', rfl⟩ := hkeysym ((hkeys k).mp hk)
              exact ⟨k', (hkeys _).mp hk, rfl⟩
          · rintro ⟨k, hk, rfl⟩
            exact .inr ⟨_, (hkeys _).mpr hk, rfl⟩
        simp only [hspell]
        exact (matchingKeys_all env charp (Filled s) fuel keysSoFar mods keys []).conseq
          (fun x hx => hx ▸ hs') (fun r x hx => ⟨hx.1, hfound r hx.2⟩) fun _ hx => hx

/-- **`where_is_recursive_mapper`** finds the keys on routes past keymaps below which the
definition is not bound, unless it comes to 20 keys. The induction is on the weight. -/
theorem whereIsRecursiveMapper_searches (h : Weight s w) (hsound : Sound s)
    (hdef : definition ≠ .nil) (hkeymapp : definition.keymapp = false) {top fuel : Nat}
    (hreg : ∀ m, ReflTransGen (Link s) top m → Regular env s definition m)
    (hfuel : ∀ m, ReflTransGen (Link s) top m → w m ≤ fuel) (hcells : s.cells.next < fuel)
    {rounds m : Nat} (keysSoFar : List RawKey) (mods : Modifiers)
    (hm : ReflTransGen (Link s) top m) (hrounds : w m ≤ rounds) (hle : rounds ≤ fuel)
    (hn : keysSoFar.length < 20) :
    Searches s definition keysSoFar mods m (whereIsRecursiveMapper env before fuel charp definition
      false [] rounds keysSoFar mods m) := by
  induction rounds generalizing m keysSoFar mods with
  | zero =>
    have hm := h m
    omega
  | succ rounds ih =>
    have hlisted : (s.listed m).Perm (submapEntries (s.map m).table) := by
      rw [Keymaps.listed]
      cases hcache : (s.map m).subMapsCache with
      | none => exact .refl _
      | some maps => exact (hreg m hm).cache maps hcache
    refine Total.bind (whereIsKeys_finds env charp hsound hkeymapp (hreg m hm) hcells keysSoFar
      mods) fun found => ?_
    rw [if_neg (by simp)]
    refine Total.conseq (Total.of_and fun hfound : ∀ y, y ∈ found ↔
        ∃ k, (s.map m).table.lookup (.keysym k) = some definition ∧
          y = keysSoFar ++ [⟨.keysym k, mods⟩] =>
      Total.bind (keymapSubmaps_total before m) fun maps => Total.of_and fun hperm => ?_)
      (fun _ hx => hx) (fun _ _ hx => hx) fun _ hx => hx
    have hmem : ∀ e, e ∈ maps ↔ e ∈ submapEntries (s.map m).table := fun e =>
      (hperm.trans hlisted).mem_iff
    rw [deepBelow_cases]
    simp only [← hmem]
    refine Total.bind (collect_all (D := EntryDeep s definition keysSoFar.length mods)
      (R := fun e x => ∃ keys, EntryFinds s definition mods e keys ∧
        x = keysSoFar ++ keys.map KeyData.raw) (P := Filled s) (fun e he => ?_) found)
      fun result => Total.pure fun x hx => ⟨hx.1, ?_, ?_⟩
    · obtain ⟨key, sub⟩ := e
      have hlookup := mem_submapEntries.mp ((hmem _).mp he)
      have hlink : Link s m sub := .inl ⟨key, hlookup⟩
      have hlt : w sub < w m := h.link_lt hlink
      have hsub := hm.tail hlink
      have hrec : ∀ keysSoFar mods, keysSoFar.length < 20 → ∀ k, ReflTransGen (Link s) sub k →
          w k ≤ w sub → Searches s definition keysSoFar mods k
            (whereIsRecursiveMapper env before fuel charp definition false [] rounds keysSoFar mods
              k) := fun keysSoFar mods hlen k hk hle' =>
        ih keysSoFar mods (hsub.trans hk) (by omega) (by omega) hlen
      have hne : sub ≠ m := fun heq => Nat.lt_irrefl _ (heq ▸ hlt)
      dsimp only
      rw [if_neg hne]
      cases key with
      | keysym k =>
        have hlower : lowerKeys (.keysym k) keysSoFar mods =
          (keysSoFar ++ [⟨.keysym k, mods⟩], .none) := rfl
        have hlength : (keysSoFar ++ [RawKey.mk (.keysym k) mods]).length
            = keysSoFar.length + 1 := length_append
        have hentry : EntryDeep s definition keysSoFar.length mods (.keysym k, sub)
          ↔ DeepFrom s definition (keysSoFar.length + 1) sub := Iff.rfl
        simp only [hlower, hentry]
        rw [← hlength]
        split
        · exact Total.abort (.inl ‹_›)
        · refine (traverseSubmap_finds env h hdef (fun x hx => hreg x (hsub.trans hx)) (by omega)
            (hfuel sub hsub) (hrec _ _ (by omega))).conseq (fun _ hx => hx)
            (fun r x hx => ⟨hx.1, hx.2.1, fun y => ?_⟩) fun _ hx => hx
          rw [hx.2.2 y]
          constructor
          · rintro ⟨keys, hfirst, hplain, rfl⟩
            exact ⟨⟨k, mods⟩ :: keys, ⟨keys, rfl, hfirst, hplain⟩, append_assoc ..⟩
          · rintro ⟨_, ⟨keys, rfl, hfirst, hplain⟩, rfl⟩
            exact ⟨keys, hfirst, hplain, by rw [append_assoc]; rfl⟩
      | modifiers b =>
        obtain ⟨sub', heq, hparents, hb⟩ := (hreg m hm).modifiers b _ hlookup
        cases heq
        have hbne : b ≠ .none := by
          obtain ⟨rfl, -⟩ | ⟨hb, -⟩ := hb
          · exact fun heq => by cases heq
          · exact hb.2.2
        have hlower : lowerKeys (.modifiers b) keysSoFar mods = (keysSoFar, mods.or b) :=
          if_neg hbne
        simp only [hlower]
        rw [if_neg (by omega)]
        exact traverseBucky_finds h hparents (hfuel sub hsub) (hrec _ _ hn)
    · exact hx.2.1
    · have hall : ∀ y, y ∈ result ↔ ∃ keys, FoundBelow s definition m mods keys ∧
          y = keysSoFar ++ keys.map KeyData.raw := by
        intro y
        rw [hx.2.2 y, hfound y]
        simp only [foundBelow_cases, ← hmem, or_and_right, exists_or]
        refine or_congr ?_ ?_
        · constructor
          · rintro ⟨k, hk, rfl⟩
            exact ⟨_, ⟨k, rfl, hk⟩, rfl⟩
          · rintro ⟨_, ⟨k, rfl, hk⟩, rfl⟩
            exact ⟨k, hk, rfl⟩
        · constructor
          · rintro ⟨e, he, keys, hkeys, rfl⟩
            exact ⟨keys, ⟨e, he, hkeys⟩, rfl⟩
          · rintro ⟨keys, ⟨e, he, hkeys⟩, rfl⟩
            exact ⟨e, he, keys, hkeys, rfl⟩
      split
      · rename_i hnil
        rintro ⟨keys, hkeys⟩
        have hin := (hall _).mpr ⟨keys, hkeys, rfl⟩
        rw [hnil] at hin
        exact not_mem_nil hin
      · rename_i hnil
        obtain ⟨y, hy⟩ := exists_mem_of_ne_nil result hnil
        obtain ⟨keys, hkeys, -⟩ := (hall y).mp hy
        exact ⟨⟨keys, hkeys⟩, hall⟩

end search

/-! ### `where-is-internal` -/

section agrees

variable {s : Keymaps} {definition : Def} {env : KeyEnv} {w : Nat → Nat}

theorem Route.not_meta {Passes : Nat → List KeyData → Prop} (hw : Weight s w)
    (hdef : definition ≠ .nil) {m : Nat} {keys : List KeyData}
    (h : Route s definition Passes m keys)
    (hreg : ∀ k, ReflTransGen (Link s) m k → Regular env s definition k) :
    ∀ key ∈ keys, metaPrefixCharP env key = false := by
  induction h with
  | @key m k key pre hk _ h =>
    have hbound := (hreg k (hk.link hw).1).metaPrefix key (h ▸ hdef)
    exact List.forall_mem_singleton.mpr hbound
  | @through m k m' key keys pre hk _ h _ ih =>
    have hkm := (hk.link hw).1
    have hbound := (hreg k hkm).metaPrefix key (by rw [h]; exact fun heq => by cases heq)
    have hlink := keymapLookup1_link (fun x hx => hreg x (hkm.trans hx)) h
    exact List.forall_mem_cons.mpr
      ⟨hbound, ih fun x hx => hreg x ((hkm.trans hlink.to_reflTransGen).trans hx)⟩

variable (before : Key → Key → Bool) (charp : Def → Bool) (acceptDefault : Bool)

theorem keymapsAsArray_aborts (keymap : Nat) {others : List Nat} (hothers : others ≠ [])
    (room : Nat) {rest : List Nat} (hrest : rest ≠ []) :
    keymapsAsArray keymap others room rest s = .aborts := by
  induction room generalizing rest with
  | zero =>
    cases rest with
    | nil => exact absurd rfl hrest
    | cons m rest => rfl
  | succ room ih =>
    cases rest with
    | nil => exact absurd rfl hrest
    | cons m rest => rw [keymapsAsArray, bind_apply, ih hothers]

section one

variable {keymap fuel : Nat} (h : Weight s w) (hdef : definition ≠ .nil)
  (hreg : ∀ m, ReflTransGen (Link s) keymap m → Regular env s definition m)
  (hfuel : w keymap ≤ fuel)

include h hdef hreg hfuel

theorem lookupEvents_iff {keys : List KeyData}
    (hkeys : ∀ key ∈ keys, metaPrefixCharP env key = false) :
    lookupEvents env acceptDefault fuel keys [keymap] s = .returns definition s ↔
      Visible s definition keymap keys := by
  have hlook := rawLookupKey_looksUp acceptDefault h hdef hreg
    (fun m hm => (h.reach_le hm).trans hfuel) hkeys 0 .refl
  obtain ⟨b, hrun, hb⟩ : ∃ b, rawLookupKey env acceptDefault fuel (keys.map KeyData.raw) 0 keymap s
      = .returns b s ∧ LooksUp s definition keymap keys b := by
    have hmeets := hlook.1 s rfl
    have hends := hlook.2 s rfl
    cases hrun : rawLookupKey env acceptDefault fuel (keys.map KeyData.raw) 0 keymap s with
    | diverges => exact absurd hrun hends
    | aborts =>
      rw [hrun] at hmeets
      exact hmeets.elim
    | signals s' =>
      rw [hrun] at hmeets
      exact hmeets.elim
    | returns b s' =>
      rw [hrun] at hmeets
      obtain ⟨rfl, hb⟩ := hmeets
      exact ⟨b, rfl, hb⟩
  rw [← hb.defn, lookupEvents, bind_of_returns hrun]
  cases b with
  | tooLong n =>
    refine iff_of_false (fun heq => hdef ?_) fun heq => by cases heq
    cases heq
    rfl
  | defn d =>
    simp only
    split
    · rename_i hnil
      refine iff_of_false (fun heq => hdef ?_) fun heq => hdef ?_
      · cases heq
        rfl
      · cases heq
        exact hnil
    · constructor
      · intro heq
        cases heq
        rfl
      · intro heq
        cases heq
        rfl

theorem fwhereIsInternal_finds (hsound : Sound s) (hkeymapp : definition.keymapp = false)
    (hcells : s.cells.next < fuel) :
    Total (DeepFrom s definition 0 keymap) (· = s)
      (fwhereIsInternal env before fuel charp definition false keymap [])
      (fun found _ => ¬ DeepFrom s definition 0 keymap ∧
        ∀ x, x ∈ found ↔ ∃ keys, First s definition keymap keys ∧ (∀ k ∈ keys, k.plain = k) ∧
          x = keys.map KeyData.raw) fun _ => False := by
  have hsearch : Total (DeepFrom s definition 0 keymap) (Filled s)
      (traverseKeymaps id (whereIsRecursiveMapper env before fuel charp definition false [] fuel []
        .none) fuel keymap [] >>= fun lower => pure (lower.getD [])) _ _ :=
    traverseSubmap_finds env h hdef hreg (by simp) hfuel fun k hk hle =>
      whereIsRecursiveMapper_searches env before charp h hsound hdef hkeymapp hreg
        (fun m hm => (h.reach_le hm).trans hfuel) hcells [] .none hk (hle.trans hfuel)
        (Nat.le_refl _) (by simp)
  have hone : fwhereIsInternal env before fuel charp definition false keymap [] =
      (traverseKeymaps id (whereIsRecursiveMapper env before fuel charp definition false [] fuel []
        .none) fuel keymap [] >>= fun lower => pure (lower.getD [])) >>= fun found =>
      pure found.reverse := by
    funext x
    have hcopy : keymapsAsArray keymap [] (max 100 (([] : List Nat).length + 1)) [keymap] x =
        .returns [keymap] x := rfl
    rw [fwhereIsInternal, bind_of_returns hcopy, whereIsInternal, bind_apply, whereIsLoop]
    simp only [bind_apply]
    cases traverseKeymaps id (whereIsRecursiveMapper env before fuel charp definition false [] fuel
      [] .none) fuel keymap [] x with
    | diverges => rfl
    | aborts => rfl
    | signals x' => rfl
    | returns found x' => simp [whereIsLoop]
  rw [hone]
  refine Total.bind (hsearch.conseq (fun x hx => hx ▸ .refl s) (fun _ _ hx => hx) fun _ hx => hx)
    fun found => Total.pure fun x hx => ⟨hx.2.1, fun y => ?_⟩
  rw [mem_reverse, hx.2.2 y]
  rfl

end one

theorem raw_map_injective {keys keys' : List KeyData}
    (h : keys.map KeyData.raw = keys'.map KeyData.raw) : keys = keys' := by
  refine List.map_injective_iff.mpr (fun k k' heq => ?_) h
  cases k
  cases k'
  cases heq
  rfl

variable (s definition) in
/-- With enough rounds the search ends, and finds exactly the keys on which `lookup_events` finds
the definition, as they are bound. -/
def WhereIsAgrees (env : KeyEnv) (keymap : Nat) (others : List Nat) : Prop :=
  ∃ n, ∀ fuel, n ≤ fuel → ∃ found s',
    fwhereIsInternal env before fuel charp definition false keymap others s = .returns found s' ∧
    (∀ x ∈ found, ∃ keys, x = keys.map KeyData.raw ∧
      (∀ key ∈ keys, metaPrefixCharP env key = false) ∧
      lookupEvents env acceptDefault fuel keys (keymap :: others) s = .returns definition s) ∧
    ∀ keys, (∀ key ∈ keys, metaPrefixCharP env key = false) →
      lookupEvents env acceptDefault fuel keys (keymap :: others) s = .returns definition s →
      keys.map (fun key => key.plain.raw) ∈ found

theorem not_whereIsAgrees (keymap : Nat) {others : List Nat} (hothers : others ≠ []) :
    ¬ WhereIsAgrees s definition before charp acceptDefault env keymap others := by
  rintro ⟨n, hn⟩
  obtain ⟨found, s', hrun, -⟩ := hn n (Nat.le_refl n)
  have hcopy := keymapsAsArray_aborts (s := s) keymap hothers (max 100 (others.length + 1))
    (cons_ne_nil keymap others)
  rw [fwhereIsInternal, bind_apply, hcopy] at hrun
  cases hrun

theorem Inherits.pre_eq_nil {m k : Nat} {pre : List Nat} (hparents : (s.map m).parents = [])
    (h : Inherits s m pre k) : pre = [] := by
  obtain ⟨post, hwalk⟩ := h
  have hl : Walk s (.init s m []) [m] := by
    refine .last (t := .init s m []) ?_
    simp [Traversal.next, Traversal.init, hparents]
  cases pre with
  | nil => rfl
  | cons p pre =>
    have hlength := congrArg List.length (hwalk.unique hl)
    simp at hlength

theorem Route.of_no_parents {Passes Passes' : Nat → List KeyData → Prop} {m : Nat}
    {keys : List KeyData} (hparents : ∀ m, (s.map m).parents = [])
    (h : Route s definition Passes m keys) : Route s definition Passes' m keys := by
  induction h with
  | key hk _ h =>
    obtain rfl := hk.pre_eq_nil (hparents _)
    exact .key hk (fun p hp => absurd hp not_mem_nil) h
  | through hk _ h _ ih =>
    obtain rfl := hk.pre_eq_nil (hparents _)
    exact .through hk (fun p hp => absurd hp not_mem_nil) h ih

theorem visible_iff_first (hparents : ∀ m, (s.map m).parents = []) (m : Nat)
    (keys : List KeyData) : Visible s definition m keys ↔ First s definition m keys :=
  ⟨fun h => h.of_no_parents hparents, fun h => h.of_no_parents hparents⟩

end agrees

/-- No character is the meta prefix character. -/
def noMetaEnv : KeyEnv where
  asciiCharacter := fun _ => none
  metaPrefixChar := .off

/-- A keymap that binds `a` to a command. -/
def oneKeyMap : LispKeymap where
  parents := []
  table := (∅ : AList fun _ : Key => Def).insert (.keysym (.char 97)) (.command 7)
  inverseTable := (∅ : AList fun _ : Def => Ref Key).insert (.command 7)
    (.atom (.keysym (.char 97)))
  defaultBinding := .nil
  subMapsCache := none

/-- This keymap and an empty one. -/
def oneKey : Keymaps where
  map := fun m => if m = 0 then oneKeyMap else emptyKeymap
  next := 2
  cells := noKeymaps.cells

theorem oneKey_map (m : Nat) : oneKey.map m = if m = 0 then oneKeyMap else emptyKeymap :=
  rfl

theorem oneKey_lookup {m : Nat} {k : Key} {d : Def}
    (h : (oneKey.map m).table.lookup k = some d) :
    m = 0 ∧ k = .keysym (.char 97) ∧ d = .command 7 := by
  rw [oneKey_map] at h
  split at h
  · rw [oneKeyMap] at h
    by_cases hk : k = .keysym (.char 97)
    · rw [hk, AList.lookup_insert] at h
      exact ⟨‹_›, hk, (Option.some.inj h).symm⟩
    · rw [AList.lookup_insert_ne hk] at h
      cases h
  · cases h

theorem oneKey_parents (m : Nat) : (oneKey.map m).parents = [] := by
  rw [oneKey_map]
  split
  · rfl
  · rfl

theorem oneKey_link {a b : Nat} : ¬ Link oneKey a b := by
  rintro (⟨k, hk⟩ | hp)
  · obtain ⟨-, -, hd⟩ := oneKey_lookup hk
    cases hd
  · rw [oneKey_parents] at hp
    exact not_mem_nil hp

theorem oneKey_sound : Sound oneKey where
  wellFormed := by
    refine ⟨fun m k d h => ?_, fun m p hp => ?_, fun m k h => ?_, fun m hm => ?_⟩
    · obtain ⟨-, -, rfl⟩ := oneKey_lookup h
      rfl
    · rw [oneKey_parents] at hp
      exact absurd hp not_mem_nil
    · obtain ⟨-, -, hd⟩ := oneKey_lookup h
      cases hd
    · have hm : 2 ≤ m := hm
      have hne : m ≠ 0 := by omega
      rw [oneKey_map, if_neg hne]
      rfl
  caches m maps h := by
    rw [oneKey_map] at h ⊢
    split at h
    · cases h
    · rename_i hm
      rw [if_neg hm]
      cases h
      exact nil_subperm
  fresh m _ := oneKey_parents m
  lists := by
    refine ⟨⟨fun _ => 0, ⟨fun h => (by cases h), fun h => (by cases h)⟩⟩, fun m d r h => ?_⟩
    rw [oneKey_map] at h
    split at h
    · rw [oneKeyMap] at h
      by_cases hd : d = .command 7
      · rw [hd, AList.lookup_insert] at h
        cases h
        exact fun p hp => by cases hp
      · rw [AList.lookup_insert_ne hd] at h
        cases h
    · cases h
  noCycle a h := by
    obtain ⟨b, -, hb⟩ := TransGen.tail'_iff.mp h
    exact oneKey_link hb

theorem oneKey_regular (m : Nat) : Regular noMetaEnv oneKey (.command 7) m where
  default := by
    rw [oneKey_map]
    split
    · rfl
    · rfl
  metaPrefix _ _ := rfl
  items key i d h := by
    obtain ⟨-, -, hd⟩ := oneKey_lookup h
    cases hd
  keysyms k d h := by
    obtain ⟨-, hk, -⟩ := oneKey_lookup h
    cases hk
    rfl
  modifiers mods d h := by
    obtain ⟨-, hk, -⟩ := oneKey_lookup h
    cases hk
  cache maps h := by
    rw [oneKey_map] at h ⊢
    split at h
    · cases h
    · rename_i hm
      rw [if_neg hm]
      cases h
      exact .refl _
  inverse := by
    by_cases hm : m = 0
    · refine ⟨[], some ([], .keysym (.char 97)), ?_, ?_⟩
      · rw [hm]
        exact .some (.atom _)
      · refine ⟨nodup_singleton _, fun k => ⟨fun hk => ?_, fun hk => ?_⟩⟩
        · rw [hm, List.mem_singleton.mp hk]
          rfl
        · rw [(oneKey_lookup hk).2.1]
          exact mem_singleton_self _
    · refine ⟨[], none, ?_, fun k hk => hm (oneKey_lookup hk).1⟩
      rw [Keymaps.entry, oneKey_map, if_neg hm]
      exact .none

end XEmacs.Keymap
