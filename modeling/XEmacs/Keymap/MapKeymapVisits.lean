import Mathlib.Data.List.ReduceOption
import XEmacs.Keymap.MapKeymapStores

/-!
# What map-keymap visits

A walk over a table visits each binding of it, and those of the submaps that are in it, once, if
the table stays as it is while the walk is in it.
-/

namespace XEmacs.Keymap

open Commands ListSort

/-! ## Tables and their keys -/

/-- The table of `k` has the bindings of `m` with the modifiers `mods`; there are at most `depth`
levels of submaps below it. -/
inductive Level (s : Keymaps) (m : Nat) : Modifiers → Nat → Nat → Prop
  | top : Level s m .none m 2
  | inMeta {k : Nat} (hk : s.under m .onlyMeta = some (.keymap k)) : Level s m .onlyMeta k 1
  | others {b : Modifiers} {k : Nat} (hb : b.Others) (hk : s.under m b = some (.keymap k)) :
    Level s m b k 0
  | metaOthers {b : Modifiers} {k k' : Nat} (hb : b.Others)
    (hk : s.under m .onlyMeta = some (.keymap k)) (hk' : s.under k b = some (.keymap k')) :
    Level s m (.or .onlyMeta b) k' 0

/-- Bindings with the modifiers `ν` are in the table for the modifiers `μ` or below it. -/
def Covers (μ ν : Modifiers) : Prop :=
  ν = μ ∨ μ = .none ∨ μ = .onlyMeta ∧ ∃ b : Modifiers, b.Others ∧ ν = .or .onlyMeta b

/-- A submap for `b` can be in a table for the modifiers `μ`. -/
def Step (μ b : Modifiers) : Prop :=
  μ = .none ∧ (b = .onlyMeta ∨ b.Others) ∨ μ = .onlyMeta ∧ b.Others

section levels

variable {s s' : Keymaps} {m k k' n : Nat} {μ ν b b' : Modifiers} {d : Def} {key : KeyData}

theorem Level.kept (h : Level s m μ k n) (hkept : Kept m s s') : Level s' m μ k n := by
  cases h with
  | top => exact .top
  | inMeta hk => exact .inMeta (hkept.top _ _ hk)
  | others hb hk => exact .others hb (hkept.top _ _ hk)
  | metaOthers hb hk hk' => exact .metaOthers hb (hkept.top _ _ hk) (hkept.inMeta _ hk _ _ hk')

theorem Level.child (h : Level s m μ k n) (hs : Nested s m) (hd : s.under k b = some d) :
    ∃ k' n', d = .keymap k' ∧ n' < n ∧ Level s m (μ.or b) k' n' ∧
      Step μ b := by
  cases h with
  | top =>
    obtain ⟨⟨k', rfl⟩, hb⟩ := hs.top b d hd
    rw [Modifiers.none_or]
    obtain rfl | hothers := hb
    · exact ⟨k', 1, rfl, by decide, .inMeta hd, .inl ⟨rfl, .inl rfl⟩⟩
    · exact ⟨k', 0, rfl, by decide, .others hothers hd, .inl ⟨rfl, .inr hothers⟩⟩
  | inMeta hk =>
    obtain ⟨⟨k', rfl⟩, hb⟩ := hs.inMeta k hk b d hd
    exact ⟨k', 0, rfl, by decide, .metaOthers hb hk hd, .inr ⟨rfl, hb⟩⟩
  | others hb hk =>
    rw [(hs.inOthers _ k hb hk).2] at hd
    cases hd
  | metaOthers hb hk hk' =>
    rw [hs.inMetaOthers _ hk _ k hk'] at hd
    cases hd

/-! ### Modifiers -/

theorem or_sansMeta (hb : b.Others) : (Modifiers.or .onlyMeta b).sansMeta = b := by
  have hor : (Modifiers.or .onlyMeta b).sansMeta = b.sansMeta := by
    simp [Modifiers.or, Modifiers.onlyMeta, Modifiers.none, Modifiers.sansMeta]
  exact hor.trans hb.sans_eq.2

theorem covers_onlyMeta_iff :
    Covers .onlyMeta ν ↔ ν = .onlyMeta ∨ ∃ b : Modifiers, b.Others ∧ ν = .or .onlyMeta b := by
  constructor
  · rintro (rfl | h | ⟨-, h⟩)
    · exact .inl rfl
    · cases h
    · exact .inr h
  · rintro (rfl | h)
    · exact .inl rfl
    · exact .inr (.inr ⟨rfl, h⟩)

theorem Covers.modMeta (h : Covers .onlyMeta ν) : ν.modMeta = true := by
  obtain rfl | ⟨b, hb, rfl⟩ := covers_onlyMeta_iff.mp h <;> rfl

theorem covers_others_iff (hb : b.Others) : Covers b ν ↔ ν = b := by
  refine ⟨?_, .inl⟩
  rintro (h | rfl | ⟨rfl, -⟩)
  · exact h
  · exact absurd rfl hb.2.2
  · exact absurd hb onlyMeta_not_others

theorem covers_both_iff (hb : b.Others) : Covers (.or .onlyMeta b) ν ↔ ν = .or .onlyMeta b := by
  refine ⟨?_, .inl⟩
  rintro (h | h | ⟨h, -⟩)
  · exact h
  · exact Bool.noConfusion (congrArg Modifiers.modMeta h)
  · have hsans := congrArg Modifiers.sansMeta h
    rw [or_sansMeta hb] at hsans
    exact absurd hsans hb.2.2

theorem Step.covers (h : Step μ b) (hν : Covers (μ.or b) ν) : Covers μ ν ∧ ν ≠ μ := by
  obtain ⟨rfl, hb⟩ | ⟨rfl, hb⟩ := h
  · rw [Modifiers.none_or] at hν
    refine ⟨.inr (.inl rfl), ?_⟩
    obtain rfl | hb := hb
    · intro heq
      exact Bool.noConfusion ((congrArg Modifiers.modMeta heq).symm.trans hν.modMeta)
    · rw [(covers_others_iff hb).mp hν]
      exact hb.2.2
  · obtain rfl := (covers_both_iff hb).mp hν
    refine ⟨.inr (.inr ⟨rfl, b, hb, rfl⟩), fun heq => ?_⟩
    have hsans := congrArg Modifiers.sansMeta heq
    rw [or_sansMeta hb] at hsans
    exact hb.2.2 hsans

theorem Step.eq_of_covers (h : Step μ b) (h' : Step μ b') (hν : Covers (μ.or b) ν)
    (hν' : Covers (μ.or b') ν) : b = b' := by
  obtain ⟨rfl, hb⟩ | ⟨rfl, hb⟩ := h
  · obtain ⟨-, hb'⟩ | ⟨heq, -⟩ := h'
    · rw [Modifiers.none_or] at hν hν'
      have hothers : ∀ {b : Modifiers}, b.Others → Covers b ν → ν.modMeta = false :=
        fun hb hν => (covers_others_iff hb).mp hν ▸ hb.1
      obtain rfl | hb := hb
      · obtain rfl | hb' := hb'
        · rfl
        · have hmeta := hν.modMeta
          rw [hothers hb' hν'] at hmeta
          cases hmeta
      · obtain rfl | hb' := hb'
        · have hmeta := hν'.modMeta
          rw [hothers hb hν] at hmeta
          cases hmeta
        · exact ((covers_others_iff hb).mp hν).symm.trans ((covers_others_iff hb').mp hν')
    · cases heq
  · obtain ⟨heq, -⟩ | ⟨-, hb'⟩ := h'
    · cases heq
    · rw [← or_sansMeta hb, ← or_sansMeta hb', ← (covers_both_iff hb).mp hν,
        ← (covers_both_iff hb').mp hν']

/-! ### Where bindings are -/

theorem submapFor_onlyMeta : s.submapFor m .onlyMeta = s.bucky m .onlyMeta := by
  simp [Keymaps.submapFor, Modifiers.onlyMeta, Modifiers.none, Modifiers.sansMeta,
    Modifiers.sansButtons]

theorem Level.submapFor (h : Level s m μ k n) : s.submapFor m μ = some k := by
  cases h with
  | top => rfl
  | inMeta hk => exact submapFor_onlyMeta.trans (bucky_eq_some.mpr hk)
  | others hb hk => exact (submapFor_others hb).trans (bucky_eq_some.mpr hk)
  | metaOthers hb hk hk' =>
    rw [submapFor_both hb, bucky_eq_some.mpr hk]
    exact bucky_eq_some.mpr hk'

theorem Level.binding (h : Level s m μ k n) (hkey : HasBinding s m key)
    (hcovers : Covers μ key.modifiers) :
    key.modifiers = μ ∧ (∃ d, (s.map k).table.lookup (.keysym key.keysym) = some d) ∨
      ∃ b k', s.under k b = some (.keymap k') ∧ Covers (μ.or b) key.modifiers := by
  obtain ⟨hbuttons, k₀, hsub, hne⟩ := hkey
  by_cases heq : key.modifiers = μ
  · rw [heq, h.submapFor, Option.some_inj] at hsub
    subst hsub
    refine .inl ⟨heq, ?_⟩
    rw [LispKeymap.gethash] at hne
    cases hlookup : (s.map k).table.lookup (.keysym key.keysym) with
    | none =>
      rw [hlookup] at hne
      exact absurd rfl hne
    | some d => exact ⟨d, rfl⟩
  right
  cases h with
  | top =>
    obtain hnone | hb | hmeta | ⟨b, hb, hboth⟩ := Modifiers.exists_eq hbuttons
    · exact absurd hnone heq
    · rw [submapFor_others hb, bucky_eq_some] at hsub
      refine ⟨_, k₀, hsub, ?_⟩
      rw [Modifiers.none_or]
      exact .inl rfl
    · rw [hmeta, submapFor_onlyMeta, bucky_eq_some] at hsub
      refine ⟨_, k₀, hsub, ?_⟩
      rw [Modifiers.none_or, hmeta]
      exact .inl rfl
    · rw [hboth, submapFor_both hb, Option.bind_eq_some_iff] at hsub
      obtain ⟨k₁, hk₁, -⟩ := hsub
      refine ⟨_, k₁, bucky_eq_some.mp hk₁, ?_⟩
      rw [Modifiers.none_or, hboth]
      exact covers_onlyMeta_iff.mpr (.inr ⟨b, hb, rfl⟩)
  | inMeta hk =>
    obtain hmeta | ⟨b, hb, hboth⟩ := covers_onlyMeta_iff.mp hcovers
    · exact absurd hmeta heq
    · rw [hboth, submapFor_both hb, bucky_eq_some.mpr hk, Option.bind_some, bucky_eq_some] at hsub
      exact ⟨b, k₀, hsub, .inl hboth⟩
  | others hb hk => exact absurd ((covers_others_iff hb).mp hcovers) heq
  | metaOthers hb hk hk' => exact absurd ((covers_both_iff hb).mp hcovers) heq

theorem Level.onWay (h : Level s m μ k n) (hn : n < 2) (hcovers : Covers μ ν) :
    OnWay s m ν k := by
  cases h with
  | top => exact absurd hn (by decide)
  | inMeta hk => exact .inl ⟨hcovers.modMeta, bucky_eq_some.mpr hk⟩
  | others hb hk =>
    obtain rfl := (covers_others_iff hb).mp hcovers
    refine .inr ⟨?_, (submapFor_others hb).trans (bucky_eq_some.mpr hk)⟩
    rw [hb.sans_eq.2]
    exact hb.2.2
  | @metaOthers b k₁ k hb hk hk' =>
    obtain rfl := (covers_both_iff hb).mp hcovers
    have hsub := (Level.metaOthers hb hk hk').submapFor
    refine .inr ⟨?_, hsub⟩
    rw [or_sansMeta hb]
    exact hb.2.2

end levels

/-! ## Walks -/

section visits

variable {σ : Type} (view : σ → MapState) (m : Nat) (I : σ → Prop)

/-- A state the function can be called in. -/
structure Good (x : σ) : Prop where
  inv : I x
  walkable : Walkable (view x).keymaps m
  arranged : (view x).Arranged

/-- The function has been called on keys of `B`, none of them twice; the tables in `W` have not
changed, nor has any while it was walked. -/
structure Passed (B : KeyData → Prop) (W : List Nat) (x : σ) (new : List Call) (x' : σ) :
    Prop where
  good : Good view m I x'
  kept : Kept m (view x).keymaps (view x').keymaps
  only : ∀ key, ¬ B key → calls new key = 0
  atMostOnce : ∀ key, calls new key ≤ 1
  unchanged : ∀ c ∈ new, ∀ k ∈ c.walked, c.after.slots k = c.before.slots k
  slots : ∀ k ∈ W, (view x').slots k = (view x).slots k
  last : view x' = view x ∨ ∃ c ∈ new, c.after = view x'

/-- It has been called on all keys of `B` with a binding that has not been removed. -/
structure PassedAll (B : KeyData → Prop) (W : List Nat) (x : σ) (new : List Call) (x' : σ) : Prop
    extends Passed view m I B W x new x' where
  once : ∀ key, B key → HasBinding (view x).keymaps m key →
    (∀ c ∈ new, HasBinding c.after.keymaps m key) → calls new key = 1

/-- A command that calls the function on the keys of `B`, unless an error cuts it short. -/
def VisitsFrom (B : KeyData → Prop) (W : List Nat) (c : Command (σ × List Call) PUnit) (x : σ) :
    Prop :=
  ∀ log,
    (∃ x' new, c (x, log) = .returns () (x', log ++ new) ∧ PassedAll view m I B W x new x') ∨
    ∃ x' new, c (x, log) = .signals (x', log ++ new) ∧ Passed view m I B W x new x'

/-- The command does so whenever the submaps of `t` are still there. -/
def Visits (t : Keymaps) (B : KeyData → Prop) (W : List Nat) (c : Command (σ × List Call) PUnit) :
    Prop :=
  ∀ x, Good view m I x → Kept m t (view x).keymaps → VisitsFrom view m I B W c x

variable {view m I}

theorem calls_append (l l' : List Call) (key : KeyData) :
    calls (l ++ l') key = calls l key + calls l' key :=
  List.countP_append

section compose

variable {B B₁ B₂ : KeyData → Prop} {W : List Nat} {x x₁ x₂ : σ} {new₁ new₂ : List Call}
  {t t' : Keymaps} {c₁ c₂ : Command (σ × List Call) PUnit}

/-- **Sequence.** -/
theorem Passed.append (h₁ : Passed view m I B₁ W x new₁ x₁)
    (h₂ : Passed view m I B₂ W x₁ new₂ x₂) (hdisjoint : ∀ key, B₁ key → ¬ B₂ key) :
    Passed view m I (fun key => B₁ key ∨ B₂ key) W x (new₁ ++ new₂) x₂ where
  good := h₂.good
  kept := h₁.kept.trans h₂.kept
  only key hkey := by
    rw [not_or] at hkey
    rw [calls_append, h₁.only key hkey.1, h₂.only key hkey.2]
  atMostOnce key := by
    rw [calls_append]
    by_cases hkey : B₁ key
    · rw [h₂.only key (hdisjoint key hkey), Nat.add_zero]
      exact h₁.atMostOnce key
    · rw [h₁.only key hkey, Nat.zero_add]
      exact h₂.atMostOnce key
  unchanged c hc := by
    obtain hc | hc := List.mem_append.mp hc
    · exact h₁.unchanged c hc
    · exact h₂.unchanged c hc
  slots k hk := (h₂.slots k hk).trans (h₁.slots k hk)
  last := by
    obtain heq | ⟨c, hc, heq⟩ := h₂.last
    · rw [heq]
      exact h₁.last.imp_right fun ⟨c, hc, h⟩ => ⟨c, List.mem_append_left _ hc, h⟩
    · exact .inr ⟨c, List.mem_append_right _ hc, heq⟩

theorem PassedAll.append (h₁ : PassedAll view m I B₁ W x new₁ x₁)
    (h₂ : PassedAll view m I B₂ W x₁ new₂ x₂) (hdisjoint : ∀ key, B₁ key → ¬ B₂ key) :
    PassedAll view m I (fun key => B₁ key ∨ B₂ key) W x (new₁ ++ new₂) x₂ where
  toPassed := h₁.toPassed.append h₂.toPassed hdisjoint
  once key hkey hbinding hafter := by
    have hafter₁ := fun c hc => hafter c (List.mem_append_left new₂ hc)
    have hafter₂ := fun c hc => hafter c (List.mem_append_right new₁ hc)
    rw [calls_append]
    by_cases h : B₁ key
    · rw [h₂.only key (hdisjoint key h), h₁.once key h hbinding hafter₁]
    · -- the binding is there when the second command starts
      have hbinding₁ : HasBinding (view x₁).keymaps m key := by
        obtain heq | ⟨c, hc, heq⟩ := h₁.last
        · rwa [heq]
        · rw [← heq]
          exact hafter₁ c hc
      rw [h₁.only key h, h₂.once key (hkey.resolve_left h) hbinding₁ hafter₂]

theorem VisitsFrom.seq (h₁ : VisitsFrom view m I B₁ W c₁ x)
    (h₂ : ∀ x', Good view m I x' → Kept m (view x).keymaps (view x').keymaps →
      VisitsFrom view m I B₂ W c₂ x')
    (hdisjoint : ∀ key, B₁ key → ¬ B₂ key) :
    VisitsFrom view m I (fun key => B₁ key ∨ B₂ key) W (c₁ >>= fun _ => c₂) x := by
  intro log
  rw [bind_apply]
  obtain ⟨x₁, new₁, hrun₁, hpassed₁⟩ | ⟨x₁, new₁, hrun₁, hpassed₁⟩ := h₁ log
  · rw [hrun₁]
    obtain ⟨x₂, new₂, hrun₂, hpassed₂⟩ | ⟨x₂, new₂, hrun₂, hpassed₂⟩ :=
      h₂ x₁ hpassed₁.good hpassed₁.kept (log ++ new₁)
    · exact .inl ⟨x₂, new₁ ++ new₂, hrun₂.trans (by rw [List.append_assoc]),
        hpassed₁.append hpassed₂ hdisjoint⟩
    · exact .inr ⟨x₂, new₁ ++ new₂, hrun₂.trans (by rw [List.append_assoc]),
        hpassed₁.toPassed.append hpassed₂ hdisjoint⟩
  · rw [hrun₁]
    refine .inr ⟨x₁, new₁, rfl, { hpassed₁ with only := fun key hkey => ?_ }⟩
    exact hpassed₁.only key fun h => hkey (.inl h)

theorem visitsFrom_pure (hx : Good view m I x) :
    VisitsFrom view m I (fun _ => False) W (pure ()) x := by
  intro log
  refine .inl ⟨x, [], by rw [pure_apply, List.append_nil], ⟨hx, .refl _, fun _ _ => rfl,
    fun _ => Nat.zero_le 1, fun c hc => absurd hc List.not_mem_nil, fun _ _ => rfl, .inl rfl⟩, ?_⟩
  exact fun _ h => h.elim

theorem VisitsFrom.widen (h : VisitsFrom view m I B₁ W c₁ x) (hB : ∀ key, B₁ key → B₂ key)
    (hcovers : ∀ key, B₂ key → HasBinding (view x).keymaps m key → B₁ key) :
    VisitsFrom view m I B₂ W c₁ x := by
  intro log
  obtain ⟨x₁, new₁, hrun₁, hpassed₁⟩ | ⟨x₁, new₁, hrun₁, hpassed₁⟩ := h log
  · refine .inl ⟨x₁, new₁, hrun₁, { hpassed₁.toPassed with
      only := fun key hkey => hpassed₁.only key fun h => hkey (hB key h) },
      fun key hkey hbinding => hpassed₁.once key (hcovers key hkey hbinding) hbinding⟩
  · exact .inr ⟨x₁, new₁, hrun₁, { hpassed₁ with
      only := fun key hkey => hpassed₁.only key fun h => hkey (hB key h) }⟩

theorem VisitsFrom.subset {W' : List Nat} (h : VisitsFrom view m I B W c₁ x)
    (hW : ∀ k ∈ W', k ∈ W) : VisitsFrom view m I B W' c₁ x := by
  intro log
  obtain ⟨x₁, new₁, hrun₁, hpassed₁⟩ | ⟨x₁, new₁, hrun₁, hpassed₁⟩ := h log
  · exact .inl ⟨x₁, new₁, hrun₁, { hpassed₁.toPassed with
      slots := fun k hk => hpassed₁.slots k (hW k hk) }, hpassed₁.once⟩
  · exact .inr ⟨x₁, new₁, hrun₁, { hpassed₁ with
      slots := fun k hk => hpassed₁.slots k (hW k hk) }⟩

/-- **A loop** over entries with different keys. -/
theorem Visits.forM {ε : Type} {l : List ε} {c : ε → Command (σ × List Call) PUnit}
    {K : ε → KeyData → Prop} (h : ∀ e ∈ l, Visits view m I t (K e) W (c e))
    (hdisjoint : l.Pairwise fun e e' => ∀ key, K e key → ¬ K e' key) :
    Visits view m I t (fun key => ∃ e ∈ l, K e key) W (l.forM c) := by
  induction l with
  | nil =>
    intro x hx hkept
    refine (visitsFrom_pure hx).widen (fun _ h => h.elim) ?_
    rintro key ⟨e, he, -⟩ -
    exact absurd he List.not_mem_nil
  | cons e l ih =>
    intro x hx hkept
    obtain ⟨he, hl⟩ := List.pairwise_cons.mp hdisjoint
    have hrest := ih (fun e' he' => h e' (List.mem_cons_of_mem e he')) hl
    refine ((h e (List.mem_cons_self ..) x hx hkept).seq
      (fun x' hx' hkept' => hrest x' hx' (hkept.trans hkept')) ?_).widen ?_ ?_
    · rintro key hkey ⟨e', he', hkey'⟩
      exact he e' he' key hkey hkey'
    · rintro key (hkey | ⟨e', he', hkey⟩)
      · exact ⟨e, List.mem_cons_self .., hkey⟩
      · exact ⟨e', List.mem_cons_of_mem e he', hkey⟩
    · rintro key ⟨e', he', hkey⟩ -
      obtain rfl | he' := List.mem_cons.mp he'
      · exact .inl hkey
      · exact .inr ⟨e', he', hkey⟩

end compose

/-! ### Calls -/

variable {function : KeyData → Def → Command σ Unit} {W walked : List Nat} {x : σ}
  {B : KeyData → Prop} {t : Keymaps}

/-- **One call** of the function. -/
theorem visits_call (hfn : EditsBindings view m function I) {key : KeyData} {d : Def}
    (hx : Good view m I x) (hW : ∀ k ∈ W, k ∈ walked)
    (hleaves : ∀ x', (function key d x).state? = some x' →
      ∀ k ∈ walked, (view x').slots k = (view x).slots k) :
    VisitsFrom view m I (· = key) W (mapKeymapMapper view function walked key d) x := by
  obtain ⟨x', hstate, hI', hstores, harranged⟩ := hfn key d x hx.inv
  obtain ⟨hwalkable, hkept⟩ := hstores.kept hx.walkable
  have hslots := hleaves x' hstate
  have hpassed : PassedAll view m I (· = key) W x [⟨key, d, walked, view x, view x'⟩] x' := by
    refine ⟨⟨⟨hI', hwalkable, harranged⟩, hkept, fun key' hkey' => ?_, fun key' => ?_,
      fun c hc => ?_, fun k hk => hslots k (hW k hk), ?_⟩, fun key' hkey' _ _ => ?_⟩
    · exact List.countP_eq_zero.mpr fun c hc => by
        rw [List.mem_singleton.mp hc]
        exact fun h => hkey' (of_decide_eq_true h).symm
    · exact List.countP_le_length
    · rw [List.mem_singleton.mp hc]
      exact hslots
    · exact .inr ⟨_, List.mem_singleton_self _, rfl⟩
    · rw [calls, hkey', List.countP_singleton, if_pos (decide_eq_true rfl)]
  intro log
  unfold mapKeymapMapper
  cases hrun : function key d x with
  | diverges =>
    rw [hrun] at hstate
    cases hstate
  | aborts =>
    rw [hrun] at hstate
    cases hstate
  | signals x'' =>
    rw [hrun] at hstate
    cases hstate
    exact .inr ⟨x', _, rfl, hpassed.toPassed⟩
  | returns u x'' =>
    rw [hrun] at hstate
    cases hstate
    exact .inl ⟨x', _, rfl, hpassed⟩

/-! ### The entries of a table -/

theorem mem_contents_iff (hx : Good view m I x) {k : Nat} {key : Key} {d : Def} :
    (key, d) ∈ (view x).contents k ↔ ((view x).keymaps.map k).table.lookup key = some d := by
  rw [(hx.arranged k).mem_iff, List.mem_map]
  constructor
  · rintro ⟨⟨key', d'⟩, hmem, heq⟩
    cases heq
    exact AList.mem_lookup_iff.mpr hmem
  · exact fun h => ⟨⟨key, d⟩, AList.mem_lookup_iff.mp h, rfl⟩

theorem nodup_contents (hx : Good view m I x) (k : Nat) :
    (((view x).contents k).map Prod.fst).Nodup := by
  have hperm := (hx.arranged k).map Prod.fst
  rw [List.map_map] at hperm
  exact hperm.nodup_iff.mpr ((view x).keymaps.map k).table.nodupKeys

/-- The keys of the bindings that are in an entry of the table for the modifiers `μ`, or below
it. -/
def entryKeys (μ : Modifiers) (e : Key × Def) (key : KeyData) : Prop :=
  match e.1 with
  | .keysym j => key = ⟨j, μ⟩
  | .modifiers b => Covers (μ.or b) key.modifiers

/-- **A table** whose entries are visited. -/
theorem visits_level {μ : Modifiers} {k n : Nat} (hx : Good view m I x)
    (hlevel : Level (view x).keymaps m μ k n) {l : List (Key × Def)}
    (hl : l.Perm ((view x).contents k)) {c : Key × Def → Command (σ × List Call) PUnit}
    (hc : ∀ e ∈ l, Visits view m I (view x).keymaps (entryKeys μ e) W (c e)) :
    VisitsFrom view m I (fun key => Covers μ key.modifiers) W (l.forM c) x := by
  have hstep : ∀ b d, (Key.modifiers b, d) ∈ l → Step μ b := by
    intro b d hmem
    have hunder := (mem_contents_iff hx).mp (hl.mem_iff.mp hmem)
    obtain ⟨_, _, -, -, -, hb⟩ := hlevel.child hx.walkable.nested hunder
    exact hb
  have hnodup : (l.map Prod.fst).Nodup := (hl.map Prod.fst).nodup_iff.mpr (nodup_contents hx k)
  have hdisjoint : l.Pairwise fun e e' => ∀ key, entryKeys μ e key → ¬ entryKeys μ e' key := by
    refine (List.pairwise_map.mp hnodup).imp_of_mem fun {e e'} he he' hne key hkey hkey' => hne ?_
    obtain ⟨key₁, d₁⟩ := e
    obtain ⟨key₂, d₂⟩ := e'
    cases key₁ with
    | keysym j =>
      cases key₂ with
      | keysym j' =>
        have heq : (⟨j, μ⟩ : KeyData) = ⟨j', μ⟩ := hkey.symm.trans hkey'
        exact congrArg Key.keysym (congrArg KeyData.keysym heq)
      | modifiers b =>
        have hmodifiers : key.modifiers = μ := congrArg KeyData.modifiers hkey
        exact absurd hmodifiers ((hstep b d₂ he').covers hkey').2
    | modifiers b =>
      cases key₂ with
      | keysym j =>
        have hmodifiers : key.modifiers = μ := congrArg KeyData.modifiers hkey'
        exact absurd hmodifiers ((hstep b d₁ he).covers hkey).2
      | modifiers b' =>
        exact congrArg Key.modifiers
          ((hstep b d₁ he).eq_of_covers (hstep b' d₂ he') hkey hkey')
  refine (Visits.forM hc hdisjoint x hx (.refl _)).widen ?_ ?_
  · rintro key ⟨⟨key', d⟩, he, hkey⟩
    cases key' with
    | keysym j => exact .inl (congrArg KeyData.modifiers hkey)
    | modifiers b => exact ((hstep b d he).covers hkey).1
  · intro key hcovers hbinding
    obtain ⟨hμ, d, hd⟩ | ⟨b, k', hk', hkey⟩ := hlevel.binding hbinding hcovers
    · refine ⟨(.keysym key.keysym, d), hl.mem_iff.mpr ((mem_contents_iff hx).mpr hd), ?_⟩
      show key = ⟨key.keysym, μ⟩
      rw [← hμ]
    · exact ⟨(.modifiers b, .keymap k'), hl.mem_iff.mpr ((mem_contents_iff hx).mpr hk'), hkey⟩

/-! ### With SORT-FIRST -/

theorem perm_sortContents (env : KeysymEnv) (table : List (Option (Key × Def))) :
    (sortContents env table.reduceOption.reverse).Perm table.reduceOption :=
  (listSort_perm _).trans (List.reverse_perm _)

theorem visits_sorted (hfn : EditsBindings view m function I) (env : KeysymEnv) {n : Nat} :
    ∀ {fuel : Nat}, n < fuel → ∀ {t : Keymaps} {μ : Modifiers} {k : Nat}, Level t m μ k n →
      Visits view m I t (fun key => Covers μ key.modifiers) [] (do
        let x ← Command.state
        mapKeymapSorted view function env fuel μ ((view x.1).slots k).entries) := by
  induction n using Nat.strong_induction_on with
  | _ n ih =>
    intro fuel hfuel t μ k hlevel x hx hkept log
    obtain ⟨fuel, rfl⟩ := Nat.exists_eq_add_one_of_ne_zero (Nat.ne_of_gt (Nat.zero_lt_of_lt hfuel))
    rw [bind_apply, state_apply]
    have hlevel' := hlevel.kept hkept
    refine visits_level hx hlevel' (perm_sortContents env _) (fun e he => ?_) log
    have hmem := (perm_sortContents env _).mem_iff.mp he
    obtain ⟨key, d⟩ := e
    cases key with
    | keysym j =>
      exact fun x hx _ => visits_call hfn hx (fun k hk => hk) fun _ _ k hk =>
        absurd hk List.not_mem_nil
    | modifiers b =>
      have hunder := (mem_contents_iff hx).mp hmem
      obtain ⟨k', n', rfl, hn', hchild, -⟩ := hlevel'.child hx.walkable.nested hunder
      exact ih n' hn' (Nat.lt_of_lt_of_le hn' (Nat.le_of_lt_succ hfuel)) hchild

/-! ### Without it -/

section maphash

variable {mapper : Key → Def → Command (σ × List Call) Unit} {k : Nat}

theorem forM_cons {ε ρ : Type} (f : ε → Command ρ PUnit) (a : ε) (l : List ε) :
    (a :: l).forM f = (f a >>= fun _ => l.forM f) :=
  rfl

theorem maphashSlot_eq {e fuel : Nat} {o : Option (Key × Def)} {log : List Call}
    (ho : ((view x).slots k).entries[e]? = some o)
    (hmapper : ∀ key d, o = some (key, d) → ∃ B, VisitsFrom view m I B W (mapper key d) x)
    (hk : k ∈ W) :
    maphashSlot view mapper k ((view x).slots k).address e (fuel + 1) (x, log) =
      (o.elim (pure ()) fun a => mapper a.1 a.2 : Command (σ × List Call) Unit) (x, log) := by
  have hread : ∀ x' : σ, (view x').slots k = (view x).slots k →
      ((view x').slots k).read ((view x).slots k).address e = some o := by
    intro x' heq
    rw [heq, HashArray.read, if_pos rfl, ho]
  rw [maphashSlot, bind_apply, state_apply]
  simp only [hread x rfl]
  cases o with
  | none => rfl
  | some a =>
    obtain ⟨key, d⟩ := a
    simp only [Option.elim_some]
    rw [bind_apply]
    obtain ⟨_, hvisits⟩ := hmapper key d rfl
    obtain ⟨x', new, hrun, hpassed⟩ | ⟨x', new, hrun, hpassed⟩ := hvisits log
    · -- the slot has its key still
      rw [hrun]
      simp only [bind_apply, state_apply, hread x' (hpassed.slots k hk), ne_eq, not_true_eq_false,
        if_false, pure_apply]
    · rw [hrun]

/-- **A walk over a table** that the mapper leaves as it is goes over its entries. -/
theorem elispMaphash_eq {t : Keymaps} {fuel : Nat} {K : Key × Def → KeyData → Prop}
    (hx : Good view m I x) (hkept : Kept m t (view x).keymaps) {log : List Call}
    (hmapper : ∀ e ∈ (view x).contents k, Visits view m I t (K e) W (mapper e.1 e.2))
    (hk : k ∈ W) :
    elispMaphash view mapper (fuel + 1) k (x, log) =
      (((view x).contents k).forM fun e => mapper e.1 e.2) (x, log) := by
  rw [elispMaphash, bind_apply, state_apply]
  have hloop : ∀ (rest done : List (Option (Key × Def))) (x' : σ) (log : List Call),
      ((view x).slots k).entries = done ++ rest → Good view m I x' →
      Kept m t (view x').keymaps → (view x').slots k = (view x).slots k →
      ((List.range' done.length rest.length).forM fun e =>
        maphashSlot view mapper k ((view x).slots k).address e (fuel + 1)) (x', log) =
      (rest.reduceOption.forM fun e => mapper e.1 e.2) (x', log) := by
    intro rest
    induction rest with
    | nil => exact fun _ _ _ _ _ _ _ => rfl
    | cons o rest ih =>
      intro done x' log hentries hx' hkept' hslots
      have ho : ((view x').slots k).entries[done.length]? = some o := by
        rw [hslots, hentries, List.getElem?_append_right (Nat.le_refl _), Nat.sub_self]
        rfl
      have hvisits : ∀ key d, o = some (key, d) →
          VisitsFrom view m I (K (key, d)) W (mapper key d) x' := by
        rintro key d rfl
        refine hmapper (key, d) ?_ x' hx' hkept'
        rw [MapState.contents, hentries, List.reduceOption_mem_iff]
        exact List.mem_append_right _ (List.mem_cons_self ..)
      have hslot := fun log => @maphashSlot_eq _ _ _ _ _ x' mapper k done.length fuel o log ho
        (fun key d h => ⟨_, hvisits key d h⟩) hk
      have hnext := ih (done ++ [o])
      rw [List.append_assoc, List.length_append, List.length_singleton] at hnext
      simp only [hslots] at hslot
      rw [List.length_cons, List.range'_succ, forM_cons, bind_apply, hslot]
      cases o with
      | none =>
        rw [List.reduceOption_cons_of_none]
        exact hnext x' log hentries hx' hkept' hslots
      | some a =>
        rw [List.reduceOption_cons_of_some, forM_cons, bind_apply, Option.elim_some]
        obtain ⟨x₁, new, hrun, hpassed⟩ | ⟨x₁, new, hrun, hpassed⟩ := hvisits a.1 a.2 rfl log
        · rw [hrun]
          exact hnext x₁ _ hentries hpassed.good (hkept'.trans hpassed.kept)
            ((hpassed.slots k hk).trans hslots)
        · rw [hrun]
  have hstart := hloop ((view x).slots k).entries [] x log rfl hx hkept rfl
  show ((List.range ((view x).slots k).entries.length).forM fun e =>
    maphashSlot view mapper k ((view x).slots k).address e (fuel + 1)) (x, log) = _
  rw [List.range_eq_range']
  exact hstart

end maphash

/-- `elisp_maphash` on the table of a submap, where the function leaves the tables alone that the
walk is in. -/
theorem visits_unsorted (hfn : EditsBindings view m function I)
    (hleaves : LeavesTables view m function I) {n : Nat} :
    ∀ {fuel : Nat}, n < fuel → n < 2 → ∀ {t : Keymaps} {μ : Modifiers} {k : Nat},
      Level t m μ k n → ∀ {walked : List Nat},
      (∀ k₀ ∈ walked, ∃ μ₀ n₀, n₀ < 2 ∧ Level t m μ₀ k₀ n₀ ∧ ∀ ν, Covers μ ν → Covers μ₀ ν) →
      Visits view m I t (fun key => Covers μ key.modifiers) walked
        (elispMaphash view (mapKeymapUnsortedMapper view function fuel μ (k :: walked))
          (fuel + 1) k) := by
  induction n using Nat.strong_induction_on with
  | _ n ih =>
    intro fuel hfuel hn t μ k hlevel walked hwalked x hx hkept
    obtain ⟨fuel, rfl⟩ := Nat.exists_eq_add_one_of_ne_zero (Nat.ne_of_gt (Nat.zero_lt_of_lt hfuel))
    have hlevel' := hlevel.kept hkept
    -- the tables that the walk is in, and this one
    have hway : ∀ k₀ ∈ k :: walked, ∃ μ₀ n₀, n₀ < 2 ∧ Level (view x).keymaps m μ₀ k₀ n₀ ∧
        ∀ ν, Covers μ ν → Covers μ₀ ν := by
      intro k₀ hk₀
      obtain rfl | hk₀ := List.mem_cons.mp hk₀
      · exact ⟨μ, n, hn, hlevel', fun _ h => h⟩
      · obtain ⟨μ₀, n₀, hn₀, hlevel₀, hcovers⟩ := hwalked k₀ hk₀
        exact ⟨μ₀, n₀, hn₀, hlevel₀.kept hkept, hcovers⟩
    have hmapper : ∀ e ∈ (view x).contents k, Visits view m I (view x).keymaps (entryKeys μ e)
        (k :: walked)
        (mapKeymapUnsortedMapper view function (fuel + 1) μ (k :: walked) e.1 e.2) := by
      rintro ⟨key, d⟩ he
      cases key with
      | keysym j =>
        intro x' hx' hkept'
        refine visits_call hfn hx' (fun k₀ hk₀ => hk₀) fun x'' hstate k₀ hk₀ => ?_
        obtain ⟨μ₀, n₀, hn₀, hlevel₀, hcovers⟩ := hway k₀ hk₀
        exact hleaves _ _ _ _ hx'.inv hstate k₀
          ((hlevel₀.kept hkept').onWay hn₀ (hcovers μ (.inl rfl)))
      | modifiers b =>
        have hunder := (mem_contents_iff hx).mp he
        obtain ⟨k', n', rfl, hn', hchild, hstep⟩ := hlevel'.child hx.walkable.nested hunder
        refine ih n' hn' (Nat.lt_of_lt_of_le hn' (Nat.le_of_lt_succ hfuel)) (hn'.trans hn) hchild
          fun k₀ hk₀ => ?_
        obtain ⟨μ₀, n₀, hn₀, hlevel₀, hcovers⟩ := hway k₀ hk₀
        exact ⟨μ₀, n₀, hn₀, hlevel₀, fun ν hν => hcovers ν (hstep.covers hν).1⟩
    intro log
    rw [elispMaphash_eq hx (.refl _) hmapper (List.mem_cons_self ..)]
    exact ((visits_level hx hlevel' (.refl _) hmapper).subset
      fun k₀ hk₀ => List.mem_cons_of_mem k hk₀) log

theorem elispMaphashCopy_eq (mapper : Key → Def → Command (σ × List Call) Unit)
    (table : List (Option (Key × Def))) :
    elispMaphashCopy mapper table = table.reduceOption.forM fun e => mapper e.1 e.2 := by
  induction table with
  | nil => rfl
  | cons o table ih =>
    cases o with
    | none => exact ih
    | some e => exact congrArg (fun c => mapper e.1 e.2 >>= fun _ => c) ih

end visits

/-- What is said of a call of `map-keymap` from the state `s`. -/
def Visited {σ : Type} (s : MapState) (m : Nat) : Outcome (σ × List Call) Unit → Prop
  | .returns () x => VisitsOnce s m x.2
  | .signals x => VisitsAtMostOnce s m x.2
  | .aborts | .diverges => False

/-- **`map-keymap` visits each binding once**, with SORT-FIRST or where the function leaves the
table of a binding with modifiers alone that it is called on. -/
theorem mapKeymap_visits {σ : Type} {view : σ → MapState} {m : Nat}
    {function : KeyData → Def → Command σ Unit} {I : σ → Prop} {env : KeysymEnv}
    {sortFirst : Bool} {fuel : Nat} (hfn : EditsBindings view m function I)
    (hleaves : sortFirst ∨ LeavesTables view m function I) (hfuel : 2 < fuel) {x : σ} (hx : I x)
    (hwellFormed : WellFormed (view x).keymaps) (hm : m < (view x).keymaps.next)
    (hnested : Nested (view x).keymaps m) (harranged : (view x).Arranged) :
    Visited (view x) m (mapKeymap view function env sortFirst fuel m (x, [])) := by
  have hgood : Good view m I x := ⟨hx, ⟨hwellFormed, hm, hnested⟩, harranged⟩
  have hvisits : ∃ W, VisitsFrom view m I (fun key => Covers .none key.modifiers) W
      (mapKeymap view function env sortFirst fuel m) x := by
    cases sortFirst with
    | true => exact ⟨[], visits_sorted hfn env hfuel .top x hgood (.refl _)⟩
    | false =>
      have hleaves := hleaves.resolve_left Bool.false_ne_true
      obtain ⟨fuel, rfl⟩ := Nat.exists_eq_add_one_of_ne_zero
        (Nat.ne_of_gt (Nat.zero_lt_of_lt hfuel))
      refine ⟨[], fun log => ?_⟩
      have hrun : mapKeymap view function env false (fuel + 1) m (x, log) =
          (((view x).contents m).forM fun e =>
            mapKeymapUnsortedMapper view function (fuel + 1) .none [] e.1 e.2) (x, log) :=
        congrFun (elispMaphashCopy_eq _ ((view x).slots m).entries) (x, log)
      rw [hrun]
      refine visits_level hgood .top (.refl _) ?_ log
      rintro ⟨key, d⟩ he
      cases key with
      | keysym j =>
        exact fun x' hx' _ => visits_call hfn hx' (fun k hk => hk) fun _ _ k hk =>
          absurd hk List.not_mem_nil
      | modifiers b =>
        have hunder := (mem_contents_iff hgood).mp he
        obtain ⟨k', n', rfl, hn', hchild, -⟩ := Level.top.child hnested hunder
        exact visits_unsorted hfn hleaves (hn'.trans_le (Nat.le_of_lt_succ hfuel)) hn' hchild
          fun k hk => absurd hk List.not_mem_nil
  obtain ⟨W, hvisits⟩ := hvisits
  obtain ⟨x', new, hrun, hpassed⟩ | ⟨x', new, hrun, hpassed⟩ := hvisits []
  · rw [hrun]
    exact ⟨⟨fun key _ => hpassed.atMostOnce key, hpassed.unchanged⟩,
      fun key => hpassed.once key (.inr (.inl rfl))⟩
  · rw [hrun]
    exact ⟨fun key _ => hpassed.atMostOnce key, hpassed.unchanged⟩

/-! ### An example -/

def metaX : KeyData :=
  ⟨.char 120, .onlyMeta⟩

def metaY : KeyData :=
  ⟨.char 121, .onlyMeta⟩

/-- The keymap 0 with a binding of `M-x`, in the submap 1. -/
def metaMap : Keymaps where
  map
    | 0 => { emptyKeymap with
        table := AList.singleton (.modifiers .onlyMeta) (.keymap 1), subMapsCache := none }
    | 1 => { emptyKeymap with table := AList.singleton (.keysym metaX.keysym) (.command 0) }
    | _ => emptyKeymap
  next := 2
  cells := noKeymaps.cells

/-- It with a binding of `M-y`. -/
def metaMapY : Keymaps :=
  (keymapStore (keymapStoreInternal (fun _ _ => false) 1) 0 metaY (.command 1) metaMap).state?.getD
    metaMap

/-- Whether `M-y` has been bound; it goes in a slot that was free. -/
def metaView (bound : Bool) : MapState where
  keymaps := if bound then metaMapY else metaMap
  slots
    | 0 => ⟨0, [some (.modifiers .onlyMeta, .keymap 1)]⟩
    | 1 => ⟨1, [some (.keysym metaX.keysym, .command 0),
        if bound then some (.keysym metaY.keysym, .command 1) else none]⟩
    | _ => ⟨2, []⟩

/-- Called on `M-x`, the function binds `M-y`. -/
def bindMetaY (key : KeyData) (_ : Def) : Command Bool Unit :=
  fun bound => .returns () (bound || key = metaX)

theorem metaView_arranged (bound : Bool) : (metaView bound).Arranged := by
  intro m
  cases bound with
  | false =>
    match m with
    | 0 => exact .refl _
    | 1 => exact .refl _
    | m + 2 => exact .refl _
  | true =>
    match m with
    | 0 => exact .refl _
    | 1 => exact .swap ..
    | m + 2 => exact .refl _

theorem bindMetaY_edits : EditsBindings metaView 0 bindMetaY fun _ => True := by
  intro key d bound _
  refine ⟨bound || key = metaX, rfl, trivial, ?_, metaView_arranged _⟩
  cases bound with
  | true => exact .refl _
  | false =>
    by_cases hkey : key = metaX
    · rw [decide_eq_true hkey]
      exact .store (fun _ _ => false) 1 metaY (show (Def.command 1).live _ from rfl) (.refl _) rfl
    · rw [decide_eq_false hkey]
      exact .refl _

theorem metaMap_lookup {m : Nat} {key : Key} {d : Def}
    (h : (metaMap.map m).table.lookup key = some d) :
    m = 0 ∧ key = .modifiers .onlyMeta ∧ d = .keymap 1 ∨
      m = 1 ∧ key = .keysym metaX.keysym ∧ d = .command 0 := by
  match m with
  | 0 =>
    have hmem := AList.mem_lookup_iff.mp h
    cases List.mem_singleton.mp hmem
    exact .inl ⟨rfl, rfl, rfl⟩
  | 1 =>
    have hmem := AList.mem_lookup_iff.mp h
    cases List.mem_singleton.mp hmem
    exact .inr ⟨rfl, rfl, rfl⟩
  | m + 2 => cases h

theorem metaMap_wellFormed : WellFormed metaMap where
  live m k d h := by
    obtain ⟨-, -, rfl⟩ | ⟨-, -, rfl⟩ := metaMap_lookup h <;> rfl
  parents m p hp := by
    match m with
    | 0 | 1 => exact absurd hp List.not_mem_nil
    | m + 2 => exact absurd hp List.not_mem_nil
  bound m k h := by
    obtain ⟨-, -, h⟩ | ⟨-, -, h⟩ := metaMap_lookup h <;> cases h
  fresh m hm := by
    match m, hm with
    | 0, hm => exact absurd hm (by decide)
    | 1, hm => exact absurd hm (by decide)
    | m + 2, _ => rfl

theorem metaMap_nested : Nested metaMap 0 := by
  have hunder : ∀ m mods d, metaMap.under m mods = some d → m = 0 ∧ mods = .onlyMeta ∧
      d = .keymap 1 := by
    intro m mods d h
    obtain ⟨hm, hkey, hd⟩ | ⟨-, hkey, -⟩ := metaMap_lookup h
    · exact ⟨hm, Key.modifiers.inj hkey, hd⟩
    · cases hkey
  refine ⟨fun mods d h => ?_, fun k hk mods d h => ?_, fun mods k hmods h => ?_,
    fun k hk mods k' h => ?_⟩
  · obtain ⟨-, rfl, rfl⟩ := hunder 0 mods d h
    exact ⟨⟨1, rfl⟩, .inl rfl⟩
  · obtain ⟨-, -, heq⟩ := hunder _ _ _ hk
    cases heq
    exact absurd (hunder 1 mods d h).1 (by decide)
  · obtain ⟨-, rfl, -⟩ := hunder _ _ _ h
    exact absurd hmods onlyMeta_not_others
  · obtain ⟨-, -, heq⟩ := hunder _ _ _ hk
    cases heq
    exact absurd (hunder 1 mods _ h).1 (by decide)

/-- Sorted, the walk is in no table while `M-y` is bound. -/
theorem metaMap_sorted : Visited (metaView false) 0
    (mapKeymap metaView bindMetaY plainKeysyms true 3 0 (false, [])) :=
  mapKeymap_visits bindMetaY_edits (.inl rfl) (by decide) trivial metaMap_wellFormed (by decide)
    metaMap_nested (metaView_arranged false)

/-- Unsorted, it is in the table that `M-y` is added to. -/
theorem metaMap_changed :
    ¬ ∀ (σ : Type) (view : σ → MapState) (m : Nat) (function : KeyData → Def → Command σ Unit)
      (I : σ → Prop) (env : KeysymEnv) (sortFirst : Bool) (fuel : Nat) (x : σ),
      EditsBindings view m function I → 2 < fuel → I x → WellFormed (view x).keymaps →
      m < (view x).keymaps.next → Nested (view x).keymaps m → (view x).Arranged →
      Visited (view x) m (mapKeymap view function env sortFirst fuel m (x, [])) := by
  intro hall
  have hvisited := hall Bool metaView 0 bindMetaY (fun _ => True) plainKeysyms false 3 false
    bindMetaY_edits (by decide) trivial metaMap_wellFormed (by decide) metaMap_nested
    (metaView_arranged false)
  have hlog : VisitsOnce (metaView false) 0
      [⟨metaX, .command 0, [1], metaView false, metaView true⟩,
        ⟨metaY, .command 1, [1], metaView true, metaView true⟩] := hvisited
  have hsame := hlog.unchanged _ (List.mem_cons_self ..) 1 (List.mem_cons_self ..)
  exact absurd (congrArg HashArray.entries hsame) (by decide)

end XEmacs.Keymap
