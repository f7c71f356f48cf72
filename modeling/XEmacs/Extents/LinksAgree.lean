import XEmacs.Extents.Links
import XEmacs.Lib.Chains
import XEmacs.Lib.Runs
import Mathlib.Data.List.Perm.Subperm

/-!
# When the parents and the children lists of extents agree

`LinksAgree` says that the two sides of the relation are the same: an extent is in the children
list of its parent, once, and in no other list. Two commands break it.
-/

namespace XEmacs.Links

open List

namespace Heap

/-- The two sides of the relation agree, on the live extents. -/
def LinksAgree (h : Heap) : Prop :=
  ∀ p c, h.Live p → h.Live c →
    (c ∈ h.children p ↔ h.extentParent c = some p) ∧
      (c ∈ h.children p → (h.children p).count c = 1)

/-- The weak list of `p`, if it has one, is that of `x` also. -/
def SharesChildren (h : Heap) (x p : ExtentId) : Prop :=
  ∃ w, h.extentChildren x = some w ∧ h.extentChildren p = some w

/-- The extents from `o` on, each the parent of the one before, to one without a
parent. -/
def Ancestry (h : Heap) : Option ExtentId → List ExtentId → Prop :=
  Chains.Chain h.extentParent

/-- What a run keeps while the relation agrees. -/
structure Linked (h : Heap) : Prop where
  agree : h.LinksAgree
  live_of_mem {p c : ExtentId} : h.Live p → c ∈ h.children p → h.Live c
  live_parent {c p : ExtentId} : h.Live c → h.extentParent c = some p → h.Live p
  weak_list_lt {e : ExtentId} {w : WeakListId} : h.extentChildren e = some w →
    w < h.weakListCount
  chain_ends {e : ExtentId} : h.Live e → ∃ l, h.Ancestry (some e) l

/-- The checks of `Fset_extent_parent` let the change through. -/
def Accepted (h : Heap) (extent : ExtentId) (parent : Option ExtentId) : Prop :=
  h.Live extent ∧ (∀ p ∈ parent, h.Live p) ∧ parent ≠ h.extentParent extent ∧
    h.chainMeets extent h.extentCount parent = false

/-! ### What the list operations do -/

section Lists

variable {h : Heap} {p c : ExtentId}

theorem live_addExtentToChildrenList {x : ExtentId} :
    (h.addExtentToChildrenList p c).Live x ↔ h.Live x := by
  rw [addExtentToChildrenList]
  cases h.extentChildren p with
  | none => simp
  | some w => simp

theorem extentParent_addExtentToChildrenList (x : ExtentId) :
    (h.addExtentToChildrenList p c).extentParent x = h.extentParent x := by
  rw [addExtentToChildrenList]
  cases h.extentChildren p with
  | none =>
    by_cases hx : x = p
    · simp [extentParent, hx]
    · simp [extentParent, hx]
  | some w => rfl

theorem weak_list_lt_addExtentToChildrenList
    (hlt : ∀ {e w}, h.extentChildren e = some w → w < h.weakListCount) {e : ExtentId}
    {w : WeakListId} (hw : (h.addExtentToChildrenList p c).extentChildren e = some w) :
    w < (h.addExtentToChildrenList p c).weakListCount := by
  rw [addExtentToChildrenList] at hw ⊢
  cases hp : h.extentChildren p with
  | none =>
    rw [hp] at hw
    show w < h.weakListCount + 1
    by_cases he : e = p
    · have hnew : some h.weakListCount = some w := by
        simpa [extentChildren, he] using hw
      cases hnew
      exact Nat.lt_succ_self _
    · have hold : h.extentChildren e = some w := by
        simpa [extentChildren, he] using hw
      exact Nat.lt_succ_of_lt (hlt hold)
  | some w' =>
    rw [hp] at hw
    exact hlt hw

theorem addExtentToChildrenList_of_none (hp : h.extentChildren p = none) :
    h.addExtentToChildrenList p c
      = (h.makeWeakList.setExtentNoChaseAuxField p
          fun a => { a with children := some h.weakListCount }).setWeakList h.weakListCount [c] := by
  rw [addExtentToChildrenList, hp]
  show setWeakList _ _ (c :: Function.update h.weakList h.weakListCount [] h.weakListCount) = _
  rw [Function.update_self]

theorem addExtentToChildrenList_of_some {w : WeakListId} (hp : h.extentChildren p = some w) :
    h.addExtentToChildrenList p c = h.setWeakList w (c :: h.weakList w) := by
  rw [addExtentToChildrenList, hp]

theorem children_addExtentToChildrenList_of_shares {x : ExtentId}
    (hx : x = p ∨ h.SharesChildren x p) :
    (h.addExtentToChildrenList p c).children x = c :: h.children x := by
  cases hp : h.extentChildren p with
  | none =>
    obtain rfl | ⟨w, -, hw⟩ := hx
    · rw [addExtentToChildrenList_of_none hp, children_of_none hp, children_setWeakList_self]
      simp [extentChildren]
    · rw [hp] at hw
      cases hw
  | some w =>
    have hxw : h.extentChildren x = some w := by
      obtain rfl | ⟨w', hxw', hw'⟩ := hx
      · exact hp
      · rw [hxw', ← hw', hp]
    rw [addExtentToChildrenList_of_some hp, children_setWeakList_self hxw, children_of_some hxw]

theorem children_addExtentToChildrenList_of_not_shares
    (hlt : ∀ {e w}, h.extentChildren e = some w → w < h.weakListCount) {x : ExtentId}
    (hx : x ≠ p) (hshares : ¬ h.SharesChildren x p) :
    (h.addExtentToChildrenList p c).children x = h.children x := by
  cases hp : h.extentChildren p with
  | none =>
    have hsame : (h.makeWeakList.setExtentNoChaseAuxField p
        fun a => { a with children := some h.weakListCount }).extentChildren x
          = h.extentChildren x := by
      simp [extentChildren, hx]
    have hne : h.extentChildren x ≠ some h.weakListCount :=
      fun hxw => Nat.lt_irrefl _ (hlt hxw)
    rw [addExtentToChildrenList_of_none hp, children_setWeakList_of_ne (hsame ▸ hne)]
    cases hxw : h.extentChildren x with
    | none => rw [children_of_none hxw, children_of_none (hsame.trans hxw)]
    | some w =>
      rw [children_of_some hxw, children_of_some (hsame.trans hxw)]
      exact Function.update_of_ne (Nat.ne_of_lt (hlt hxw)) ..
  | some w =>
    rw [addExtentToChildrenList_of_some hp, children_setWeakList_of_ne]
    exact fun hxw => hshares ⟨w, hxw, hp⟩

theorem live_removeExtentFromChildrenList {x : ExtentId} :
    (h.removeExtentFromChildrenList p c).Live x ↔ h.Live x := by
  rw [removeExtentFromChildrenList]
  cases h.extentChildren p with
  | none => rfl
  | some w => rfl

theorem extentAuxOrDefault_removeExtentFromChildrenList (x : ExtentId) :
    (h.removeExtentFromChildrenList p c).extentAuxOrDefault x = h.extentAuxOrDefault x := by
  rw [removeExtentFromChildrenList]
  cases h.extentChildren p with
  | none => rfl
  | some w => rfl

theorem weakListCount_removeExtentFromChildrenList :
    (h.removeExtentFromChildrenList p c).weakListCount = h.weakListCount := by
  rw [removeExtentFromChildrenList]
  cases h.extentChildren p with
  | none => rfl
  | some w => rfl

theorem children_removeExtentFromChildrenList_of_shares {x : ExtentId}
    (hx : x = p ∨ h.SharesChildren x p) :
    (h.removeExtentFromChildrenList p c).children x = (h.children x).filter (· ≠ c) := by
  rw [removeExtentFromChildrenList]
  cases hp : h.extentChildren p with
  | none =>
    obtain rfl | ⟨w, -, hw⟩ := hx
    · rw [children_of_none hp]
      rfl
    · rw [hp] at hw
      cases hw
  | some w =>
    have hxw : h.extentChildren x = some w := by
      obtain rfl | ⟨w', hxw', hw'⟩ := hx
      · exact hp
      · rw [hxw', ← hw', hp]
    exact (children_setWeakList_self hxw).trans (by rw [children_of_some hxw])

theorem children_removeExtentFromChildrenList_of_not_shares {x : ExtentId}
    (hshares : ¬ h.SharesChildren x p) :
    (h.removeExtentFromChildrenList p c).children x = h.children x := by
  rw [removeExtentFromChildrenList]
  cases hp : h.extentChildren p with
  | none => rfl
  | some w => exact children_setWeakList_of_ne fun hxw => hshares ⟨w, hxw, hp⟩

/-- The last two assignments of `Fset_extent_parent`. -/
def setParentField (h : Heap) (e : ExtentId) (parent : Option ExtentId) : Heap :=
  (h.setExtentNoChaseAuxField e fun a => { a with parent := parent }).setHasParent e
    parent.isSome

@[simp] theorem live_setParentField {e x : ExtentId} {parent : Option ExtentId} :
    (h.setParentField e parent).Live x ↔ h.Live x := by
  simp [setParentField]

@[simp] theorem extentParent_setParentField (e x : ExtentId) (parent : Option ExtentId) :
    (h.setParentField e parent).extentParent x = if x = e then parent else h.extentParent x := by
  by_cases hx : x = e
  · simp [setParentField, extentParent, hx]
  · simp [setParentField, extentParent, hx]

@[simp] theorem extentChildren_setParentField (e x : ExtentId) (parent : Option ExtentId) :
    (h.setParentField e parent).extentChildren x = h.extentChildren x := by
  by_cases hx : x = e
  · simp [setParentField, extentChildren, hx]
  · simp [setParentField, extentChildren, hx]

@[simp] theorem children_setParentField (e x : ExtentId) (parent : Option ExtentId) :
    (h.setParentField e parent).children x = h.children x := by
  rw [children, extentChildren_setParentField]
  rfl

end Lists

/-! ### The loop over the ancestors -/

section Chains

variable {h : Heap} {o : Option ExtentId} {l : List ExtentId}

theorem Ancestry.lt_count (hparent : ∀ {c p}, h.Live c → h.extentParent c = some p → h.Live p)
    (hl : h.Ancestry o l) (ho : ∀ e ∈ o, h.Live e) : ∀ x ∈ l, x < h.extentCount :=
  fun x hx => (hl.forall_mem (P := h.Live) hparent ho x hx).1

theorem Ancestry.length_le (hparent : ∀ {c p}, h.Live c → h.extentParent c = some p → h.Live p)
    (hl : h.Ancestry o l) (ho : ∀ e ∈ o, h.Live e) : l.length ≤ h.extentCount := by
  have hsub : l ⊆ List.range h.extentCount :=
    fun x hx => List.mem_range.mpr (Ancestry.lt_count hparent hl ho x hx)
  have hlen := (hl.nodup.subperm hsub).length_le
  rwa [length_range] at hlen

theorem chainMeets_eq (hl : h.Ancestry o l) {fuel : Nat} (hfuel : l.length ≤ fuel)
    (extent : ExtentId) : h.chainMeets extent fuel o = true ↔ extent ∈ l := by
  induction hl generalizing fuel with
  | nil => simp [chainMeets]
  | @cons e tail _ ih =>
    cases fuel with
    | zero => exact absurd hfuel (Nat.not_succ_le_zero _)
    | succ fuel =>
      rw [chainMeets, Bool.or_eq_true, decide_eq_true_iff, ih (Nat.le_of_succ_le_succ hfuel),
        mem_cons, eq_comm]

/-- **The check of `set-extent-parent`**: the loop sees all the ancestors of a live
extent. -/
theorem Linked.chainMeets_iff (hh : h.Linked) {p : ExtentId} (hp : h.Live p)
    (extent : ExtentId) : h.chainMeets extent h.extentCount (some p) = true
      ↔ ∃ l, h.Ancestry (some p) l ∧ extent ∈ l := by
  obtain ⟨l, hl⟩ := hh.chain_ends hp
  have hlen : l.length ≤ h.extentCount :=
    Ancestry.length_le hh.live_parent hl fun e he => Option.some.inj he ▸ hp
  rw [chainMeets_eq hl hlen]
  constructor
  · exact fun hmem => ⟨l, hl, hmem⟩
  · rintro ⟨l', hl', hmem⟩
    exact hl.unique hl' ▸ hmem

end Chains

/-! ### Changing the parent -/

section Reparenting

variable {h : Heap} {e p q : ExtentId} {parent : Option ExtentId}

theorem setExtentParent_of_not_accepted (hno : ¬ h.Accepted e parent) :
    (h.setExtentParent e parent).heap = h := by
  unfold setExtentParent
  by_cases he : h.Live e
  · rw [if_neg (not_not_intro he)]
    by_cases hp : ∃ p ∈ parent, ¬ h.Live p
    · rw [if_pos hp]
    · rw [if_neg hp]
      by_cases hcur : parent = h.extentParent e
      · rw [if_pos hcur]
      · rw [if_neg hcur, if_pos]
        by_contra hmeets
        refine hno ⟨he, fun p hpm => ?_, hcur, Bool.eq_false_iff.mpr hmeets⟩
        by_contra hlive
        exact hp ⟨p, hpm, hlive⟩
  · rw [if_pos he]

theorem setExtentParent_some (hacc : h.Accepted e (some p)) : h.setExtentParent e (some p)
    = ⟨(h.addExtentToChildrenList p e).setParentField e (some p), none⟩ := by
  obtain ⟨he, hlive, hcur, hmeets⟩ := hacc
  have hchecks : ¬ ∃ q ∈ some p, ¬ h.Live q := by
    rintro ⟨q, hq, hdead⟩
    exact hdead (hlive q hq)
  rw [setExtentParent, if_neg (not_not_intro he), if_neg hchecks, if_neg hcur,
    if_neg (Bool.eq_false_iff.mp hmeets)]
  rfl

theorem setExtentParent_none (he : h.Live e) (hcur : h.extentParent e = some q) :
    h.setExtentParent e none
      = ⟨(h.removeExtentFromChildrenList q e).setParentField e none, none⟩ := by
  have hchecks : ¬ ∃ p ∈ (none : Option ExtentId), ¬ h.Live p := by
    rintro ⟨p, hp, -⟩
    cases hp
  have hne : none ≠ h.extentParent e := by
    rw [hcur]
    exact nofun
  have hmeets : ¬ h.chainMeets e h.extentCount none = true := by
    rw [chainMeets]
    exact Bool.false_ne_true
  rw [setExtentParent, if_neg (not_not_intro he), if_neg hchecks, if_neg hne, if_neg hmeets]
  simp only [hcur]
  rfl

theorem setExtentParent_none_of_none (he : h.Live e) (hcur : h.extentParent e = none) :
    h.setExtentParent e none = ⟨h, none⟩ := by
  have hchecks : ¬ ∃ p ∈ (none : Option ExtentId), ¬ h.Live p := by
    rintro ⟨p, hp, -⟩
    cases hp
  rw [setExtentParent, if_neg (not_not_intro he), if_neg hchecks, if_pos hcur.symm]

theorem linksAgree_iff_count : h.LinksAgree ↔ ∀ p c, h.Live p → h.Live c →
    (h.children p).count c = if h.extentParent c = some p then 1 else 0 := by
  refine forall₄_congr fun p c _ _ => ?_
  by_cases hp : h.extentParent c = some p
  · rw [if_pos hp]
    constructor
    · rintro ⟨hmem, hone⟩
      exact hone (hmem.mpr hp)
    · intro hone
      have hmem : c ∈ h.children p := List.count_pos_iff.mp (by rw [hone]; exact Nat.one_pos)
      exact ⟨iff_of_true hmem hp, fun _ => hone⟩
  · rw [if_neg hp]
    constructor
    · rintro ⟨hmem, -⟩
      exact count_eq_zero_of_not_mem (mt hmem.mp hp)
    · intro hzero
      have hmem : c ∉ h.children p := List.count_eq_zero.mp hzero
      exact ⟨iff_of_false hmem hp, fun hin => absurd hin hmem⟩

theorem Linked.parent_of_mem (hh : h.Linked) {c : ExtentId} (hp : h.Live p)
    (hc : c ∈ h.children p) : h.extentParent c = some p :=
  ((hh.agree p c hp (hh.live_of_mem hp hc)).1).mp hc

theorem Linked.eq_of_shares (hh : h.Linked) {c : ExtentId} (hp : h.Live p) (hq : h.Live q)
    (hc : c ∈ h.children p) (hshares : h.SharesChildren q p) : q = p := by
  obtain ⟨w, hqw, hpw⟩ := hshares
  have hc' : c ∈ h.children q := by
    rw [children_of_some hqw, ← children_of_some hpw]
    exact hc
  exact Option.some.inj ((hh.parent_of_mem hq hc').symm.trans (hh.parent_of_mem hp hc))

/-- **Taking the parent away** from a live extent keeps the relation, and no other extent
loses or gets one. -/
theorem Linked.setExtentParent_none (hh : h.Linked) (he : h.Live e) :
    ∃ h', h.setExtentParent e none = ⟨h', none⟩ ∧ h'.Linked ∧ (∀ x, h'.Live x ↔ h.Live x) ∧
      ∀ x, h'.extentParent x = if x = e then none else h.extentParent x := by
  cases hcur : h.extentParent e with
  | none =>
    refine ⟨h, setExtentParent_none_of_none he hcur, hh, fun _ => Iff.rfl, fun x => ?_⟩
    by_cases hx : x = e
    · rw [if_pos hx, hx, hcur]
    · rw [if_neg hx]
  | some q =>
    have hq : h.Live q := hh.live_parent he hcur
    have hmem : e ∈ h.children q := (hh.agree q e hq he).1.mpr hcur
    have hlive : ∀ x, ((h.removeExtentFromChildrenList q e).setParentField e none).Live x
        ↔ h.Live x := fun x => by simp [live_removeExtentFromChildrenList]
    have hparent : ∀ x, ((h.removeExtentFromChildrenList q e).setParentField e none).extentParent x
        = if x = e then none else h.extentParent x := fun x => by
      simp [extentParent, extentAuxOrDefault_removeExtentFromChildrenList, setParentField]
      split
      · rfl
      · rfl
    have hself : ((h.removeExtentFromChildrenList q e).setParentField e none).children q
        = (h.children q).filter (· ≠ e) := by
      rw [children_setParentField, children_removeExtentFromChildrenList_of_shares (.inl rfl)]
    have hother : ∀ x, h.Live x → x ≠ q →
        ((h.removeExtentFromChildrenList q e).setParentField e none).children x
          = h.children x := fun x hx hne => by
      rw [children_setParentField, children_removeExtentFromChildrenList_of_not_shares]
      exact fun hshares => hne (hh.eq_of_shares hq hx hmem hshares)
    refine ⟨_, Heap.setExtentParent_none he hcur, ⟨?_, ?_, ?_, ?_, ?_⟩, hlive, hparent⟩
    · rw [linksAgree_iff_count]
      intro p c hp hc
      rw [hlive] at hp hc
      rw [hparent]
      by_cases hpq : p = q
      · subst hpq
        rw [hself]
        by_cases hce : c = e
        · rw [if_pos hce, if_neg nofun, count_eq_zero]
          simp [hce]
        · rw [if_neg hce, count_filter (by simpa using hce)]
          exact linksAgree_iff_count.mp hh.agree p c hp hc
      · rw [hother p hp hpq, linksAgree_iff_count.mp hh.agree p c hp hc]
        by_cases hce : c = e
        · have hne : ¬ some q = some p := fun heq => hpq (Option.some.inj heq).symm
          rw [hce, hcur, if_neg hne, if_pos rfl, if_neg nofun]
        · rw [if_neg hce]
    · intro p c hp hc
      rw [hlive] at hp ⊢
      by_cases hpq : p = q
      · subst hpq
        rw [hself] at hc
        exact hh.live_of_mem hp (mem_of_mem_filter hc)
      · rw [hother p hp hpq] at hc
        exact hh.live_of_mem hp hc
    · intro c p hc hp
      rw [hlive] at hc ⊢
      rw [hparent] at hp
      by_cases hce : c = e
      · rw [if_pos hce] at hp
        cases hp
      · rw [if_neg hce] at hp
        exact hh.live_parent hc hp
    · intro x w hx
      rw [extentChildren_setParentField] at hx
      simp only [extentChildren, extentAuxOrDefault_removeExtentFromChildrenList] at hx
      show w < (h.removeExtentFromChildrenList q e).weakListCount
      rw [weakListCount_removeExtentFromChildrenList]
      exact hh.weak_list_lt hx
    · intro x hx
      rw [hlive] at hx
      obtain ⟨l, hl⟩ := hh.chain_ends hx
      refine hl.ends_of_changed (e := e) (fun y hy => ?_) ⟨[], ?_⟩
      · rw [hparent, if_neg hy]
      · rw [hparent, if_pos rfl]
        exact .nil

/-- `set-extent-parent` to a parent keeps the relation, if the extent has none yet and no
other live extent has the weak list of the new one. -/
theorem Linked.setExtentParent_some (hh : h.Linked) (hacc : h.Accepted e (some p))
    (hcur : h.extentParent e = none)
    (hshares : ∀ q, h.Live q → h.SharesChildren q p → q = p) :
    (h.setExtentParent e (some p)).heap.Linked := by
  rw [Heap.setExtentParent_some hacc]
  obtain ⟨he, hp, hne, hmeets⟩ := hacc
  have hp : h.Live p := hp p rfl
  have hlive : ∀ x, ((h.addExtentToChildrenList p e).setParentField e (some p)).Live x
      ↔ h.Live x := fun x => by simp [live_addExtentToChildrenList]
  have hparent : ∀ x, ((h.addExtentToChildrenList p e).setParentField e (some p)).extentParent x
      = if x = e then some p else h.extentParent x := fun x => by
    rw [extentParent_setParentField, extentParent_addExtentToChildrenList]
  have hself : ((h.addExtentToChildrenList p e).setParentField e (some p)).children p
      = e :: h.children p := by
    rw [children_setParentField, children_addExtentToChildrenList_of_shares (.inl rfl)]
  have hother : ∀ x, h.Live x → x ≠ p →
      ((h.addExtentToChildrenList p e).setParentField e (some p)).children x
        = h.children x := fun x hx hxp => by
    rw [children_setParentField, children_addExtentToChildrenList_of_not_shares hh.weak_list_lt hxp]
    exact fun hs => hxp (hshares x hx hs)
  refine ⟨?_, ?_, ?_, ?_, ?_⟩
  · rw [linksAgree_iff_count]
    intro q c hq hc
    rw [hlive] at hq hc
    rw [hparent]
    have hcount := linksAgree_iff_count.mp hh.agree q c hq hc
    by_cases hce : c = e
    · subst hce
      rw [hcur, if_neg nofun] at hcount
      rw [if_pos rfl]
      by_cases hqp : q = p
      · subst hqp
        rw [hself, count_cons_self, hcount, if_pos rfl]
      · have hne : ¬ some p = some q := fun heq => hqp (Option.some.inj heq).symm
        rw [hother q hq hqp, hcount, if_neg hne]
    · rw [if_neg hce, ← hcount]
      by_cases hqp : q = p
      · subst hqp
        rw [hself, count_cons_of_ne (Ne.symm hce)]
      · rw [hother q hq hqp]
  · intro q c hq hc
    rw [hlive] at hq ⊢
    by_cases hqp : q = p
    · subst hqp
      rw [hself] at hc
      obtain rfl | hc := List.mem_cons.mp hc
      · exact he
      · exact hh.live_of_mem hq hc
    · rw [hother q hq hqp] at hc
      exact hh.live_of_mem hq hc
  · intro c q hc hq
    rw [hlive] at hc ⊢
    rw [hparent] at hq
    by_cases hce : c = e
    · rw [if_pos hce] at hq
      exact Option.some.inj hq ▸ hp
    · rw [if_neg hce] at hq
      exact hh.live_parent hc hq
  · intro x w hx
    rw [extentChildren_setParentField] at hx
    exact weak_list_lt_addExtentToChildrenList hh.weak_list_lt hx
  · intro x hx
    rw [hlive] at hx
    obtain ⟨l, hl⟩ := hh.chain_ends hx
    obtain ⟨lp, hlp⟩ := hh.chain_ends hp
    -- the loop has seen that the new ancestors do not meet the extent
    have hnot : e ∉ lp := by
      intro hmem
      have hmet := (hh.chainMeets_iff hp e).mpr ⟨lp, hlp, hmem⟩
      rw [hmeets] at hmet
      cases hmet
    have hsame : ∀ y, y ≠ e →
        ((h.addExtentToChildrenList p e).setParentField e (some p)).extentParent y
          = h.extentParent y := fun y hy => by rw [hparent, if_neg hy]
    refine hl.ends_of_changed hsame ⟨lp, ?_⟩
    rw [hparent, if_pos rfl]
    refine hlp.congr fun y hy => hsame y ?_
    rintro rfl
    exact hnot hy

theorem Linked.not_agree_of_moved (hh : h.Linked) (hacc : h.Accepted e (some p))
    (hcur : h.extentParent e = some q) :
    ¬ (h.setExtentParent e (some p)).heap.LinksAgree := by
  have he : h.Live e := hacc.1
  have hq : h.Live q := hh.live_parent he hcur
  have hqp : q ≠ p := fun heq => hacc.2.2.1 (heq ▸ hcur.symm)
  have hmem : e ∈ h.children q := (hh.agree q e hq he).1.mpr hcur
  rw [Heap.setExtentParent_some hacc]
  intro hagree
  have hin : e ∈ ((h.addExtentToChildrenList p e).setParentField e (some p)).children q := by
    rw [children_setParentField]
    by_cases hshares : h.SharesChildren q p
    · rw [children_addExtentToChildrenList_of_shares (.inr hshares)]
      exact mem_cons_self ..
    · rw [children_addExtentToChildrenList_of_not_shares hh.weak_list_lt hqp hshares]
      exact hmem
  have hlive : ∀ x, h.Live x →
      ((h.addExtentToChildrenList p e).setParentField e (some p)).Live x :=
    fun x hx => by simpa [live_addExtentToChildrenList] using hx
  have hparent := ((hagree q e (hlive q hq) (hlive e he)).1).mp hin
  rw [extentParent_setParentField, if_pos rfl] at hparent
  exact hqp (Option.some.inj hparent).symm

theorem not_agree_of_shares (hacc : h.Accepted e (some p))
    (hq : h.Live q) (hqp : q ≠ p) (hshares : h.SharesChildren q p) :
    ¬ (h.setExtentParent e (some p)).heap.LinksAgree := by
  rw [Heap.setExtentParent_some hacc]
  intro hagree
  have hin : e ∈ ((h.addExtentToChildrenList p e).setParentField e (some p)).children q := by
    rw [children_setParentField, children_addExtentToChildrenList_of_shares (.inr hshares)]
    exact mem_cons_self ..
  have hlive : ∀ x, h.Live x →
      ((h.addExtentToChildrenList p e).setParentField e (some p)).Live x :=
    fun x hx => by simpa [live_addExtentToChildrenList] using hx
  have hparent := ((hagree q e (hlive q hq) (hlive e hacc.1)).1).mp hin
  rw [extentParent_setParentField, if_pos rfl] at hparent
  exact hqp (Option.some.inj hparent).symm

end Reparenting

/-! ### New extents -/

section NewExtents

variable {h : Heap}

/-- The heap with one more extent. -/
def withNew (h : Heap) (x : Extent) : Heap :=
  { h with
    extent := Function.update h.extent h.extentCount x
    extentCount := h.extentCount + 1 }

theorem live_withNew {x : Extent} (hx : x.destroyed = false) {y : ExtentId} :
    (h.withNew x).Live y ↔ h.Live y ∨ y = h.extentCount := by
  by_cases hy : y = h.extentCount
  · simp [Live, withNew, hy, hx]
  · have hlt : y < h.extentCount + 1 ↔ y < h.extentCount :=
      Nat.lt_succ_iff_lt_or_eq.trans (or_iff_left hy)
    simp [Live, withNew, hy, hlt]

theorem extentAuxOrDefault_withNew (x : Extent) (y : ExtentId) :
    (h.withNew x).extentAuxOrDefault y
      = if y = h.extentCount then x.aux.getD extentAuxiliaryDefaults
        else h.extentAuxOrDefault y := by
  by_cases hy : y = h.extentCount
  · simp [extentAuxOrDefault, withNew, hy]
  · simp [extentAuxOrDefault, withNew, hy]

theorem children_withNew_of_ne (x : Extent) {y : ExtentId} (hy : y ≠ h.extentCount) :
    (h.withNew x).children y = h.children y := by
  rw [children, extentChildren, extentAuxOrDefault_withNew, if_neg hy]
  rfl

theorem copyExtent_eq (original : ExtentId) : h.copyExtent original
    = match h.extentParent original with
      | none => h.withNew { h.extent original with destroyed := false }
      | some p => (h.withNew { h.extent original with destroyed := false }).addExtentToChildrenList
          p h.extentCount := by
  have hnew : { h.makeExtentDetached with
      extent := Function.update h.makeExtentDetached.extent h.extentCount
        { h.makeExtentDetached.extent h.extentCount with
          hasParent := (h.extent original).hasParent
          aux := (h.extent original).aux } }
      = h.withNew { h.extent original with destroyed := false } := by
    simp [makeExtentDetached, withNew]
  have hparent : (h.withNew { h.extent original with destroyed := false }).extentParent
      h.extentCount = h.extentParent original := by
    have haux := extentAuxOrDefault_withNew (h := h) { h.extent original with destroyed := false }
      h.extentCount
    rw [if_pos rfl] at haux
    exact congrArg ExtentAuxiliary.parent haux
  rw [copyExtent]
  cases hp : h.extentParent original with
  | none => simp only [hnew, hparent, hp]
  | some p => simp only [hnew, hparent, hp]

/-- A new extent, without children and in the list of its parent if it has one, keeps
the relation. -/
theorem Linked.of_new (hh : h.Linked) {h' : Heap} {o : Option ExtentId}
    (ho : ∀ p ∈ o, h.Live p) (hlive : ∀ x, h'.Live x ↔ h.Live x ∨ x = h.extentCount)
    (hparent : ∀ x, h'.extentParent x = if x = h.extentCount then o else h.extentParent x)
    (hold : ∀ x, h.Live x →
      h'.children x = if o = some x then h.extentCount :: h.children x else h.children x)
    (hnew : h'.children h.extentCount = [])
    (hlt : ∀ {e w}, h'.extentChildren e = some w → w < h'.weakListCount) : h'.Linked := by
  have hnone : ¬ h.Live h.extentCount := fun hl => Nat.lt_irrefl _ hl.1
  have hnot : ∀ {p}, h.Live p → h.extentCount ∉ h.children p :=
    fun hp hmem => hnone (hh.live_of_mem hp hmem)
  have hparent_of_live : ∀ {c}, h.Live c → h'.extentParent c = h.extentParent c := by
    intro c hc
    have hne : c ≠ h.extentCount := by
      rintro rfl
      exact hnone hc
    rw [hparent, if_neg hne]
  refine ⟨?_, ?_, ?_, hlt, ?_⟩
  · rw [linksAgree_iff_count]
    intro p c hp hc
    obtain hp | rfl := (hlive p).mp hp
    · obtain hc | rfl := (hlive c).mp hc
      · have hcount := linksAgree_iff_count.mp hh.agree p c hp hc
        rw [hold p hp, hparent_of_live hc, ← hcount]
        split
        · refine count_cons_of_ne ?_
          rintro rfl
          exact hnone hc
        · rfl
      · rw [hold p hp, hparent, if_pos rfl]
        split
        · rw [count_cons_self, count_eq_zero_of_not_mem (hnot hp)]
        · exact count_eq_zero_of_not_mem (hnot hp)
    · rw [hnew, count_nil, if_neg]
      -- nothing has the new extent for a parent
      intro hpc
      obtain hc | rfl := (hlive c).mp hc
      · rw [hparent_of_live hc] at hpc
        exact hnone (hh.live_parent hc hpc)
      · rw [hparent, if_pos rfl] at hpc
        exact hnone (ho _ hpc)
  · intro p c hp hc
    rw [hlive]
    obtain hp | rfl := (hlive p).mp hp
    · rw [hold p hp] at hc
      split at hc
      · obtain rfl | hc := List.mem_cons.mp hc
        · exact .inr rfl
        · exact .inl (hh.live_of_mem hp hc)
      · exact .inl (hh.live_of_mem hp hc)
    · rw [hnew] at hc
      exact absurd hc not_mem_nil
  · intro c p hc hp
    rw [hlive]
    obtain hc | rfl := (hlive c).mp hc
    · rw [hparent_of_live hc] at hp
      exact .inl (hh.live_parent hc hp)
    · rw [hparent, if_pos rfl] at hp
      exact .inl (ho p hp)
  · intro x hx
    have hchain : ∀ {y}, h.Live y → ∃ l, h'.Ancestry (some y) l := by
      intro y hy
      obtain ⟨l, hl⟩ := hh.chain_ends hy
      refine ⟨l, hl.congr fun z hz => ?_⟩
      have hzlt := Ancestry.lt_count hh.live_parent hl (fun e he => Option.some.inj he ▸ hy) z hz
      rw [hparent, if_neg (Nat.ne_of_lt hzlt)]
    obtain hx | rfl := (hlive x).mp hx
    · exact hchain hx
    · cases o with
      | none =>
        refine ⟨_, .cons (l := []) ?_⟩
        rw [hparent, if_pos rfl]
        exact .nil
      | some p =>
        obtain ⟨l, hl⟩ := hchain (ho p rfl)
        refine ⟨_, .cons (l := l) ?_⟩
        rw [hparent, if_pos rfl]
        exact hl

theorem weak_list_lt_withNew (hh : h.Linked) {x : Extent}
    (hx : ∀ w, (x.aux.getD extentAuxiliaryDefaults).children = some w → w < h.weakListCount)
    {e : ExtentId} {w : WeakListId} (hw : (h.withNew x).extentChildren e = some w) :
    w < (h.withNew x).weakListCount := by
  rw [extentChildren, extentAuxOrDefault_withNew] at hw
  by_cases he : e = h.extentCount
  · rw [if_pos he] at hw
    exact hx w hw
  · rw [if_neg he] at hw
    exact hh.weak_list_lt hw

theorem Linked.makeExtent (hh : h.Linked) : h.makeExtent.heap.Linked := by
  have hmake : h.makeExtent.heap = h.withNew ⟨false, false, none⟩ := rfl
  rw [hmake]
  refine hh.of_new (o := none) nofun (fun x => live_withNew rfl) (fun x => ?_) (fun x hx => ?_) ?_
    (weak_list_lt_withNew hh fun w hw => by cases hw)
  · rw [extentParent, extentAuxOrDefault_withNew]
    split
    · rfl
    · rfl
  · rw [if_neg nofun, children_withNew_of_ne _ (Nat.ne_of_lt hx.1)]
  · rw [children_of_none]
    rw [extentChildren, extentAuxOrDefault_withNew, if_pos rfl]
    rfl

/-- A copy keeps the relation, if the original has no children. -/
theorem Linked.copyExtent (hh : h.Linked) {e : ExtentId} (he : h.Live e)
    (hchildren : h.children e = []) : (h.copyExtent e).Linked := by
  have hdead : ({ h.extent e with destroyed := false } : Extent).destroyed = false := rfl
  have hwith_parent : ∀ x, (h.withNew { h.extent e with destroyed := false }).extentParent x
      = if x = h.extentCount then h.extentParent e else h.extentParent x := fun x => by
    rw [extentParent, extentAuxOrDefault_withNew]
    split
    · rfl
    · rfl
  have hwith_children : (h.withNew { h.extent e with destroyed := false }).extentChildren
      h.extentCount = h.extentChildren e := by
    rw [extentChildren, extentAuxOrDefault_withNew, if_pos rfl]
    rfl
  have hwith_old : ∀ {x}, x ≠ h.extentCount →
      (h.withNew { h.extent e with destroyed := false }).extentChildren x = h.extentChildren x :=
    fun hx => by
      rw [extentChildren, extentAuxOrDefault_withNew, if_neg hx]
      rfl
  have hwith_new : (h.withNew { h.extent e with destroyed := false }).children h.extentCount
      = [] := by
    rw [children, hwith_children]
    exact hchildren
  have hwith_lt : ∀ {x w},
      (h.withNew { h.extent e with destroyed := false }).extentChildren x = some w →
        w < (h.withNew { h.extent e with destroyed := false }).weakListCount :=
    weak_list_lt_withNew hh (x := { h.extent e with destroyed := false })
      fun w hw => hh.weak_list_lt (e := e) hw
  rw [copyExtent_eq]
  cases hpar : h.extentParent e with
  | none =>
    refine hh.of_new (o := none) (fun _ hp => by cases hp) (fun x => live_withNew hdead)
      (fun x => ?_) (fun x hx => ?_) hwith_new hwith_lt
    · rw [hwith_parent, hpar]
    · rw [if_neg (Option.some_ne_none x).symm, children_withNew_of_ne _ (Nat.ne_of_lt hx.1)]
  | some p =>
    have hp : h.Live p := hh.live_parent he hpar
    have hmem : e ∈ h.children p := (hh.agree p e hp he).1.mpr hpar
    have hpn : p ≠ h.extentCount := Nat.ne_of_lt hp.1
    refine hh.of_new (o := some p) (fun q hq => Option.some.inj hq ▸ hp)
      (fun x => live_addExtentToChildrenList.trans (live_withNew hdead)) (fun x => ?_)
      (fun x hx => ?_) ?_ (weak_list_lt_addExtentToChildrenList hwith_lt)
    · rw [extentParent_addExtentToChildrenList, hwith_parent, hpar]
    · have hxn : x ≠ h.extentCount := Nat.ne_of_lt hx.1
      by_cases hxp : x = p
      · subst hxp
        rw [if_pos rfl, children_addExtentToChildrenList_of_shares (.inl rfl),
          children_withNew_of_ne _ hxn]
      · rw [if_neg fun heq => hxp (Option.some.inj heq).symm,
          children_addExtentToChildrenList_of_not_shares hwith_lt hxp,
          children_withNew_of_ne _ hxn]
        rintro ⟨w, hxw, hpw⟩
        rw [hwith_old hxn] at hxw
        rw [hwith_old hpn] at hpw
        exact hxp (hh.eq_of_shares hp hx hmem ⟨w, hxw, hpw⟩)
    · rw [children_addExtentToChildrenList_of_not_shares hwith_lt (Ne.symm hpn)]
      · exact hwith_new
      · -- the copy has the list of the original, which is empty, not that of the parent
        rintro ⟨w, hnw, hpw⟩
        rw [hwith_children] at hnw
        rw [hwith_old hpn] at hpw
        rw [children_of_some hpw, ← children_of_some hnw, hchildren] at hmem
        exact not_mem_nil hmem

theorem Linked.not_agree_of_copied (hh : h.Linked) {e : ExtentId} (he : h.Live e)
    (hchildren : h.children e ≠ []) : ¬ (h.copyExtent e).LinksAgree := by
  obtain ⟨c, hc⟩ := exists_mem_of_ne_nil _ hchildren
  have hclive : h.Live c := hh.live_of_mem he hc
  have hcn : c ≠ h.extentCount := Nat.ne_of_lt hclive.1
  have hcpar : h.extentParent c = some e := hh.parent_of_mem he hc
  have hlive : ∀ x, h.Live x ∨ x = h.extentCount → (h.copyExtent e).Live x := by
    intro x hx
    rw [copyExtent_eq]
    have hwith : (h.withNew { h.extent e with destroyed := false }).Live x :=
      (live_withNew rfl).mpr hx
    cases h.extentParent e with
    | none => exact hwith
    | some p => exact live_addExtentToChildrenList.mpr hwith
  have hcold : (h.withNew { h.extent e with destroyed := false }).extentParent c = some e := by
    rw [extentParent, extentAuxOrDefault_withNew, if_neg hcn]
    exact hcpar
  have hin : c ∈ (h.withNew { h.extent e with destroyed := false }).children h.extentCount := by
    rw [children, extentChildren, extentAuxOrDefault_withNew, if_pos rfl]
    exact hc
  intro hagree
  have hpar : (h.copyExtent e).extentParent c = some h.extentCount := by
    refine ((hagree h.extentCount c (hlive _ (.inr rfl)) (hlive c (.inl hclive))).1).mp ?_
    rw [copyExtent_eq]
    cases hp : h.extentParent e with
    | none => exact hin
    | some p =>
      have hpn : h.extentCount ≠ p := (Nat.ne_of_lt (hh.live_parent he hp).1).symm
      simp only
      by_cases hshares : (h.withNew { h.extent e with destroyed := false }).SharesChildren
          h.extentCount p
      · rw [children_addExtentToChildrenList_of_shares (.inr hshares)]
        exact mem_cons_of_mem _ hin
      · rw [children_addExtentToChildrenList_of_not_shares _ hpn hshares]
        · exact hin
        · exact weak_list_lt_withNew hh (x := { h.extent e with destroyed := false })
            fun w hw => hh.weak_list_lt (e := e) hw
  have hsame : (h.copyExtent e).extentParent c = some e := by
    rw [copyExtent_eq]
    cases h.extentParent e with
    | none => exact hcold
    | some p => exact (extentParent_addExtentToChildrenList c).trans hcold
  exact absurd (Option.some.inj (hsame.symm.trans hpar)) (Nat.ne_of_lt he.1)

end NewExtents

/-! ### Destroying an extent -/

section Destruction

variable {h : Heap}

theorem Linked.orphan {l : List ExtentId} (hh : h.Linked) (hl : ∀ c ∈ l, h.Live c) :
    ∃ h', h.orphan l = ⟨h', none⟩ ∧ h'.Linked ∧ (∀ x, h'.Live x ↔ h.Live x) ∧
      ∀ x, h'.extentParent x = if x ∈ l then none else h.extentParent x := by
  induction l generalizing h with
  | nil => exact ⟨h, rfl, hh, fun _ => Iff.rfl, fun x => by rw [if_neg not_mem_nil]⟩
  | cons c rest ih =>
    obtain ⟨h₁, hset, hh₁, hlive₁, hparent₁⟩ := hh.setExtentParent_none (hl c mem_cons_self)
    have hrest : ∀ x ∈ rest, h₁.Live x :=
      fun x hx => (hlive₁ x).mpr (hl x (mem_cons_of_mem c hx))
    obtain ⟨h', hloop, hh', hlive', hparent'⟩ := ih hh₁ hrest
    refine ⟨h', ?_, hh', fun x => (hlive' x).trans (hlive₁ x), fun x => ?_⟩
    · rw [Heap.orphan, hset]
      exact hloop
    · rw [hparent', hparent₁]
      by_cases hx : x ∈ rest
      · rw [if_pos hx, if_pos (mem_cons_of_mem c hx)]
      · rw [if_neg hx]
        by_cases hxc : x = c
        · rw [if_pos hxc, if_pos (hxc ▸ mem_cons_self)]
        · rw [if_neg hxc, if_neg fun hmem => (List.mem_cons.mp hmem).elim hxc hx]

/-- `destroy_extent` keeps the relation on the extents that are left. -/
theorem Linked.destroyExtent (hh : h.Linked) {e : ExtentId} (he : h.Live e) :
    (h.destroyExtent e).heap.Linked := by
  obtain ⟨h₁, hloop, hh₁, hlive₁, hparent₁⟩ :=
    hh.orphan fun c hc => hh.live_of_mem he hc
  obtain ⟨h₂, hset, hh₂, hlive₂, hparent₂⟩ := hh₁.setExtentParent_none ((hlive₁ e).mpr he)
  have hrun : (h.destroyExtent e).heap = h₂.markDestroyed e := by
    simp only [Heap.destroyExtent, hloop, hset]
  rw [hrun]
  have haux : ∀ x, (h₂.markDestroyed e).extentAuxOrDefault x = h₂.extentAuxOrDefault x := by
    intro x
    by_cases hx : x = e
    · simp [extentAuxOrDefault, markDestroyed, hx]
    · simp [extentAuxOrDefault, markDestroyed, hx]
  have hparent : ∀ x, (h₂.markDestroyed e).extentParent x = h₂.extentParent x :=
    fun x => congrArg ExtentAuxiliary.parent (haux x)
  have hsame : ∀ x, (h₂.markDestroyed e).extentChildren x = h₂.extentChildren x :=
    fun x => congrArg ExtentAuxiliary.children (haux x)
  have hchildren : ∀ x, (h₂.markDestroyed e).children x = h₂.children x := by
    intro x
    rw [children, hsame]
    rfl
  have hlive : ∀ x, (h₂.markDestroyed e).Live x ↔ h₂.Live x ∧ x ≠ e := by
    intro x
    by_cases hx : x = e
    · simp [Live, markDestroyed, hx]
    · simp [Live, markDestroyed, hx]
  -- by now the extent is nobody's parent and nobody's child
  have hno_parent : h₂.extentParent e = none := by rw [hparent₂, if_pos rfl]
  have hno_child : ∀ c, h₂.Live c → h₂.extentParent c ≠ some e := by
    intro c hc hpc
    have hc : h.Live c := (hlive₁ c).mp ((hlive₂ c).mp hc)
    rw [hparent₂] at hpc
    split at hpc
    · cases hpc
    · rw [hparent₁] at hpc
      split at hpc
      · cases hpc
      · rename_i hnot
        exact hnot ((hh.agree e c he hc).1.mpr hpc)
  refine ⟨?_, ?_, ?_, ?_, ?_⟩
  · intro p c hp hc
    rw [hlive] at hp hc
    rw [hchildren, hparent]
    exact hh₂.agree p c hp.1 hc.1
  · intro p c hp hc
    rw [hlive] at hp ⊢
    rw [hchildren] at hc
    refine ⟨hh₂.live_of_mem hp.1 hc, ?_⟩
    rintro rfl
    have hpc := hh₂.parent_of_mem hp.1 hc
    rw [hno_parent] at hpc
    cases hpc
  · intro c p hc hp
    rw [hlive] at hc ⊢
    rw [hparent] at hp
    refine ⟨hh₂.live_parent hc.1 hp, ?_⟩
    rintro rfl
    exact hno_child c hc.1 hp
  · intro x w hx
    rw [hsame] at hx
    exact hh₂.weak_list_lt hx
  · intro x hx
    rw [hlive] at hx
    obtain ⟨l, hl⟩ := hh₂.chain_ends hx.1
    exact ⟨l, hl.congr fun y _ => hparent y⟩

end Destruction

theorem linked_empty : empty.Linked where
  agree _ _ hp _ := absurd hp.1 (Nat.not_lt_zero _)
  live_of_mem hp _ := absurd hp.1 (Nat.not_lt_zero _)
  live_parent hc _ := absurd hc.1 (Nat.not_lt_zero _)
  weak_list_lt hw := by cases hw
  chain_ends he := absurd he.1 (Nat.not_lt_zero _)

end Heap

open Heap

/-- The step of a run: the heap a command leaves, whether or not it signals an error. -/
def Command.step (h : Heap) (c : Command) : Option Heap := some (c.run h).heap

/-- A command that leaves the relation as it should be: an extent gets a parent only while
it has none, the weak list of the new parent is no other live extent's, and only extents
without children are copied. -/
def Command.Keeps (h : Heap) : Command → Prop
  | setExtentParent extent (some parent) => h.Accepted extent (some parent) →
    h.extentParent extent = none ∧ ∀ q, h.Live q → h.SharesChildren q parent → q = parent
  | setExtentParent _ none => True
  | copyExtent extent => h.Live extent → h.children extent = []
  | deleteExtent _ => True
  | makeExtent => True

theorem Command.linked_run {h : Heap} (hh : h.Linked) (c : Command) (hc : c.Keeps h) :
    (c.run h).heap.Linked := by
  cases c with
  | setExtentParent extent parent =>
    by_cases hacc : h.Accepted extent parent
    · cases parent with
      | none =>
        obtain ⟨h', hset, hh', -⟩ := hh.setExtentParent_none hacc.1
        rw [run, hset]
        exact hh'
      | some p =>
        obtain ⟨hcur, hshares⟩ := hc hacc
        exact hh.setExtentParent_some hacc hcur hshares
    · rw [run, setExtentParent_of_not_accepted hacc]
      exact hh
  | copyExtent extent =>
    rw [run, copyExtentCommand]
    by_cases he : h.Live extent
    · rw [if_pos he]
      exact hh.copyExtent he (hc he)
    · rw [if_neg he]
      exact hh
  | deleteExtent extent =>
    rw [run, Heap.deleteExtent]
    by_cases hlt : extent < h.extentCount
    · rw [if_neg (not_not_intro hlt)]
      by_cases he : h.Live extent
      · rw [if_neg (not_not_intro he)]
        exact hh.destroyExtent he
      · rw [if_pos he]
        exact hh
    · rw [if_pos hlt]
      exact hh
  | makeExtent => exact hh.makeExtent

theorem Command.not_agree_run {h : Heap} (hh : h.Linked) (c : Command) (hc : ¬ c.Keeps h) :
    ¬ (c.run h).heap.LinksAgree := by
  cases c with
  | setExtentParent extent parent =>
    cases parent with
    | none => exact absurd trivial hc
    | some p =>
      obtain ⟨hacc, hno⟩ := Classical.not_imp.mp hc
      cases hcur : h.extentParent extent with
      | some q => exact hh.not_agree_of_moved hacc hcur
      | none =>
        have hother : ¬ ∀ q, h.Live q → h.SharesChildren q p → q = p :=
          fun hall => hno ⟨hcur, hall⟩
        push Not at hother
        obtain ⟨q, hq, hshares, hqp⟩ := hother
        exact not_agree_of_shares hacc hq hqp hshares
  | copyExtent extent =>
    obtain ⟨he, hno⟩ := Classical.not_imp.mp hc
    rw [run, copyExtentCommand, if_pos he]
    exact hh.not_agree_of_copied he hno
  | deleteExtent extent => exact absurd trivial hc
  | makeExtent => exact absurd trivial hc

/-- **When the two sides of the parent relation agree**: in a run they agree after every
command if and only if every command of it keeps them. -/
theorem links_agree_iff (l : List Command) :
    Runs.Always Command.step LinksAgree empty l ↔ Runs.StepsMeet Command.step Command.Keeps empty l :=
  Runs.always_iff_stepsMeet (fun _ (hh : Linked _) => hh.agree)
    (fun _ c hh hc => ⟨_, rfl, c.linked_run hh hc⟩)
    (fun _ c _ hh hc hrun => Option.some.inj hrun ▸ c.not_agree_run hh hc)
    linked_empty

/-- An extent that is moved from one parent to another. -/
theorem links_not_agree_moved : ¬ Runs.Always Command.step LinksAgree empty
    [.makeExtent, .makeExtent, .makeExtent, .setExtentParent 0 (some 1),
      .setExtentParent 0 (some 2)] := by
  rintro ⟨-, _, ⟨⟩, -, _, ⟨⟩, -, _, ⟨⟩, -, _, ⟨⟩, -, _, ⟨⟩, hagree⟩
  have hparent := (hagree 1 0 (by decide) (by decide)).1.mp (by decide)
  exact absurd hparent (by decide)

end XEmacs.Links
