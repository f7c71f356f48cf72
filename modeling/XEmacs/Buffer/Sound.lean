import XEmacs.Buffer.Positions

/-!
# Operations keep their buffer sound

A text is exact when its cached data is, and a member is sound when its positions are true and in
order.
-/

namespace XEmacs.Buffer

open BytePositions List Function

variable {n : Nat}

/-- A text with exact cached data and the right end. -/
structure BufferText.Exact (t : BufferText) : Prop where
  mule : t.mule.Exact t.text
  z_eq : t.z = ⟨t.text.length + 1, bytind t.text (t.text.length + 1)⟩

/-- A text and one of its buffers: what conversions need. -/
structure Family.TrueAt (f : Family n) (i : Fin n) : Prop where
  text : f.text.Exact
  member : (f.members i).True f.text.text

/-- A text and one of its buffers: what operations keep. -/
structure Family.SoundAt (f : Family n) (i : Fin n) : Prop where
  text : f.text.Exact
  member : (f.members i).Sound f.text.text

theorem Family.SoundAt.trueAt {f : Family n} {i : Fin n} (h : f.SoundAt i) : f.TrueAt i :=
  ⟨h.text, h.member.true⟩

theorem scanBytind_bytind (text : List Emchar) {x : Nat} (hx : 1 ≤ x)
    (hx' : x ≤ text.length + 1) : scanBytind text (bytind text x) = x := by
  induction text generalizing x with
  | nil =>
    rw [length_nil] at hx'
    show 1 = x
    omega
  | cons c text ih =>
    rw [length_cons] at hx'
    unfold scanBytind
    rcases Nat.lt_or_eq_of_le hx with hlt | rfl
    · obtain ⟨y, rfl⟩ : ∃ y, x = y + 2 := ⟨x - 2, by omega⟩
      have hcons : bytind (c :: text) (y + 2) = c.width + bytind text (y + 1) := by
        rw [bytind, bytind, bytePos, bytePos, show y + 2 - 1 = y + 1 by omega,
          take_succ_cons, byteLength_cons, Nat.add_sub_cancel]
        omega
      have := c.width_pos
      have : 1 ≤ bytind text (y + 1) := one_le_bytePos _ _
      rw [hcons, if_neg (by omega), Nat.add_sub_cancel_left, ih (by omega) (by omega)]
    · rw [bytind, bytePos_one, if_pos (Nat.le_refl _)]

theorem TruePos.keeps {t t' : BufferText} {p : Pos} (h : TruePos t.text p)
    (hk : Keeps t t') : TruePos t'.text p :=
  hk.text_eq ▸ h

theorem BufferText.Exact.keeps {t t' : BufferText} (h : t.Exact) (hk : Keeps t t') :
    t'.Exact :=
  ⟨hk.text_eq ▸ hk.exact_mule, by rw [hk.z_eq, hk.text_eq, h.z_eq]⟩

theorem Family.TrueAt.bufposToBytind {f : Family n} {i : Fin n} (h : f.TrueAt i) {x : Nat}
    (hx : 1 ≤ x) (hx' : x ≤ f.text.text.length + 1) :
    ∃ t, f.bufposToBytind i x = (bytind f.text.text x, { f with text := t }) ∧
      Keeps f.text t ∧
      (t.mule = f.text.mule ∨
        ¬ (x ≥ f.text.mule.min.buf ∧ x ≤ f.text.mule.max.buf) ∧
          (t.mule.min.buf = x ∨ t.mule.max.buf = x)) := by
  obtain ⟨heq, hkeeps, hedge⟩ := bufposToBytind_exact h.text.mule h.member hx hx'
  exact ⟨_, by rw [Family.bufposToBytind, ← heq], hkeeps, hedge⟩

theorem Family.TrueAt.bytindToBufpos {f : Family n} {i : Fin n} (h : f.TrueAt i) {x : Nat}
    (hx : 1 ≤ x) (hx' : x ≤ f.text.text.length + 1) :
    ∃ t, f.bytindToBufpos i (bytind f.text.text x) = (x, { f with text := t }) ∧
      Keeps f.text t := by
  obtain ⟨heq, hkeeps⟩ := bytindToBufpos_exact h.text.mule h.member hx hx'
  refine ⟨_, ?_, hkeeps⟩
  rw [Family.bytindToBufpos]
  simp only [heq]

theorem Family.TrueAt.keeps {f : Family n} {i : Fin n} (h : f.TrueAt i) {t : BufferText}
    (hk : Keeps f.text t) : ({ f with text := t } : Family n).TrueAt i :=
  ⟨h.text.keeps hk, h.member.keeps hk⟩

theorem Family.SoundAt.keeps {f : Family n} {i : Fin n} (h : f.SoundAt i) {t : BufferText}
    (hk : Keeps f.text t) : ({ f with text := t } : Family n).SoundAt i :=
  ⟨h.text.keeps hk, ⟨h.member.true.keeps hk, h.member.begv_le, h.member.le_zv⟩⟩

/-! ## Insertion -/

section Insertion

variable {f : Family n} {i : Fin n} {p : Nat}

theorem BufferPositions.Sound.clip {text : List Emchar} {buf : BufferPositions}
    (h : buf.Sound text) (x : Nat) :
    buf.begv.buf ≤ buf.clip x ∧ buf.clip x ≤ buf.zv.buf := by
  have h₁ := h.begv_le
  have h₂ := h.le_zv
  simp only [BufferPositions.clip]
  split <;> split <;> omega

theorem convertEnds_keeps : ∀ (ends : List (Fin n × Nat)) (f : Family n), f.text.Exact →
    (∀ e ∈ ends, (f.members e.1).True f.text.text) →
    ∃ t, ends.foldl Family.convertEnd f = { f with text := t } ∧ Keeps f.text t := by
  intro ends
  induction ends with
  | nil => exact fun f h _ => ⟨f.text, rfl, Keeps.refl h.mule⟩
  | cons e ends ih =>
    intro f h htrue
    obtain ⟨t, hconv, hkeeps⟩ : ∃ t, f.convertEnd e = { f with text := t } ∧
        Keeps f.text t := by
      unfold Family.convertEnd
      split
      case isTrue hx =>
        obtain ⟨t, hconv, hkeeps⟩ := Family.TrueAt.bytindToBufpos
          ⟨h, htrue e (mem_cons_self ..)⟩ hx.1 hx.2
        exact ⟨t, by rw [hconv], hkeeps⟩
      case isFalse => exact ⟨f.text, rfl, Keeps.refl h.mule⟩
    obtain ⟨t', hfold, hkeeps'⟩ := ih { f with text := t } (h.keeps hkeeps)
      fun e' he' => (htrue e' (mem_cons_of_mem _ he')).keeps hkeeps
    exact ⟨t', by rw [foldl_cons, hconv, hfold], hkeeps.trans hkeeps'⟩

/-- The extents converted during an insertion belong to buffers whose positions are
true for the changed text before `PT` is adjusted. -/
def EndsTrue (f : Family n) (p : Nat) (c : List Emchar) (ends : List (Fin n × Nat)) : Prop :=
  ∀ e ∈ ends, ((f.members e.1).moveZv (byteLength Emchar.width c) c.length).True
    (insertAt f.text.text p c)

instance (f : Family n) (p : Nat) (c : List Emchar) (ends : List (Fin n × Nat)) :
    Decidable (EndsTrue f p c ends) :=
  inferInstanceAs (Decidable (∀ e ∈ ends, _))

/-- **Insertion** up to the adjustment of point. -/
theorem insertString_spec (h : f.SoundAt i) (hlo : (f.members i).begv.buf ≤ p)
    (hhi : p ≤ (f.members i).zv.buf) (c : List Emchar) {ends : List (Fin n × Nat)}
    (hends : EndsTrue f p c ends) :
    ∃ f', insertString f i p c ends = (bytind f.text.text p, f') ∧
      f'.text.text = insertAt f.text.text p c ∧ f'.SoundAt i ∧
      (∀ j, f'.members j = (f.members j).inserted (bytind f.text.text p)
        (byteLength Emchar.width c) c.length) ∧
      (f.text.mule.InTable →
        (f.text.mule.threeP = true → f.text.mule.grownLength p c ≤ maxBufposGapSize3) →
        f'.text.mule.InTable) ∧
      (f.text.mule.InTable → ends = [] → f'.text.mule.InTable →
        f.text.mule.threeP = true → f.text.mule.grownLength p c ≤ maxBufposGapSize3) := by
  have hp : 1 ≤ p := Nat.le_trans h.member.true.begv.one_le hlo
  have hp' : p ≤ f.text.text.length + 1 := Nat.le_trans hhi h.member.true.zv.le_end
  obtain ⟨t, hconv, hkeeps, hedge⟩ := h.trueAt.bufposToBytind hp hp'
  obtain ⟨hexact, hthree, hlength⟩ := exact_signalInserted hkeeps.exact_mule hp hp' c
  -- the text between the hook and the adjustment of `PT`
  let t₁ : BufferText :=
    { t with
      text := insertAt f.text.text p c
      z := t.z.shove (byteLength Emchar.width c) c.length
      mule := muleSignalInsertedRegion (textBytes (insertAt f.text.text p c)) t.mule p
        (byteLength Emchar.width c) c.length }
  have ht₁ : t₁.Exact := by
    refine ⟨hexact, ?_⟩
    show t.z.shove _ _ = _
    rw [hkeeps.z_eq, h.text.z_eq, Pos.shove, length_insertAt]
    have hend : bytind (insertAt f.text.text p c) (f.text.text.length + 1 + c.length)
        = bytind f.text.text (f.text.text.length + 1) + byteLength Emchar.width c :=
      bytePos_insertAt_after hp hp' hp'
    rw [show f.text.text.length + c.length + 1 = f.text.text.length + 1 + c.length by omega,
      hend]
  have htable₁ : f.text.mule.InTable → (t₁.mule.InTable ↔
      (f.text.mule.threeP = true → f.text.mule.grownLength p c ≤ maxBufposGapSize3)) := by
    intro htable
    rw [show t₁.mule.InTable ↔ _ from hexact.inTable_iff, hthree, hlength]
    rcases hedge with heq | ⟨hout, hedge⟩
    · rw [heq]
    · -- the known region was moved to the position: neither grows
      have ht := hkeeps.exact_mule.inTable_iff.mp (hkeeps.inTable htable)
      have hf := h.text.mule.inTable_iff.mp htable
      rw [MuleData.grownLength, if_neg (by omega), MuleData.grownLength, if_neg (by omega)]
      exact ⟨fun _ => hf, fun _ => ht⟩
  obtain ⟨t₂, hfold, hkeeps₂⟩ := convertEnds_keeps ends
    { text := t₁
      members := fun j => (f.members j).moveZv (byteLength Emchar.width c) c.length }
    ht₁ hends
  have htext₂ : t₂.text = insertAt f.text.text p c := hkeeps₂.text_eq
  rw [insertString, hconv]
  simp only [hkeeps.text_eq, scanBytind_bytind f.text.text hp hp']
  rw [hfold]
  refine ⟨_, rfl, htext₂, ⟨ht₁.keeps hkeeps₂, ?_⟩, fun j => rfl, fun htable hlong =>
    hkeeps₂.inTable ((htable₁ htable).mpr hlong), fun htable hnil htable₂ => ?_⟩
  · rw [htext₂]
    exact h.member.inserted hlo hhi c
  · subst hnil
    refine (htable₁ htable).mp ?_
    have heq : t₂ = t₁ := (congrArg Family.text hfold).symm
    exact heq ▸ htable₂

end Insertion

/-! ## Point -/

section Point

variable {f : Family n} {i : Fin n} {x : Nat}

theorem Family.TrueAt.setBufferPoint (h : f.TrueAt i) {p : Pos}
    (hp : TruePos f.text.text p) (hlo : (f.members i).begv.buf ≤ p.buf)
    (hhi : p.buf ≤ (f.members i).zv.buf) :
    (f.setBufferPoint i p).SoundAt i ∧ (f.setBufferPoint i p).text = f.text ∧
      (f.setBufferPoint i p).members
        = Function.update f.members i { f.members i with pt := p } := by
  unfold Family.setBufferPoint
  split
  case isTrue heq =>
    have hpt : p = (f.members i).pt := hp.ext_get (c := .byt) h.member.pt heq
    refine ⟨⟨h.text, ⟨h.member, hpt ▸ hlo, hpt ▸ hhi⟩⟩, rfl, ?_⟩
    rw [hpt]
    exact (update_eq_self i f.members).symm
  case isFalse =>
    refine ⟨⟨h.text, ?_⟩, rfl, rfl⟩
    show (Function.update f.members i _ i).Sound f.text.text
    rw [update_self]
    exact ⟨⟨hp, h.member.begv, h.member.zv⟩, hlo, hhi⟩

/-- At most the positions of one member are changed. -/
structure OnlyMember (i : Fin n) (f f' : Family n) : Prop where
  text_eq : f'.text.text = f.text.text
  members : ∀ j, j ≠ i → f'.members j = f.members j

theorem OnlyMember.refl (f : Family n) : OnlyMember i f f :=
  ⟨rfl, fun _ _ => rfl⟩

theorem OnlyMember.trans {f' f'' : Family n} (h : OnlyMember i f f')
    (h' : OnlyMember i f' f'') : OnlyMember i f f'' :=
  ⟨h'.text_eq.trans h.text_eq, fun j hj => (h'.members j hj).trans (h.members j hj)⟩

/-- What setting point through a conversion leaves. -/
structure PointSet (f f' : Family n) (i : Fin n) (x : Nat) : Prop where
  sound : f'.SoundAt i
  text_eq : f'.text.text = f.text.text
  members : f'.members
    = Function.update f.members i { f.members i with pt := ⟨x, bytind f.text.text x⟩ }
  inTable : f.text.mule.InTable → f'.text.mule.InTable

theorem PointSet.only {f' : Family n} (h : PointSet f f' i x) : OnlyMember i f f' :=
  ⟨h.text_eq, fun j hj => by rw [h.members, update_of_ne hj]⟩

theorem Family.TrueAt.bufSetPt (h : f.TrueAt i) (hlo : (f.members i).begv.buf ≤ x)
    (hhi : x ≤ (f.members i).zv.buf) : PointSet f (f.bufSetPt i x) i x := by
  have hx : 1 ≤ x := Nat.le_trans h.member.begv.one_le hlo
  have hx' : x ≤ f.text.text.length + 1 := Nat.le_trans hhi h.member.zv.le_end
  obtain ⟨t, hconv, hkeeps, -⟩ := h.bufposToBytind hx hx'
  have hp : TruePos t.text ⟨x, bytind f.text.text x⟩ := ⟨hx, hkeeps.text_eq ▸ hx', by
    rw [hkeeps.text_eq]⟩
  obtain ⟨hsound, htext, hmembers⟩ := (h.keeps hkeeps).setBufferPoint hp hlo hhi
  rw [Family.bufSetPt, hconv]
  exact ⟨hsound, (congrArg BufferText.text htext).trans hkeeps.text_eq, hmembers,
    fun ht => by rw [htext]; exact hkeeps.inTable ht⟩

theorem Family.TrueAt.biBufSetPt (h : f.TrueAt i) (hlo : (f.members i).begv.buf ≤ x)
    (hhi : x ≤ (f.members i).zv.buf) :
    PointSet f (f.biBufSetPt i (bytind f.text.text x)) i x := by
  have hx : 1 ≤ x := Nat.le_trans h.member.begv.one_le hlo
  have hx' : x ≤ f.text.text.length + 1 := Nat.le_trans hhi h.member.zv.le_end
  obtain ⟨t, hconv, hkeeps⟩ := h.bytindToBufpos hx hx'
  have hp : TruePos t.text ⟨x, bytind f.text.text x⟩ := ⟨hx, hkeeps.text_eq ▸ hx', by
    rw [hkeeps.text_eq]⟩
  obtain ⟨hsound, htext, hmembers⟩ := (h.keeps hkeeps).setBufferPoint hp hlo hhi
  rw [Family.biBufSetPt, hconv]
  exact ⟨hsound, (congrArg BufferText.text htext).trans hkeeps.text_eq, hmembers,
    fun ht => by rw [htext]; exact hkeeps.inTable ht⟩

end Point

/-! ## Deletion -/

section Deletion

variable {f : Family n} {i : Fin n} {a b : Nat}

/-- **Deletion**. -/
theorem bufferDeleteRange_spec (h : f.SoundAt i) (hab : a < b)
    (hlo : (f.members i).begv.buf ≤ a) (hhi : b ≤ (f.members i).zv.buf) :
    (bufferDeleteRange f i a b).text.text = deleteRange f.text.text a b ∧
      (bufferDeleteRange f i a b).SoundAt i ∧
      (∀ j, (bufferDeleteRange f i a b).members j
        = (f.members j).deleted ⟨a, bytind f.text.text a⟩ ⟨b, bytind f.text.text b⟩) ∧
      (f.text.mule.InTable → (bufferDeleteRange f i a b).text.mule.InTable) := by
  have ha : 1 ≤ a := Nat.le_trans h.member.true.begv.one_le hlo
  have hb : b ≤ f.text.text.length + 1 := Nat.le_trans hhi h.member.true.zv.le_end
  obtain ⟨t, hconv, hkeeps, -⟩ := h.trueAt.bufposToBytind ha (show a ≤ _ by omega)
  have htext : ({ f with text := t } : Family n).text.text = f.text.text := hkeeps.text_eq
  obtain ⟨t', hconv', hkeeps', -⟩ := (h.keeps hkeeps).trueAt.bufposToBytind
    (show 1 ≤ b by omega) (by rw [htext]; exact hb)
  rw [htext] at hconv'
  have hk := hkeeps.trans hkeeps'
  obtain ⟨hexact, hthree, hlength⟩ := exact_signalDeleted hk.exact_mule ha hab hb
  have heq : bufferDeleteRange f i a b =
      { text := { t' with
          text := deleteRange f.text.text a b
          z := ⟨t'.z.buf - (b - a), t'.z.byt - (bytind f.text.text b - bytind f.text.text a)⟩
          mule := muleSignalDeletedRegion t'.mule ⟨a, bytind f.text.text a⟩
            ⟨b, bytind f.text.text b⟩ }
        members := fun j =>
          (f.members j).deleted ⟨a, bytind f.text.text a⟩ ⟨b, bytind f.text.text b⟩ } := by
    unfold bufferDeleteRange
    rw [if_neg (show ¬ a < (f.members i).begv.buf by omega),
      if_neg (show ¬ b > (f.members i).zv.buf by omega), if_neg (show ¬ b ≤ a by omega)]
    simp only [hconv, hconv', hk.text_eq, scanBytind_bytind f.text.text ha (show a ≤ _ by omega),
      scanBytind_bytind f.text.text (show 1 ≤ b by omega) hb]
  rw [heq]
  refine ⟨rfl, ⟨⟨hexact, ?_⟩, h.member.deleted hab hlo hhi⟩, fun j => rfl, fun htable => ?_⟩
  · show (⟨t'.z.buf - (b - a), t'.z.byt - _⟩ : Pos) = _
    have hz := h.text.z_eq
    have hend : bytind (deleteRange f.text.text a b) (f.text.text.length + 1 - (b - a))
        + (bytind f.text.text b - bytind f.text.text a)
        = bytind f.text.text (f.text.text.length + 1) :=
      bytePos_deleteRange_after ha (Nat.le_of_lt hab) hb hb
    rw [hk.z_eq, hz, length_deleteRange ha (Nat.le_of_lt hab) hb,
      show f.text.text.length - (b - a) + 1 = f.text.text.length + 1 - (b - a) by omega]
    simp only [Pos.mk.injEq, true_and]
    omega
  · show MuleData.InTable (muleSignalDeletedRegion t'.mule _ _)
    rw [hexact.inTable_iff, hthree]
    intro hthree'
    have := hk.exact_mule.inTable_iff.mp (hk.inTable htable) hthree'
    omega

end Deletion

/-! ## Operations -/

section Operations

variable {f : Family n} {i : Fin n}

theorem bufferInsertString1_spec (h : f.SoundAt i) (pos : Option Nat) (c : List Emchar)
    {ends : List (Fin n × Nat)} {p : Nat}
    (hclip : (f.members i).clip (pos.getD (f.members i).pt.buf) = p)
    (hends : EndsTrue f p c ends) :
    ∃ f', f'.text.text = insertAt f.text.text p c ∧
      (∀ j, f'.members j = (f.members j).inserted (bytind f.text.text p)
        (byteLength Emchar.width c) c.length) ∧
      OnlyMember i f' (bufferInsertString1 f i pos c ends) ∧
      (bufferInsertString1 f i pos c ends).SoundAt i := by
  obtain ⟨hlo, hhi⟩ := h.member.clip (pos.getD (f.members i).pt.buf)
  rw [hclip] at hlo hhi
  obtain ⟨f', heq, htext, hsound, hmembers, -⟩ := insertString_spec h hlo hhi c hends
  refine ⟨f', htext, hmembers, ?_⟩
  unfold bufferInsertString1
  rw [hclip, heq]
  simp only
  split
  case isTrue =>
    have hp : 1 ≤ p := Nat.le_trans h.member.true.begv.one_le hlo
    have hp' : p ≤ f.text.text.length + 1 := Nat.le_trans hhi h.member.true.zv.le_end
    have hend : bytind f.text.text p + byteLength Emchar.width c
        = bytind f'.text.text (p + c.length) := by
      rw [htext]
      exact (bytePos_insertAt_after hp hp' (Nat.le_refl _)).symm
    have hset : PointSet f' _ i (p + c.length) := hsound.trueAt.biBufSetPt
      (by rw [hmembers i]
          show (f.members i).begv.buf ≤ p + c.length
          omega)
      (by rw [hmembers i]
          exact Nat.add_le_add_right hhi _)
    rw [hend]
    exact ⟨hset.only, hset.sound⟩
  case isFalse => exact ⟨OnlyMember.refl f', hsound⟩

theorem bufferDeleteRange_clip (f : Family n) (i : Fin n) (start stop : Nat) :
    let a := max start (f.members i).begv.buf
    let b := min stop (f.members i).zv.buf
    (b ≤ a ∧ bufferDeleteRange f i start stop = f) ∨
      (a < b ∧ bufferDeleteRange f i start stop = bufferDeleteRange f i a b) := by
  have hstart : (if start < (f.members i).begv.buf then (f.members i).begv.buf else start)
      = max start (f.members i).begv.buf := by
    split <;> omega
  have hstop : (if stop > (f.members i).zv.buf then (f.members i).zv.buf else stop)
      = min stop (f.members i).zv.buf := by
    split <;> omega
  rcases Nat.lt_or_ge (max start (f.members i).begv.buf) (min stop (f.members i).zv.buf)
    with hlt | hle
  · right
    refine ⟨hlt, ?_⟩
    conv_lhs => unfold bufferDeleteRange
    conv_rhs => unfold bufferDeleteRange
    rw [hstart, hstop, if_neg (show ¬ max start (f.members i).begv.buf
        < (f.members i).begv.buf by omega),
      if_neg (show ¬ min stop (f.members i).zv.buf > (f.members i).zv.buf by omega)]
  · left
    refine ⟨hle, ?_⟩
    unfold bufferDeleteRange
    rw [hstart, hstop, if_pos hle]

theorem bufferDeleteRange_sound (h : f.SoundAt i) (start stop : Nat) :
    (bufferDeleteRange f i start stop).SoundAt i := by
  rcases bufferDeleteRange_clip f i start stop with ⟨-, heq⟩ | ⟨hab, heq⟩
  · rw [heq]
    exact h
  · rw [heq]
    exact (bufferDeleteRange_spec h hab (Nat.le_max_right ..) (Nat.min_le_right ..)).2.1

theorem gotoChar_sound (h : f.SoundAt i) (x : Nat) :
    (gotoChar f i x).SoundAt i ∧ OnlyMember i f (gotoChar f i x) := by
  have hbegv := h.member.begv_le
  have hzv := h.member.le_zv
  have hset : ∀ y, (f.members i).begv.buf ≤ y → y ≤ (f.members i).zv.buf →
      (f.bufSetPt i y).SoundAt i ∧ OnlyMember i f (f.bufSetPt i y) :=
    fun y hlo hhi => ⟨(h.trueAt.bufSetPt hlo hhi).sound, (h.trueAt.bufSetPt hlo hhi).only⟩
  refine hset _ ?_ ?_
  · split
    · exact Nat.le_refl _
    · split <;> omega
  · split
    · omega
    · split <;> omega

theorem Family.TrueAt.movePoint (h : f.TrueAt i) {start stop : Nat}
    (hbegv : (f.members i).begv.buf = start) (hzv : (f.members i).zv.buf = stop)
    (hle : start ≤ stop) :
    let f₁ := if (f.members i).pt.buf < start then f.bufSetPt i start else f
    let f₂ := if (f₁.members i).pt.buf > stop then f₁.bufSetPt i stop else f₁
    f₂.SoundAt i ∧ OnlyMember i f f₂ := by
  have hend : ∀ f₁ : Family n, f₁.TrueAt i → OnlyMember i f f₁ →
      (f₁.members i).begv.buf = start → (f₁.members i).zv.buf = stop →
      start ≤ (f₁.members i).pt.buf →
      let f₂ := if (f₁.members i).pt.buf > stop then f₁.bufSetPt i stop else f₁
      f₂.SoundAt i ∧ OnlyMember i f f₂ := by
    intro f₁ h₁ honly hbegv₁ hzv₁ hpt₁
    simp only
    split
    · have hset := h₁.bufSetPt (x := stop) (by omega) (by omega)
      exact ⟨hset.sound, honly.trans hset.only⟩
    · exact ⟨⟨h₁.text, ⟨h₁.member, by omega, by omega⟩⟩, honly⟩
  simp only
  split
  case isTrue hlt =>
    have hset := h.bufSetPt (x := start) (by omega) (by omega)
    refine hend _ hset.sound.trueAt hset.only ?_ ?_ ?_
    · rw [hset.members, update_self]
      exact hbegv
    · rw [hset.members, update_self]
      exact hzv
    · refine Nat.le_of_eq ?_
      rw [hset.members, update_self]
  case isFalse hge => exact hend f h (OnlyMember.refl f) hbegv hzv (by omega)

theorem narrowToRegion_sound (h : f.SoundAt i) (start stop : Nat) :
    (narrowToRegion f i start stop).SoundAt i ∧
      OnlyMember i f (narrowToRegion f i start stop) := by
  unfold narrowToRegion
  split
  case isFalse => exact ⟨h, OnlyMember.refl f⟩
  case isTrue hrange =>
    obtain ⟨hstart, hle, hstop⟩ := hrange
    rw [h.text.z_eq] at hstop
    have hstop : stop ≤ f.text.text.length + 1 := hstop
    obtain ⟨t, hconv, hkeeps, -⟩ := h.trueAt.bufposToBytind hstart (show start ≤ _ by omega)
    have htext : ({ f with text := t } : Family n).text.text = f.text.text := hkeeps.text_eq
    obtain ⟨t', hconv', hkeeps', -⟩ := (h.keeps hkeeps).trueAt.bufposToBytind
      (show 1 ≤ stop by omega) (by rw [htext]; exact hstop)
    have hk := hkeeps.trans hkeeps'
    rw [htext] at hconv'
    simp only [hconv, hconv']
    let f₂ : Family n :=
      { text := t'
        members := Function.update f.members i
          { f.members i with
            begv := ⟨start, bytind f.text.text start⟩
            zv := ⟨stop, bytind f.text.text stop⟩ } }
    have hmember : f₂.members i = { f.members i with
        begv := ⟨start, bytind f.text.text start⟩
        zv := ⟨stop, bytind f.text.text stop⟩ } := update_self ..
    have honly : OnlyMember i f f₂ :=
      ⟨hk.text_eq, fun j hj => update_of_ne hj _ _⟩
    have htrue : f₂.TrueAt i := by
      refine ⟨h.text.keeps hk, ?_⟩
      have hstarttrue : TruePos f.text.text ⟨start, bytind f.text.text start⟩ :=
        ⟨hstart, Nat.le_trans hle hstop, rfl⟩
      have hstoptrue : TruePos f.text.text ⟨stop, bytind f.text.text stop⟩ :=
        ⟨Nat.le_trans hstart hle, hstop, rfl⟩
      rw [hmember]
      exact ⟨h.member.true.pt.keeps hk, hstarttrue.keeps hk, hstoptrue.keeps hk⟩
    obtain ⟨hsound, honly'⟩ := htrue.movePoint (by rw [hmember]) (by rw [hmember]) hle
    exact ⟨hsound, honly.trans honly'⟩

theorem widenBuffer_sound (h : f.SoundAt i) :
    (widenBuffer f i).SoundAt i ∧ OnlyMember i f (widenBuffer f i) := by
  have hpt := h.member.true.pt
  refine ⟨⟨h.text, ?_⟩, rfl, fun j hj => update_of_ne hj _ _⟩
  show (Function.update f.members i _ i).Sound f.text.text
  rw [update_self, h.text.z_eq]
  exact ⟨⟨hpt, ⟨Nat.le_refl 1, Nat.le_add_left _ _, (bytePos_one _).symm⟩,
    ⟨Nat.le_add_left _ _, Nat.le_refl _, rfl⟩⟩, hpt.one_le, hpt.le_end⟩

theorem run_bufposToBytind_sound (h : f.SoundAt i) (x : Nat) :
    ((BufferOp.bufposToBytind x).run i f).SoundAt i ∧
      OnlyMember i f ((BufferOp.bufposToBytind x).run i f) := by
  simp only [BufferOp.run]
  split
  case isTrue hx =>
    obtain ⟨t, hconv, hkeeps, -⟩ := h.trueAt.bufposToBytind hx.1 hx.2
    rw [hconv]
    exact ⟨h.keeps hkeeps, hkeeps.text_eq, fun _ _ => rfl⟩
  case isFalse => exact ⟨h, OnlyMember.refl f⟩

theorem run_bytindToBufpos_sound (h : f.SoundAt i) (x : Nat) :
    ((BufferOp.bytindToBufpos x).run i f).SoundAt i ∧
      OnlyMember i f ((BufferOp.bytindToBufpos x).run i f) := by
  simp only [BufferOp.run]
  split
  case isTrue hx =>
    obtain ⟨t, hconv, hkeeps⟩ := h.trueAt.bytindToBufpos hx.1 hx.2
    rw [hconv]
    exact ⟨h.keeps hkeeps, hkeeps.text_eq, fun _ _ => rfl⟩
  case isFalse => exact ⟨h, OnlyMember.refl f⟩

theorem TruePos.congr {text text' : List Emchar} {p : Pos} (h : TruePos text p)
    (hw : text'.map Emchar.width = text.map Emchar.width) : TruePos text' p := by
  have hlen : text'.length = text.length := by
    have := congrArg List.length hw
    simpa using this
  refine ⟨h.one_le, hlen ▸ h.le_end, h.byt_eq.trans ?_⟩
  exact (bytePos_congr hw p.buf).symm

theorem BufferPositions.Sound.congr {text text' : List Emchar} {buf : BufferPositions}
    (h : buf.Sound text) (hw : text'.map Emchar.width = text.map Emchar.width) :
    buf.Sound text' :=
  ⟨⟨h.true.pt.congr hw, h.true.begv.congr hw, h.true.zv.congr hw⟩, h.begv_le, h.le_zv⟩

theorem Family.SoundAt.setText (h : f.SoundAt i) {text' : List Emchar}
    (hw : text'.map Emchar.width = f.text.text.map Emchar.width) :
    ({ f with text := { f.text with text := text' } } : Family n).SoundAt i := by
  have hlen : text'.length = f.text.text.length := by
    have := congrArg List.length hw
    simpa using this
  have hbytind : ∀ x, bytind text' x = bytind f.text.text x := bytePos_congr hw
  have hknown := h.text.mule.known
  refine ⟨⟨⟨⟨hknown.min_true.congr hw, hknown.max_true.congr hw, hknown.min_le,
    fun x hx hx' => ?_, hknown.one_le_size, hknown.size_le⟩, h.text.mule.shifter_three,
    fun j => (h.text.mule.cache_true j).congr hw⟩, ?_⟩, h.member.congr hw⟩
  · rw [bytePos_congr hw, bytePos_congr hw]
    exact hknown.uniform x hx hx'
  · show f.text.z = ⟨text'.length + 1, bytind text' (text'.length + 1)⟩
    rw [hlen, hbytind, h.text.z_eq]

theorem bufferReplaceChar_sound (h : f.SoundAt i) {pos : Nat}
    (hlo : (f.members i).begv.buf ≤ pos) (hhi : pos < (f.members i).zv.buf) (ch : Emchar) :
    (bufferReplaceChar f i pos ch).SoundAt i ∧
      (bufferReplaceChar f i pos ch).text.text.map Emchar.width
        = f.text.text.map Emchar.width ∧
      (bufferReplaceChar f i pos ch).members = f.members := by
  have hpos : 1 ≤ pos := Nat.le_trans h.member.true.begv.one_le hlo
  have hpos' : pos ≤ f.text.text.length + 1 :=
    Nat.le_trans (Nat.le_of_lt hhi) h.member.true.zv.le_end
  obtain ⟨t, hconv, hkeeps, -⟩ := h.trueAt.bufposToBytind hpos hpos'
  have htext : ({ f with text := t } : Family n).text.text = f.text.text := hkeeps.text_eq
  have hsound := h.keeps hkeeps
  obtain ⟨t', hconv', hkeeps', -⟩ := hsound.trueAt.bufposToBytind hpos (by
    rw [htext]; exact hpos')
  rw [htext] at hconv'
  have hsame : t.text.map Emchar.width = f.text.text.map Emchar.width := by
    rw [hkeeps.text_eq]
  unfold bufferReplaceChar
  simp only [hconv, hconv', hkeeps.text_eq, hkeeps'.text_eq, scanBytind_bytind _ hpos hpos']
  split
  case h_1 => exact ⟨hsound, hsame, rfl⟩
  case h_2 cur hcur =>
    split
    case isTrue hw =>
      have hwidths : (f.text.text.set (pos - 1) ch).map Emchar.width
          = f.text.text.map Emchar.width := map_set_of_eq hcur hw
      refine ⟨(hsound.keeps hkeeps').setText ?_, hwidths, rfl⟩
      show (f.text.text.set (pos - 1) ch).map _ = t'.text.map _
      rw [hkeeps'.text_eq, htext]
      exact hwidths
    case isFalse => exact ⟨hsound, hsame, rfl⟩

/-- An insertion does not convert the endpoint of an extent in a buffer whose `PT` is
out of step with the changed text. -/
def BufferOp.InStep (i : Fin n) (f : Family n) : BufferOp n → Prop
  | insert pos c ends =>
    EndsTrue f ((f.members i).clip (pos.getD (f.members i).pt.buf)) c ends
  | _ => True

instance (i : Fin n) (f : Family n) : (op : BufferOp n) → Decidable (op.InStep i f)
  | .insert .. => inferInstanceAs (Decidable (EndsTrue ..))
  | .delete .. | .replaceChar .. | .gotoChar _ | .narrow .. | .widen | .bufposToBytind _
  | .bytindToBufpos _ | .convertedElsewhere => inferInstanceAs (Decidable True)

/-- **Every operation keeps its buffer sound.** -/
theorem BufferOp.run_sound (h : f.SoundAt i) (op : BufferOp n) (hop : op.InStep i f) :
    (op.run i f).SoundAt i := by
  cases op with
  | insert pos c ends =>
    obtain ⟨-, -, -, -, hsound⟩ := bufferInsertString1_spec h pos c rfl hop
    exact hsound
  | delete start stop => exact bufferDeleteRange_sound h start stop
  | replaceChar pos ch =>
    simp only [BufferOp.run]
    split
    case isTrue hpos => exact (bufferReplaceChar_sound h hpos.1 hpos.2 ch).1
    case isFalse => exact h
  | gotoChar x => exact (gotoChar_sound h x).1
  | narrow start stop => exact (narrowToRegion_sound h start stop).1
  | widen => exact (widenBuffer_sound h).1
  | bufposToBytind x => exact (run_bufposToBytind_sound h x).1
  | bytindToBufpos x => exact (run_bytindToBufpos_sound h x).1
  | convertedElsewhere =>
    exact ⟨⟨h.text.mule, h.text.z_eq⟩, h.member⟩

end Operations

theorem initBufferText_sound (i : Fin n) : (initBufferText n).SoundAt i := by
  have hone : TruePos [] ⟨1, 1⟩ := ⟨Nat.le_refl 1, Nat.le_refl 1, rfl⟩
  have hknown : (initMuleData.region).Known [] :=
    ⟨hone, hone, Nat.le_refl 1, uniform_self _ _ _, by decide, by decide⟩
  exact ⟨⟨⟨hknown, fun h => (Bool.false_ne_true h).elim, fun _ => hone⟩, rfl⟩,
    ⟨hone, hone, hone⟩, Nat.le_refl 1, Nat.le_refl 1⟩

end XEmacs.Buffer
