import XEmacs.Buffer.Exact

/-!
# The hooks keep the data exact

`buffer_mule_signal_inserted_region` and `buffer_mule_signal_deleted_region`, run after the text
was changed, leave data that is exact for the changed text. Only an insertion strictly inside the
known region makes it longer.
-/

namespace XEmacs.Buffer

open BytePositions List

/-! ## Positions in the changed text -/

section Positions

variable {text : List Emchar} {p : Nat} {c : List Emchar} {q : Pos} {a b : Nat}

theorem TruePos.insert_before (hq : TruePos text q) (hp : p ≤ text.length + 1)
    (h : q.buf ≤ p) : TruePos (insertAt text p c) q := by
  refine ⟨hq.one_le, ?_, ?_⟩
  · have := hq.le_end
    rw [length_insertAt]
    omega
  · rw [hq.byt_eq]
    exact (bytePos_insertAt_before hp h).symm

theorem TruePos.insert_after (hq : TruePos text q) (hp : 1 ≤ p) (hp' : p ≤ text.length + 1)
    (h : p ≤ q.buf) :
    TruePos (insertAt text p c) (q.shove (byteLength Emchar.width c) c.length) := by
  refine ⟨?_, ?_, ?_⟩
  · show 1 ≤ q.buf + c.length
    have := hq.one_le
    omega
  · show q.buf + c.length ≤ _
    have := hq.le_end
    rw [length_insertAt]
    omega
  · show q.byt + _ = _
    rw [hq.byt_eq]
    exact (bytePos_insertAt_after hp hp' h).symm

/-- A position pulled back by a deletion before it. -/
def Pos.pull (p start stop : Pos) : Pos :=
  ⟨p.buf - (stop.buf - start.buf), p.byt - (stop.byt - start.byt)⟩

theorem TruePos.delete_before (hq : TruePos text q) (ha : 1 ≤ a) (hab : a ≤ b)
    (hb : b ≤ text.length + 1) (h : q.buf ≤ a) : TruePos (deleteRange text a b) q := by
  refine ⟨hq.one_le, ?_, ?_⟩
  · rw [length_deleteRange ha hab hb]
    omega
  · rw [hq.byt_eq]
    exact (bytePos_deleteRange_before (by omega) h).symm

theorem TruePos.delete_after (hq : TruePos text q) (ha : 1 ≤ a) (hab : a ≤ b)
    (hb : b ≤ text.length + 1) (h : b ≤ q.buf) :
    TruePos (deleteRange text a b) (q.pull ⟨a, bytind text a⟩ ⟨b, bytind text b⟩) := by
  have hend := hq.le_end
  refine ⟨?_, ?_, ?_⟩
  · show 1 ≤ q.buf - (b - a)
    omega
  · show q.buf - (b - a) ≤ _
    rw [length_deleteRange ha hab hb]
    omega
  · have hafter : bytind (deleteRange text a b) (q.buf - (b - a))
        + (bytind text b - bytind text a) = bytind text q.buf :=
      bytePos_deleteRange_after ha hab hb h
    show q.byt - (bytind text b - bytind text a)
      = bytind (deleteRange text a b) (q.buf - (b - a))
    rw [hq.byt_eq]
    omega

end Positions

/-! ## Insertion -/

/-- The inserted characters of the known region's width that the hook keeps when the
front of the region is the longer part, and when the back is. -/
def leading (size : Nat) (c : List Emchar) : Nat :=
  (c.takeWhile fun ch => ch.width = size).length

def trailing (size : Nat) (c : List Emchar) : Nat := leading size c.reverse

/-- The length of the known region after an insertion of `c` at `start`. -/
def MuleData.grownLength (m : MuleData) (start : Nat) (c : List Emchar) : Nat :=
  if m.min.buf < start ∧ start < m.max.buf then
    if leading m.size c = c.length then m.max.buf - m.min.buf + c.length
    else if start - m.min.buf > m.max.buf - start then
      start - m.min.buf + leading m.size c
    else m.max.buf - start + trailing m.size c
  else m.max.buf - m.min.buf

section Match

variable {text : List Emchar} {size : Nat}

theorem leading_cons (ch : Emchar) (c : List Emchar) :
    leading size (ch :: c) = if ch.width = size then leading size c + 1 else 0 := by
  unfold leading
  rw [takeWhile_cons]
  by_cases h : ch.width = size
  · simp [h]
  · simp [h]

theorem leading_le (size : Nat) (c : List Emchar) : leading size c ≤ c.length :=
  (takeWhile_sublist _).length_le

theorem trailing_eq_length_iff (size : Nat) (c : List Emchar) :
    trailing size c = c.length ↔ leading size c = c.length := by
  have hall : ∀ l : List Emchar, leading size l = l.length ↔ ∀ ch ∈ l, ch.width = size := by
    intro l
    induction l with
    | nil => simp [leading]
    | cons ch l ih =>
      rw [leading_cons, forall_mem_cons, length_cons, ← ih]
      split <;> simp [*]
  rw [trailing, ← @length_reverse _ c, hall, length_reverse, hall]
  simp

variable (text size) in
theorem matchForward_spec : ∀ (c : List Emchar) (x : Nat), 1 ≤ x →
    (∀ i (hi : i < c.length), text[x + i - 1]? = some (getElem c i hi)) →
    matchForward (textBytes text) size c.length ⟨x, bytind text x⟩
        = ⟨x + leading size c, bytind text (x + leading size c)⟩ ∧
      Uniform Emchar.width text x (x + leading size c) size := by
  intro c
  induction c with
  | nil => exact fun x _ _ => ⟨rfl, uniform_self _ _ _⟩
  | cons ch c ih =>
    intro x hx hget
    have hch : text[x - 1]? = some ch := hget 0 (Nat.zero_lt_succ _)
    have hlen : x ≤ text.length := by
      have := (List.getElem?_eq_some_iff.mp hch).1
      omega
    have hstep : bytind text (x + 1) = bytind text x + ch.width := bytePos_succ hx hch
    rw [length_cons, matchForward, leading_cons]
    simp only [incBytind_bytePos hx hlen]
    have hdiff : bytind text (x + 1) - bytind text x = ch.width := by omega
    rw [hdiff]
    by_cases hw : ch.width = size
    · have htail := ih (x + 1) (by omega) fun i hi => by
        have := hget (i + 1) (Nat.succ_lt_succ hi)
        rw [show x + (i + 1) - 1 = x + 1 + i - 1 by omega] at this
        exact this
      rw [if_neg (not_not.mpr hw), if_pos hw, htail.1]
      refine ⟨by rw [show x + 1 + leading size c = x + (leading size c + 1) by omega], ?_⟩
      have hone : Uniform Emchar.width text x (x + 1) size :=
        (uniform_self _ _ _).succ (hw ▸ hstep)
      have := hone.trans htail.2
      rwa [show x + 1 + leading size c = x + (leading size c + 1) by omega] at this
    · rw [if_pos hw, if_neg hw]
      exact ⟨rfl, uniform_self _ _ _⟩

variable (text size) in
theorem matchBackward_spec : ∀ (c : List Emchar) (x : Nat), c.length ≤ x - 1 →
    (∀ i (hi : i < c.length), text[x - 2 - i]? = some (getElem c i hi)) →
    matchBackward (textBytes text) size c.length ⟨x, bytind text x⟩
        = ⟨x - leading size c, bytind text (x - leading size c)⟩ ∧
      Uniform Emchar.width text (x - leading size c) x size := by
  intro c
  induction c with
  | nil => exact fun x _ _ => ⟨rfl, uniform_self _ _ _⟩
  | cons ch c ih =>
    intro x hx hget
    rw [length_cons] at hx
    obtain ⟨y, rfl⟩ : ∃ y, x = y + 1 := ⟨x - 1, by omega⟩
    have hch : text[y - 1]? = some ch := by
      have := hget 0 (Nat.zero_lt_succ _)
      rw [show y + 1 - 2 - 0 = y - 1 by omega] at this
      exact this
    have hy : 1 ≤ y := by omega
    have hlen : y ≤ text.length := by
      have := (List.getElem?_eq_some_iff.mp hch).1
      omega
    have hstep : bytind text (y + 1) = bytind text y + ch.width := bytePos_succ hy hch
    rw [length_cons, matchBackward, leading_cons]
    simp only [decBytind_bytePos hy hlen]
    have hdiff : bytind text (y + 1) - bytind text y = ch.width := by omega
    rw [hdiff]
    by_cases hw : ch.width = size
    · have htail := ih y (by omega) fun i hi => by
        have := hget (i + 1) (Nat.succ_lt_succ hi)
        rw [show y + 1 - 2 - (i + 1) = y - 2 - i by omega] at this
        exact this
      rw [if_neg (not_not.mpr hw), if_pos hw, Nat.add_sub_cancel, htail.1]
      have hsub : y - leading size c = y + 1 - (leading size c + 1) := by omega
      refine ⟨by rw [hsub], ?_⟩
      have hone : Uniform Emchar.width text y (y + 1) size :=
        (uniform_self _ _ _).succ (hw ▸ hstep)
      have := htail.2.trans hone
      rwa [hsub] at this
    · rw [if_pos hw, if_neg hw]
      exact ⟨rfl, uniform_self _ _ _⟩

end Match

theorem MuleData.Exact.move {text text' : List Emchar} {m : MuleData} (h : m.Exact text)
    {cache : Fin 16 → Pos} {min max : Pos} (hcache : ∀ i, TruePos text' (cache i))
    (hmin : TruePos text' min) (hmax : TruePos text' max) (hle : min.buf ≤ max.buf)
    (huniform : Uniform Emchar.width text' min.buf max.buf m.size) :
    ({ m with min := min, max := max, cache := cache } : MuleData).Exact text' :=
  { known :=
      { min_true := hmin
        max_true := hmax
        min_le := hle
        uniform := huniform
        one_le_size := h.known.one_le_size
        size_le := h.known.size_le }
    shifter_three := h.shifter_three
    cache_true := hcache }

/-- **The insertion hook** leaves exact data, with a known region of length
`grownLength`. -/
theorem exact_signalInserted {text : List Emchar} {m : MuleData} (h : m.Exact text)
    {p : Nat} (hp : 1 ≤ p) (hp' : p ≤ text.length + 1) (c : List Emchar) :
    (muleSignalInsertedRegion (textBytes (insertAt text p c)) m p
        (byteLength Emchar.width c) c.length).Exact (insertAt text p c) ∧
      (muleSignalInsertedRegion (textBytes (insertAt text p c)) m p
        (byteLength Emchar.width c) c.length).threeP = m.threeP ∧
      (muleSignalInsertedRegion (textBytes (insertAt text p c)) m p
        (byteLength Emchar.width c) c.length).max.buf -
      (muleSignalInsertedRegion (textBytes (insertAt text p c)) m p
        (byteLength Emchar.width c) c.length).min.buf = m.grownLength p c := by
  have hmin : TruePos text m.min := h.known.min_true
  have hmax : TruePos text m.max := h.known.max_true
  have hle : m.min.buf ≤ m.max.buf := h.known.min_le
  have huni : Uniform Emchar.width text m.min.buf m.max.buf m.size := h.known.uniform
  have hcache : ∀ i, TruePos (insertAt text p c)
      (if (m.cache i).buf > p then
        (m.cache i).shove (byteLength Emchar.width c) c.length else m.cache i) := by
    intro i
    split
    · exact (h.cache_true i).insert_after hp hp' (by omega)
    · exact (h.cache_true i).insert_before hp' (by omega)
  unfold muleSignalInsertedRegion
  simp only
  by_cases hafter : p ≥ m.max.buf
  · -- behind the known region
    rw [if_pos hafter]
    refine ⟨h.move hcache (hmin.insert_before hp' (by omega)) (hmax.insert_before hp' hafter)
      hle (huni.insertAt_before hp' hafter), rfl, ?_⟩
    rw [MuleData.grownLength, if_neg (by omega)]
  rw [if_neg hafter]
  by_cases hbefore : p ≤ m.min.buf
  · -- before the known region
    rw [if_pos hbefore]
    refine ⟨h.move hcache (hmin.insert_after hp hp' hbefore)
      (hmax.insert_after hp hp' (by omega)) (Nat.add_le_add_right hle _)
      (huni.insertAt_after hp hp' hbefore), rfl, ?_⟩
    rw [MuleData.grownLength, if_neg (by omega)]
    show m.max.buf + c.length - (m.min.buf + c.length) = _
    omega
  rw [if_neg hbefore]
  -- inside: the two halves of the region in the changed text
  have hfront : Uniform Emchar.width (insertAt text p c) m.min.buf p m.size :=
    (huni.mono (Nat.le_refl _) (by omega)).insertAt_before hp' (Nat.le_refl _)
  have hback : Uniform Emchar.width (insertAt text p c) (p + c.length)
      (m.max.buf + c.length) m.size :=
    (huni.mono (by omega) (Nat.le_refl _)).insertAt_after hp hp' (Nat.le_refl _)
  have hmax' := hmax.insert_after (c := c) hp hp' (by omega)
  have hmin' := hmin.insert_before (c := c) hp' (by omega)
  have hstart : bytind (insertAt text p c) p = m.min.byt + m.size * (p - m.min.buf) := by
    rw [← h.bytind_eq (by omega) (by omega)]
    exact bytePos_insertAt_before hp' (Nat.le_refl _)
  have hlead := leading_le m.size c
  have htrail : trailing m.size c ≤ c.length :=
    Nat.le_trans (leading_le m.size c.reverse) (Nat.le_of_eq length_reverse)
  have hall := trailing_eq_length_iff m.size c
  have hinside : m.min.buf < p ∧ p < m.max.buf := by omega
  rw [MuleData.grownLength, if_pos hinside]
  by_cases hlong : p - m.min.buf > m.max.buf - p
  · -- the front is longer
    rw [if_pos hlong, if_pos hlong]
    obtain ⟨hmatch, hmid⟩ := matchForward_spec (insertAt text p c) m.size c p
      hp (fun i hi => getElem?_insertAt_inside hp hp' hi)
    rw [hstart] at hmatch
    rw [show ({ m with cache := _ } : MuleData).size = m.size from rfl, hmatch]
    by_cases hfull : leading m.size c = c.length
    · rw [if_neg (by simp [hfull]), if_pos hfull]
      rw [hfull] at hmid
      refine ⟨h.move hcache hmin' hmax' ?_ ((hfront.trans hmid).trans hback), rfl, ?_⟩
      · show m.min.buf ≤ m.max.buf + c.length
        omega
      · show m.max.buf + c.length - m.min.buf = _
        omega
    · rw [if_pos (by simpa using hfull), if_neg hfull]
      refine ⟨h.move hcache hmin' ⟨?_, ?_, rfl⟩ ?_ (hfront.trans hmid), rfl, ?_⟩
      · show 1 ≤ p + _
        omega
      · show p + leading m.size c ≤ _
        rw [length_insertAt]
        omega
      · show m.min.buf ≤ p + leading m.size c
        omega
      · show p + leading m.size c - m.min.buf = _
        omega
  · -- the back is at least as long
    rw [if_neg hlong, if_neg hlong]
    obtain ⟨hmatch, hmid⟩ := matchBackward_spec (insertAt text p c) m.size
      c.reverse (p + c.length) (by rw [length_reverse]; omega) fun i hi => by
        rw [length_reverse] at hi
        rw [getElem_reverse,
          ← getElem?_insertAt_inside hp hp' (show c.length - 1 - i < c.length by omega)]
        congr 1
        omega
    rw [length_reverse, show leading m.size c.reverse = trailing m.size c from rfl]
      at hmatch
    have hbyteend : bytind (insertAt text p c) (p + c.length)
        = m.min.byt + m.size * (p - m.min.buf) + byteLength Emchar.width c := by
      rw [← h.bytind_eq (by omega) (by omega)]
      exact bytePos_insertAt_after hp hp' (Nat.le_refl _)
    rw [hbyteend] at hmatch
    rw [show ({ m with cache := _ } : MuleData).size = m.size from rfl, hmatch]
    by_cases hfull : leading m.size c = c.length
    · rw [if_neg (by simp [hall.mpr hfull]), if_pos hfull]
      rw [show leading m.size c.reverse = c.length from hall.mpr hfull,
        Nat.add_sub_cancel] at hmid
      refine ⟨h.move hcache hmin' hmax' ?_ ((hfront.trans hmid).trans hback), rfl, ?_⟩
      · show m.min.buf ≤ m.max.buf + c.length
        omega
      · show m.max.buf + c.length - m.min.buf = _
        omega
    · have hne : trailing m.size c ≠ c.length := fun heq => hfull (hall.mp heq)
      rw [if_pos (by show ¬ p = p + c.length - trailing m.size c; omega), if_neg hfull]
      refine ⟨h.move hcache ⟨?_, ?_, rfl⟩ hmax' ?_ (hmid.trans hback), rfl, ?_⟩
      · show 1 ≤ p + c.length - trailing m.size c
        omega
      · show p + c.length - trailing m.size c ≤ _
        rw [length_insertAt]
        omega
      · show p + c.length - trailing m.size c ≤ m.max.buf + c.length
        omega
      · show m.max.buf + c.length - (p + c.length - trailing m.size c) = _
        omega

/-! ## Deletion -/

theorem TruePos.pull_min {text : List Emchar} {a b : Nat} {q : Pos} (hq : TruePos text q)
    (ha : 1 ≤ a) (hab : a ≤ b) (hb : b ≤ text.length + 1) (h : a ≤ q.buf) :
    TruePos (deleteRange text a b) ⟨q.buf - (min b q.buf - a),
      q.byt - (min (bytind text b) q.byt - bytind text a)⟩ := by
  have hstart : TruePos text ⟨a, bytind text a⟩ := ⟨ha, by show a ≤ _; omega, rfl⟩
  have hstop : TruePos text ⟨b, bytind text b⟩ := ⟨by show 1 ≤ b; omega, hb, rfl⟩
  have hcmp : bytind text b ≤ q.byt ↔ b ≤ q.buf := hstop.byt_le_iff hq
  by_cases hbq : b ≤ q.buf
  · rw [Nat.min_eq_left hbq, Nat.min_eq_left (hcmp.mpr hbq)]
    exact hq.delete_after ha hab hb hbq
  · have hstartle : bytind text a ≤ q.byt := (hstart.byt_le_iff hq).mpr h
    have hbyt : q.byt ≤ bytind text b := Nat.le_of_not_le fun hle => hbq (hcmp.mp hle)
    rw [Nat.min_eq_right (by omega), Nat.min_eq_right hbyt,
      show q.buf - (q.buf - a) = a by omega,
      show q.byt - (q.byt - bytind text a) = bytind text a by omega]
    exact hstart.delete_before ha hab hb (Nat.le_refl _)

/-- **The deletion hook** leaves exact data, with a known region that is no longer. -/
theorem exact_signalDeleted {text : List Emchar} {m : MuleData} (h : m.Exact text)
    {a b : Nat} (ha : 1 ≤ a) (hab : a < b) (hb : b ≤ text.length + 1) :
    (muleSignalDeletedRegion m ⟨a, bytind text a⟩ ⟨b, bytind text b⟩).Exact
        (deleteRange text a b) ∧
      (muleSignalDeletedRegion m ⟨a, bytind text a⟩ ⟨b, bytind text b⟩).threeP = m.threeP ∧
      (muleSignalDeletedRegion m ⟨a, bytind text a⟩ ⟨b, bytind text b⟩).max.buf -
        (muleSignalDeletedRegion m ⟨a, bytind text a⟩ ⟨b, bytind text b⟩).min.buf
        ≤ m.max.buf - m.min.buf := by
  have hab' : a ≤ b := Nat.le_of_lt hab
  have hmin : TruePos text m.min := h.known.min_true
  have hmax : TruePos text m.max := h.known.max_true
  have hle : m.min.buf ≤ m.max.buf := h.known.min_le
  have huni : Uniform Emchar.width text m.min.buf m.max.buf m.size := h.known.uniform
  have hstart : TruePos text ⟨a, bytind text a⟩ := ⟨ha, by show a ≤ _; omega, rfl⟩
  have hstop : TruePos text ⟨b, bytind text b⟩ := ⟨by show 1 ≤ b; omega, hb, rfl⟩
  have hstart' : TruePos (deleteRange text a b) ⟨a, bytind text a⟩ :=
    hstart.delete_before ha hab' hb (Nat.le_refl _)
  have hcache : ∀ i, TruePos (deleteRange text a b)
      (if (m.cache i).buf > b then
        ⟨(m.cache i).buf - (b - a), (m.cache i).byt - (bytind text b - bytind text a)⟩
      else if (m.cache i).buf > a then ⟨a, bytind text a⟩ else m.cache i) := by
    intro i
    split
    · exact (h.cache_true i).delete_after ha hab' hb (by omega)
    · split
      · exact hstart'
      · exact (h.cache_true i).delete_before ha hab' hb (by omega)
  unfold muleSignalDeletedRegion
  simp only
  by_cases hafter : a ≥ min b m.max.buf
  · -- all of the known region is before the deleted text
    rw [if_pos hafter]
    exact ⟨h.move hcache (hmin.delete_before ha hab' hb (by omega))
      (hmax.delete_before ha hab' hb (by omega)) hle
      (huni.deleteRange_before (by omega) (by omega)), rfl, Nat.le_refl _⟩
  rw [if_neg hafter]
  have hmax' := hmax.pull_min ha hab' hb (by omega)
  -- the part of the known region behind the deleted text
  have hbehind : ∀ d, b ≤ d → m.min.buf ≤ d → Uniform Emchar.width (deleteRange text a b)
      (d - (b - a)) (m.max.buf - (b - a)) m.size :=
    fun d hbd hd => (huni.mono hd (Nat.le_refl _)).deleteRange_after ha hab' hb hbd
  have hminbuf : min (min b m.max.buf) m.min.buf = min b m.min.buf := by omega
  have hminbyt : min (min (bytind text b) m.max.byt) m.min.byt
      = min (bytind text b) m.min.byt := by
    have : m.min.byt ≤ m.max.byt := (hmin.byt_le_iff hmax).mpr hle
    omega
  rw [hminbuf, hminbyt]
  by_cases hbefore : a ≥ min b m.min.buf
  · -- its start is before the deleted text
    rw [if_pos hbefore]
    have hfront : Uniform Emchar.width (deleteRange text a b) m.min.buf a m.size :=
      (huni.mono (Nat.le_refl _) (by omega)).deleteRange_before (by omega) (Nat.le_refl _)
    refine ⟨h.move hcache (hmin.delete_before ha hab' hb (by omega)) hmax' ?_ ?_, rfl, ?_⟩
    · show m.min.buf ≤ m.max.buf - (min b m.max.buf - a)
      omega
    · show Uniform _ _ m.min.buf (m.max.buf - (min b m.max.buf - a)) m.size
      by_cases hbmax : b ≤ m.max.buf
      · have hback := hbehind b (Nat.le_refl _) (by omega)
        rw [show b - (b - a) = a by omega] at hback
        rw [show m.max.buf - (min b m.max.buf - a) = m.max.buf - (b - a) by omega]
        exact hfront.trans hback
      · rw [show m.max.buf - (min b m.max.buf - a) = a by omega]
        exact hfront
    · show m.max.buf - (min b m.max.buf - a) - m.min.buf ≤ _
      omega
  · -- its start is pulled back as well
    rw [if_neg hbefore]
    refine ⟨h.move hcache (hmin.pull_min ha hab' hb (by omega)) hmax' ?_ ?_, rfl, ?_⟩
    · show m.min.buf - (min b m.min.buf - a) ≤ m.max.buf - (min b m.max.buf - a)
      omega
    · show Uniform _ _ (m.min.buf - (min b m.min.buf - a))
        (m.max.buf - (min b m.max.buf - a)) m.size
      by_cases hbmax : b ≤ m.max.buf
      · have hback := hbehind (max b m.min.buf) (by omega) (by omega)
        rw [show m.min.buf - (min b m.min.buf - a) = max b m.min.buf - (b - a) by omega,
          show m.max.buf - (min b m.max.buf - a) = m.max.buf - (b - a) by omega]
        exact hback
      · rw [show m.min.buf - (min b m.min.buf - a) = a by omega,
          show m.max.buf - (min b m.max.buf - a) = a by omega]
        exact uniform_self _ _ _
    · show m.max.buf - (min b m.max.buf - a) - (m.min.buf - (min b m.min.buf - a)) ≤ _
      omega

end XEmacs.Buffer
