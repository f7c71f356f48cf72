import XEmacs.Buffer.Conversion

/-!
# Conversions are exact

A position is true when its byte component is the byte position of its character component, as
counted from the start of the text (`TruePos`). `MuleData.Exact` is the invariant of the cached
data.
-/

namespace XEmacs.Buffer

open BytePositions

/-- A position of the text, with the byte position counted from its start. -/
structure TruePos (text : List Emchar) (p : Pos) : Prop where
  one_le : 1 ≤ p.buf
  le_end : p.buf ≤ text.length + 1
  byt_eq : p.byt = bytind text p.buf

/-- A region between true positions whose characters all have its width. -/
structure Region.Known (text : List Emchar) (r : Region) : Prop where
  min_true : TruePos text r.min
  max_true : TruePos text r.max
  min_le : r.min.buf ≤ r.max.buf
  uniform : Uniform Emchar.width text r.min.buf r.max.buf r.size
  one_le_size : 1 ≤ r.size
  size_le : r.size ≤ 4

/-- The stored known region. -/
def MuleData.region (m : MuleData) : Region :=
  { min := m.min, max := m.max, size := m.size }

/-- The invariant of the cached data. -/
structure MuleData.Exact (text : List Emchar) (m : MuleData) : Prop where
  known : m.region.Known text
  shifter_three : m.threeP = true → m.shifter = 1
  cache_true : ∀ i, TruePos text (m.cache i)

/-- A region of three-byte characters is small enough for `three_to_one_table`. -/
def MuleData.InTable (m : MuleData) : Prop :=
  m.threeP = true → m.max.byt - m.min.byt ≤ maxBytindGapSize3

/-- The positions of a buffer are true. -/
structure BufferPositions.True (text : List Emchar) (buf : BufferPositions) : Prop where
  pt : TruePos text buf.pt
  begv : TruePos text buf.begv
  zv : TruePos text buf.zv

/-! ## True positions -/

instance (text : List Emchar) (p : Pos) : Decidable (TruePos text p) :=
  decidable_of_iff (_ ∧ _ ∧ _)
    ⟨fun h => ⟨h.1, h.2.1, h.2.2⟩, fun h => ⟨h.one_le, h.le_end, h.byt_eq⟩⟩

instance (text : List Emchar) (buf : BufferPositions) : Decidable (buf.True text) :=
  decidable_of_iff (_ ∧ _ ∧ _) ⟨fun h => ⟨h.1, h.2.1, h.2.2⟩, fun h => ⟨h.pt, h.begv, h.zv⟩⟩

section TruePos

variable {text : List Emchar} {p q : Pos}

theorem TruePos.byt_lt_iff (hp : TruePos text p) (hq : TruePos text q) :
    p.byt < q.byt ↔ p.buf < q.buf := by
  rw [hp.byt_eq, hq.byt_eq]
  refine ⟨fun h => ?_, fun h => bytePos_lt Emchar.width_pos hp.one_le h hq.le_end⟩
  by_contra hle
  have : bytind text q.buf ≤ bytind text p.buf := bytePos_mono text (Nat.not_lt.mp hle)
  omega

theorem TruePos.byt_le_iff (hp : TruePos text p) (hq : TruePos text q) :
    p.byt ≤ q.byt ↔ p.buf ≤ q.buf := by
  rw [← Nat.not_lt, ← Nat.not_lt, hq.byt_lt_iff hp]

theorem TruePos.get_lt_iff (hp : TruePos text p) (hq : TruePos text q) (c : Coord) :
    p.get c < q.get c ↔ p.buf < q.buf := by
  cases c with
  | buf => rfl
  | byt => exact hp.byt_lt_iff hq

theorem TruePos.ext_get (hp : TruePos text p) (hq : TruePos text q) {c : Coord}
    (h : p.get c = q.get c) : p = q := by
  have hlt := hp.get_lt_iff hq c
  have hgt := hq.get_lt_iff hp c
  have hbuf : p.buf = q.buf := by omega
  have hbyt : p.byt = q.byt := by rw [hp.byt_eq, hq.byt_eq, hbuf]
  cases p
  cases q
  simp only at hbuf hbyt
  rw [hbuf, hbyt]

theorem bytind_succ (text : List Emchar) {x : Nat} (hx : 1 ≤ x) (hx' : x ≤ text.length) :
    ∃ s, 1 ≤ s ∧ s ≤ 4 ∧ bytind text (x + 1) = bytind text x + s := by
  have hi : x - 1 < text.length := by omega
  exact ⟨_, Emchar.width_pos _, Emchar.width_le _,
    bytePos_succ hx (List.getElem?_eq_getElem hi)⟩

theorem TruePos.byt_add_le (hp : TruePos text p) (hq : TruePos text q)
    (h : p.buf ≤ q.buf) (c : Coord) : p.get c + (q.buf - p.buf) ≤ q.get c := by
  cases c with
  | buf => show p.buf + _ ≤ q.buf; omega
  | byt =>
    show p.byt + _ ≤ q.byt
    rw [hp.byt_eq, hq.byt_eq]
    have hq' := hq.le_end
    have hp' := hp.one_le
    generalize q.buf = y at *
    induction y with
    | zero => omega
    | succ y ih =>
      rcases Nat.lt_or_eq_of_le h with hlt | heq
      · obtain ⟨s, hs, -, hstep⟩ := bytind_succ text (x := y) (by omega) (by omega)
        have := ih (by omega) (by omega)
        rw [hstep]
        omega
      · rw [heq]
        omega

end TruePos

/-! ## Moving the known region -/

section Region

variable {text : List Emchar} {r : Region} {p : Pos}

theorem Region.known_anchor (hp : TruePos text p) : (Region.anchor p).Known text :=
  { min_true := hp
    max_true := hp
    min_le := Nat.le_refl _
    uniform := uniform_self _ _ _
    one_le_size := Nat.le_refl 1
    size_le := Nat.le_add_left 1 3 }

theorem Region.Known.forward (h : r.Known text) (hlt : r.max.buf ≤ text.length) :
    (r.forward (textBytes text)).Known text ∧
      (r.forward (textBytes text)).max.buf = r.max.buf + 1 := by
  obtain ⟨s, hs, hs4, hstep⟩ := bytind_succ text h.max_true.one_le hlt
  have hinc : incBytind (textBytes text) r.max.byt = bytind text (r.max.buf + 1) := by
    rw [h.max_true.byt_eq, incBytind_bytePos h.max_true.one_le hlt]
  have hsize : incBytind (textBytes text) r.max.byt - r.max.byt = s := by
    rw [hinc, hstep, h.max_true.byt_eq]
    omega
  have htrue : TruePos text ⟨r.max.buf + 1, incBytind (textBytes text) r.max.byt⟩ :=
    ⟨Nat.le_add_left _ _, by show r.max.buf + 1 ≤ _; omega, hinc⟩
  unfold Region.forward
  simp only [hsize]
  by_cases hne : s = r.size
  · rw [if_neg (not_not.mpr hne)]
    exact ⟨⟨h.min_true, htrue, Nat.le_succ_of_le h.min_le, h.uniform.succ (hne ▸ hstep),
      h.one_le_size, h.size_le⟩, rfl⟩
  · rw [if_pos hne]
    exact ⟨⟨h.max_true, htrue, Nat.le_succ _, (uniform_self _ _ _).succ hstep, hs, hs4⟩, rfl⟩

theorem Region.Known.backward (h : r.Known text) (hlt : 1 < r.min.buf) :
    (r.backward (textBytes text)).Known text ∧
      (r.backward (textBytes text)).min.buf = r.min.buf - 1 := by
  obtain ⟨x, hx⟩ : ∃ x, r.min.buf = x + 1 := ⟨r.min.buf - 1, by omega⟩
  have hend := h.min_true.le_end
  obtain ⟨s, hs, hs4, hstep⟩ := bytind_succ text (x := x) (by omega) (by omega)
  have hdec : decBytind (textBytes text) r.min.byt = bytind text x := by
    rw [h.min_true.byt_eq, hx, decBytind_bytePos (by omega) (by omega)]
  have hsize : r.min.byt - decBytind (textBytes text) r.min.byt = s := by
    rw [hdec, h.min_true.byt_eq, hx, hstep]
    omega
  have htrue : TruePos text ⟨r.min.buf - 1, decBytind (textBytes text) r.min.byt⟩ :=
    ⟨by show 1 ≤ r.min.buf - 1; omega, by show r.min.buf - 1 ≤ _; omega, by
      rw [hdec, hx]; rfl⟩
  have hone : Uniform Emchar.width text (r.min.buf - 1) r.min.buf s := by
    rw [hx]
    exact (uniform_self _ _ _).succ hstep
  unfold Region.backward
  simp only [hsize]
  by_cases hne : s = r.size
  · rw [if_neg (not_not.mpr hne)]
    exact ⟨⟨htrue, h.max_true, Nat.le_trans (Nat.sub_le _ _) h.min_le,
      (hne ▸ hone).trans h.uniform, h.one_le_size, h.size_le⟩, rfl⟩
  · rw [if_pos hne]
    exact ⟨⟨htrue, h.min_true, Nat.sub_le _ _, hone, hs, hs4⟩, rfl⟩

theorem forwardLoop_spec (c : Coord) (hp : TruePos text p) : ∀ (fuel : Nat) (r : Region),
    r.Known text → r.max.buf ≤ p.buf → p.get c - r.max.get c ≤ fuel →
    (forwardLoop c (textBytes text) (p.get c) fuel r).Known text ∧
      (forwardLoop c (textBytes text) (p.get c) fuel r).max = p := by
  intro fuel
  have hend : ∀ r : Region, r.Known text → r.max.buf ≤ p.buf → ¬ p.get c > r.max.get c →
      r.Known text ∧ r.max = p := by
    intro r h hle hnot
    refine ⟨h, h.max_true.ext_get (c := c) hp ?_⟩
    have := h.max_true.byt_add_le hp hle c
    omega
  induction fuel with
  | zero => exact fun r h hle hfuel => hend r h hle (by omega)
  | succ fuel ih =>
    intro r h hle hfuel
    unfold forwardLoop
    by_cases hgt : p.get c > r.max.get c
    · rw [if_pos hgt]
      have hlt : r.max.buf < p.buf := (h.max_true.get_lt_iff hp c).mp hgt
      have hpend := hp.le_end
      obtain ⟨hknown, hmax⟩ := h.forward (by omega)
      refine ih _ hknown (by omega) ?_
      have := h.max_true.byt_add_le hknown.max_true (by omega) c
      omega
    · rw [if_neg hgt]
      exact hend r h hle hgt

theorem backwardLoop_spec (c : Coord) (hp : TruePos text p) : ∀ (fuel : Nat) (r : Region),
    r.Known text → p.buf ≤ r.min.buf → r.min.get c - p.get c ≤ fuel →
    (backwardLoop c (textBytes text) (p.get c) fuel r).Known text ∧
      (backwardLoop c (textBytes text) (p.get c) fuel r).min = p := by
  intro fuel
  have hend : ∀ r : Region, r.Known text → p.buf ≤ r.min.buf → ¬ p.get c < r.min.get c →
      r.Known text ∧ r.min = p := by
    intro r h hle hnot
    refine ⟨h, h.min_true.ext_get (c := c) hp ?_⟩
    have := hp.byt_add_le h.min_true hle c
    omega
  induction fuel with
  | zero => exact fun r h hle hfuel => hend r h hle (by omega)
  | succ fuel ih =>
    intro r h hle hfuel
    unfold backwardLoop
    by_cases hlt : p.get c < r.min.get c
    · rw [if_pos hlt]
      have hlt' : p.buf < r.min.buf := (hp.get_lt_iff h.min_true c).mp hlt
      have hp1 := hp.one_le
      obtain ⟨hknown, hmin⟩ := h.backward (by omega)
      refine ih _ hknown (by omega) ?_
      have := hknown.min_true.byt_add_le h.min_true (by omega) c
      omega
    · rw [if_neg hlt]
      exact hend r h hle hlt

theorem Region.Known.clip (h : r.Known text) (forwardP : Bool) :
    (r.clip forwardP).Known text := by
  have hmax := h.uniform.bytePos_eq h.min_le (Nat.le_refl _)
  have hminb : r.min.byt = bytePos Emchar.width text r.min.buf := h.min_true.byt_eq
  have hmaxb : r.max.byt = bytePos Emchar.width text r.max.buf := h.max_true.byt_eq
  have h1 := h.min_true.one_le
  have h2 := h.max_true.le_end
  have h3 := h.min_le
  unfold Region.clip maxBytindGapSize3 maxBufposGapSize3
  split
  case isTrue hbig =>
    obtain ⟨hsize, hgap⟩ := hbig
    rw [hsize] at hmax
    split
    · have hcut := h.uniform.bytePos_eq (x := r.max.buf - 65535 / 3) (by omega) (by omega)
      rw [hsize] at hcut
      refine ⟨⟨?_, ?_, ?_⟩, h.max_true, ?_, h.uniform.mono ?_ (Nat.le_refl _),
        h.one_le_size, h.size_le⟩
      · show 1 ≤ r.max.buf - 65535 / 3
        omega
      · show r.max.buf - 65535 / 3 ≤ _
        omega
      · show r.max.byt - 3 * (65535 / 3) = bytePos Emchar.width text (r.max.buf - 65535 / 3)
        omega
      · exact Nat.sub_le _ _
      · show r.min.buf ≤ r.max.buf - 65535 / 3
        omega
    · have hcut := h.uniform.bytePos_eq (x := r.min.buf + 65535 / 3) (by omega) (by omega)
      rw [hsize] at hcut
      refine ⟨h.min_true, ⟨?_, ?_, ?_⟩, ?_, h.uniform.mono (Nat.le_refl _) ?_,
        h.one_le_size, h.size_le⟩
      · show 1 ≤ r.min.buf + 65535 / 3
        omega
      · show r.min.buf + 65535 / 3 ≤ _
        omega
      · show r.min.byt + 3 * (65535 / 3) = bytePos Emchar.width text (r.min.buf + 65535 / 3)
        omega
      · exact Nat.le_add_right _ _
      · show r.min.buf + 65535 / 3 ≤ r.max.buf
        omega
  case isFalse => exact h

theorem Region.clip_size (r : Region) (forwardP : Bool) : (r.clip forwardP).size = r.size := by
  unfold Region.clip
  split
  · split <;> rfl
  · rfl

theorem Region.clip_max (r : Region) : (r.clip true).max = r.max := by
  simp only [Region.clip, if_true]
  split <;> rfl

theorem Region.clip_min (r : Region) : (r.clip false).min = r.min := by
  simp only [Region.clip, Bool.false_eq_true, if_false]
  split <;> rfl

theorem Region.clip_inTable (r : Region) (forwardP : Bool) (hsize : r.size = 3) :
    (r.clip forwardP).max.byt - (r.clip forwardP).min.byt ≤ maxBytindGapSize3 := by
  unfold Region.clip
  split
  case isTrue => split <;> (simp only; omega)
  case isFalse h =>
    simp only [hsize, true_and] at h
    omega

end Region

theorem MuleData.size_setRegion (m : MuleData) {r : Region} (h : 1 ≤ r.size)
    (h' : r.size ≤ 4) : (m.setRegion r).size = r.size := by
  obtain h | h | h | h : r.size = 1 ∨ r.size = 2 ∨ r.size = 3 ∨ r.size = 4 := by omega
  all_goals simp [MuleData.size, MuleData.setRegion, h]

theorem MuleData.Exact.setRegion {text : List Emchar} {m : MuleData} (h : m.Exact text)
    {r : Region} (hr : r.Known text) : (m.setRegion r).Exact text := by
  have hsize := m.size_setRegion hr.one_le_size hr.size_le
  refine ⟨⟨hr.min_true, hr.max_true, hr.min_le, ?_, ?_, ?_⟩, fun h3 => ?_, h.cache_true⟩
  · show Uniform Emchar.width text r.min.buf r.max.buf (m.setRegion r).size
    rw [hsize]
    exact hr.uniform
  · show 1 ≤ (m.setRegion r).size
    rw [hsize]
    exact hr.one_le_size
  · show (m.setRegion r).size ≤ 4
    rw [hsize]
    exact hr.size_le
  · have h3 : r.size = 3 := of_decide_eq_true h3
    show (if r.size = 3 then 1 else _) = 1
    rw [if_pos h3]

/-! ## Conversions -/

/-- The position looked for is not strictly inside a region. -/
def Region.Off (c : Coord) (x : Nat) (r : Region) : Prop :=
  x < r.min.get c ∨ r.max.get c ≤ x

theorem Region.off_anchor (c : Coord) (x : Nat) (p : Pos) : (Region.anchor p).Off c x :=
  Nat.lt_or_ge x (p.get c)

theorem approach_spec {text : List Emchar} {buf : BufferPositions} {r : Region} {x : Nat}
    {c : Coord} (hbuf : buf.True text) (h : r.Known text) (hoff : r.Off c x) :
    (approach c buf x r).Known text ∧ (approach c buf x r).Off c x := by
  have hanchor : ∀ p, TruePos text p →
      (Region.anchor p).Known text ∧ (Region.anchor p).Off c x :=
    fun p hp => ⟨Region.known_anchor hp, Region.off_anchor c x p⟩
  unfold approach
  simp only
  split
  · split
    · exact hanchor _ hbuf.zv
    · split
      · exact hanchor _ hbuf.pt
      · exact ⟨h, hoff⟩
  · split
    · exact hanchor _ hbuf.begv
    · split
      · exact hanchor _ hbuf.pt
      · exact ⟨h, hoff⟩

theorem tryCache_spec {text : List Emchar} {cache : Fin 16 → Pos} {r : Region} {x : Nat}
    {c : Coord} (hcache : ∀ i, TruePos text (cache i)) (h : r.Known text)
    (hoff : r.Off c x) :
    (tryCache c cache x r).Known text ∧ (tryCache c cache x r).Off c x := by
  unfold tryCache
  simp only
  split
  · exact ⟨Region.known_anchor (hcache _), Region.off_anchor ..⟩
  · exact ⟨h, hoff⟩

/-- What a conversion leaves: the same text, with data that is exact again. -/
structure Keeps (t t' : BufferText) : Prop where
  text_eq : t'.text = t.text
  z_eq : t'.z = t.z
  exact_mule : t'.mule.Exact t.text
  inTable : t.mule.InTable → t'.mule.InTable

theorem Keeps.refl {t : BufferText} (h : t.mule.Exact t.text) : Keeps t t :=
  ⟨rfl, rfl, h, id⟩

theorem Keeps.trans {t t' t'' : BufferText} (h : Keeps t t') (h' : Keeps t' t'') :
    Keeps t t'' :=
  ⟨h'.text_eq.trans h.text_eq, h'.z_eq.trans h.z_eq, h.text_eq ▸ h'.exact_mule,
    fun ht => h'.inTable (h.inTable ht)⟩

theorem Keeps.addToCache {t t' : BufferText} (h : Keeps t t') {p : Pos}
    (hp : TruePos t.text p) : Keeps t (t'.addToCache p) := by
  refine ⟨h.text_eq, h.z_eq, ⟨h.exact_mule.known, h.exact_mule.shifter_three, fun i => ?_⟩,
    h.inTable⟩
  show TruePos t.text (Function.update t'.mule.cache _ p i)
  by_cases hi : i = Fin.ofNat 16 (t'.notVeryRandomNumber + 621)
  · rw [hi, Function.update_self]
    exact hp
  · rw [Function.update_of_ne hi]
    exact h.exact_mule.cache_true i

theorem Pos.withGiven_get (p : Pos) (c : Coord) : p.withGiven (p.get c) c = p := by
  cases c <;> rfl

/-- **A conversion is exact**: started from a true position outside the known region,
it finds that position and leaves exact data, with the known region where it was or
with the position at one of its ends. -/
theorem convertFunc_exact {buf : BufferPositions} {t : BufferText} {p : Pos} {c : Coord}
    (h : t.mule.Exact t.text) (hbuf : buf.True t.text) (hp : TruePos t.text p)
    (hoff : t.mule.region.Off c (p.get c)) :
    (convertFunc c buf t (p.get c)).1 = p ∧ Keeps t (convertFunc c buf t (p.get c)).2 ∧
      ((convertFunc c buf t (p.get c)).2.mule = t.mule ∨
        (convertFunc c buf t (p.get c)).2.mule.min = p ∨
        (convertFunc c buf t (p.get c)).2.mule.max = p) := by
  unfold convertFunc
  by_cases hpt : p.get c = buf.pt.get c
  · rw [if_pos hpt]
    exact ⟨(hp.ext_get hbuf.pt hpt).symm, Keeps.refl h, Or.inl rfl⟩
  rw [if_neg hpt]
  by_cases hzv : p.get c = buf.zv.get c
  · rw [if_pos hzv]
    exact ⟨(hp.ext_get hbuf.zv hzv).symm, Keeps.refl h, Or.inl rfl⟩
  rw [if_neg hzv]
  by_cases hbegv : p.get c = buf.begv.get c
  · rw [if_pos hbegv]
    exact ⟨(hp.ext_get hbuf.begv hbegv).symm, Keeps.refl h, Or.inl rfl⟩
  rw [if_neg hbegv]
  -- the region the loop starts from
  have hstart := approach_spec hbuf h.known hoff
  simp only
  rw [show ({ min := t.mule.min, max := t.mule.max, size := t.mule.size } : Region)
    = t.mule.region from rfl]
  generalize approach c buf (p.get c) t.mule.region = r at hstart ⊢
  generalize (decide (r.diffSoFar c (p.get c) > 50)) = addToCache
  have hstart' : (if addToCache = true then tryCache c t.mule.cache (p.get c) r
        else r).Known t.text ∧
      (if addToCache = true then tryCache c t.mule.cache (p.get c) r
        else r).Off c (p.get c) := by
    split
    · exact tryCache_spec h.cache_true hstart.1 hstart.2
    · exact hstart
  generalize (if addToCache = true then tryCache c t.mule.cache (p.get c) r else r) = r'
    at hstart' ⊢
  obtain ⟨hknown, hoff'⟩ := hstart'
  -- the end of the loop, in either direction, is the position looked for
  obtain ⟨r'', found, forwardP, hr'', hknown'', hfound⟩ :
      ∃ (r'' : Region) (found : Pos) (forwardP : Bool),
        ((if (decide (p.get c ≥ r'.max.get c)) = true then
            forwardLoop c (textBytes t.text) (p.get c) (p.get c - r'.max.get c) r'
          else backwardLoop c (textBytes t.text) (p.get c) (r'.min.get c - p.get c) r') = r''
          ∧ decide (p.get c ≥ r'.max.get c) = forwardP
          ∧ (if forwardP = true then r''.max else r''.min) = found)
        ∧ r''.Known t.text ∧ found = p := by
    by_cases hge : p.get c ≥ r'.max.get c
    · have hle : r'.max.buf ≤ p.buf := by
        rw [← Nat.not_lt, ← hp.get_lt_iff hknown.max_true c]
        omega
      obtain ⟨hk, hmax⟩ := forwardLoop_spec c hp _ r' hknown hle (Nat.le_refl _)
      exact ⟨_, _, true, ⟨by rw [if_pos (decide_eq_true hge)], decide_eq_true hge, rfl⟩, hk,
        hmax⟩
    · have hlt := hoff'.resolve_right hge
      have hle : p.buf ≤ r'.min.buf :=
        Nat.le_of_lt ((hp.get_lt_iff hknown.min_true c).mp hlt)
      obtain ⟨hk, hmin⟩ := backwardLoop_spec c hp _ r' hknown hle (Nat.le_refl _)
      have hfalse : decide (p.get c ≥ r'.max.get c) = false := decide_eq_false hge
      exact ⟨_, _, false, ⟨by rw [if_neg (by rw [hfalse]; simp)], hfalse, rfl⟩, hk, hmin⟩
  obtain ⟨hloop, hforward, hfoundeq⟩ := hr''
  rw [hloop, hforward, hfoundeq, hfound]
  have hkeeps : Keeps t { t with mule := t.mule.setRegion (r''.clip forwardP) } := by
    refine ⟨rfl, rfl, h.setRegion (hknown''.clip forwardP), fun _ hthree => ?_⟩
    refine r''.clip_inTable forwardP ?_
    rw [← r''.clip_size forwardP]
    exact of_decide_eq_true hthree
  have hedge : (r''.clip forwardP).min = p ∨ (r''.clip forwardP).max = p := by
    cases forwardP with
    | true => exact Or.inr ((r''.clip_max).trans (hfoundeq.trans hfound))
    | false => exact Or.inl ((r''.clip_min).trans (hfoundeq.trans hfound))
  refine ⟨rfl, ?_⟩
  split
  · rw [Pos.withGiven_get]
    exact ⟨hkeeps.addToCache hp, Or.inr hedge⟩
  · exact ⟨hkeeps, Or.inr hedge⟩

theorem MuleData.Exact.bytind_eq {text : List Emchar} {m : MuleData} (h : m.Exact text)
    {x : Nat} (hlo : m.min.buf ≤ x) (hhi : x ≤ m.max.buf) :
    bytind text x = m.min.byt + m.size * (x - m.min.buf) := by
  have hmin : m.min.byt = bytind text m.min.buf := h.known.min_true.byt_eq
  rw [hmin]
  exact h.known.uniform.bytePos_eq hlo hhi

theorem MuleData.Exact.inTable_iff {text : List Emchar} {m : MuleData} (h : m.Exact text) :
    m.InTable ↔ (m.threeP = true → m.max.buf - m.min.buf ≤ maxBufposGapSize3) := by
  have hle : m.min.buf ≤ m.max.buf := h.known.min_le
  have hmax := h.bytind_eq hle (Nat.le_refl _)
  have hmaxb : m.max.byt = bytind text m.max.buf := h.known.max_true.byt_eq
  unfold MuleData.InTable maxBytindGapSize3
  refine forall_congr' fun hthree => ?_
  have hsize : m.size = 3 := by
    rw [MuleData.size, h.shifter_three hthree, hthree]
    rfl
  rw [hmaxb, hmax, hsize]
  omega

theorem bufposToBytind_exact {buf : BufferPositions} {t : BufferText} {x : Nat}
    (h : t.mule.Exact t.text) (hbuf : buf.True t.text) (hx : 1 ≤ x)
    (hx' : x ≤ t.text.length + 1) :
    (bufposToBytind buf t x).1 = bytind t.text x ∧ Keeps t (bufposToBytind buf t x).2 ∧
      ((bufposToBytind buf t x).2.mule = t.mule ∨
        ¬ (x ≥ t.mule.min.buf ∧ x ≤ t.mule.max.buf) ∧
          ((bufposToBytind buf t x).2.mule.min.buf = x ∨
            (bufposToBytind buf t x).2.mule.max.buf = x)) := by
  unfold bufposToBytind
  split
  case isTrue hin =>
    refine ⟨?_, Keeps.refl h, Or.inl rfl⟩
    rw [h.bytind_eq hin.1 hin.2, MuleData.size, Nat.add_mul, Nat.shiftLeft_eq, Nat.one_shiftLeft,
      Nat.mul_comm (2 ^ _)]
    split <;> omega
  case isFalse hout =>
    have hp : TruePos t.text ⟨x, bytind t.text x⟩ := ⟨hx, hx', rfl⟩
    have hoff : t.mule.region.Off .buf x := by
      show x < t.mule.min.buf ∨ t.mule.max.buf ≤ x
      omega
    obtain ⟨hfound, hkeeps, hedge⟩ := convertFunc_exact (c := .buf) h hbuf hp hoff
    refine ⟨?_, hkeeps, hedge.imp_right fun h =>
      ⟨hout, h.imp (congrArg Pos.buf) (congrArg Pos.buf)⟩⟩
    show (convertFunc .buf buf t x).1.byt = _
    rw [show (convertFunc .buf buf t x).1 = _ from hfound]

theorem bytindToBufpos_exact {buf : BufferPositions} {t : BufferText} {x : Nat}
    (h : t.mule.Exact t.text) (hbuf : buf.True t.text) (hx : 1 ≤ x)
    (hx' : x ≤ t.text.length + 1) :
    (bytindToBufpos buf t (bytind t.text x)).1 = x ∧
      Keeps t (bytindToBufpos buf t (bytind t.text x)).2 := by
  have hp : TruePos t.text ⟨x, bytind t.text x⟩ := ⟨hx, hx', rfl⟩
  unfold bytindToBufpos
  split
  case isTrue hin =>
    refine ⟨?_, Keeps.refl h⟩
    have hlo : t.mule.min.buf ≤ x := (h.known.min_true.byt_le_iff hp).mp hin.1
    have hhi : x ≤ t.mule.max.buf := (hp.byt_le_iff h.known.max_true).mp hin.2
    rw [h.bytind_eq hlo hhi, Nat.add_sub_cancel_left]
    unfold MuleData.size threeToOneTable
    split
    case isTrue hthree =>
      rw [h.shifter_three hthree]
      show t.mule.min.buf + (2 + 1) * (x - t.mule.min.buf) / 3 = x
      omega
    case isFalse =>
      rw [Nat.add_zero, Nat.shiftRight_eq_div_pow, Nat.one_shiftLeft,
        Nat.mul_div_cancel_left _ (Nat.two_pow_pos _)]
      omega
  case isFalse hout =>
    have hoff : t.mule.region.Off .byt (bytind t.text x) := by
      show bytind t.text x < t.mule.min.byt ∨ t.mule.max.byt ≤ bytind t.text x
      omega
    obtain ⟨hfound, hkeeps, -⟩ := convertFunc_exact (c := .byt) h hbuf hp hoff
    refine ⟨?_, hkeeps⟩
    show (convertFunc .byt buf t (bytind t.text x)).1.buf = _
    rw [show (convertFunc .byt buf t (bytind t.text x)).1 = _ from hfound]

theorem BufferPositions.True.keeps {t t' : BufferText} {buf : BufferPositions}
    (h : buf.True t.text) (hk : Keeps t t') : buf.True t'.text :=
  hk.text_eq ▸ h

end XEmacs.Buffer
