import XEmacs.Buffer.LineNumber
import Mathlib.Data.List.Zip

/-!
# How cached line numbers drift

A line in the ring is the number of newlines between `BEGV` and its marker when it was cached.
Two kinds of operations make it wrong.
-/

namespace XEmacs.Buffer

open BytePositions List

namespace LineBuffer

/-! ## Drift -/

/-- What is left of the drifts when the entries from `pos` on are removed. -/
def removeDrift (b : LineBuffer) (pos : Nat) (drift : List Int) : List Int :=
  ((b.ring.zip drift).filter fun e => !(e.1.marker ≥ pos)).map Prod.snd

/-- The nearest known position and its drift; `BEGV` has none. -/
def nearestDrift (b : LineBuffer) (drift : List Int) (pos : Nat) : RingPair × Int :=
  (b.ring.zip drift).foldl (fun known e =>
    if howFar e.1.marker pos < howFar known.1.marker pos then e else known) (⟨b.begv, 0⟩, 0)

/-- The drift a query for `pos` suffers from: none if `pos` is not far. -/
def usedDrift (b : LineBuffer) (drift : List Int) (pos : Nat) : Int :=
  if howFar pos b.begv ≤ lineNumberFar then 0 else (b.nearestDrift drift pos).2

/-- The drifts after an insertion. -/
def insertDrift (b : LineBuffer) (pos : Nat) (c : List Emchar) (drift : List Int) : List Int :=
  if insertInvalidates c then b.removeDrift (b.clip pos) drift else drift

/-- The drifts after a deletion. -/
def deleteDrift (b : LineBuffer) (start stop : Nat) (drift : List Int) : List Int :=
  let start := if start < b.begv then b.begv else start
  let stop := if stop > b.zv then b.zv else stop
  if stop ≤ start then drift
  else if b.deleteInvalidates start stop then b.removeDrift start drift else drift

/-- **A replacement in place** of `cur` at `pos`: entries behind it miss its newlines. -/
def setDrift (b : LineBuffer) (pos : Nat) (cur ch : Emchar) (drift : List Int) : List Int :=
  (b.ring.zip drift).map fun e =>
    if pos < e.1.marker then e.2 + newlineWeight ch - newlineWeight cur else e.2

/-- **A new `BEGV`**: all entries miss the newlines between the two. -/
def clipDrift (b : LineBuffer) (begv : Nat) (drift : List Int) : List Int :=
  drift.map fun d => d + scanLines b.text begv b.begv

/-- The drifts after a query: a line that is cached has the drift it was computed with. -/
def queryDrift (b : LineBuffer) (pos : Nat) (cachep : Bool) (drift : List Int) : List Int :=
  if cachep ∧ ¬ howFar pos b.begv ≤ lineNumberFar ∧
      howFar pos (b.nearestDrift drift pos).1.marker > lineNumberFar then
    (b.nearestDrift drift pos).2 :: drift.take (lineNumberRingSize - 1)
  else drift

/-- The drifts after a replacement. -/
def replaceDrift (b : LineBuffer) (pos : Nat) (ch : Emchar) (atPoint : Bool)
    (drift : List Int) : List Int :=
  match b.text[pos - 1]? with
  | none => drift
  | some cur =>
    if cur.width = ch.width then b.setDrift pos cur ch drift
    else
      let drift := b.deleteDrift pos (pos + 1) drift
      let b := b.bufferDeleteRange pos (pos + 1)
      let pos' := if pos ≥ b.zv then b.zv - 1 else pos
      if pos' < b.begv then drift
      else b.insertDrift (if atPoint then pos else pos') [ch] drift

/-- The drifts after an operation. -/
def LineOp.drift (b : LineBuffer) (drift : List Int) : LineOp → List Int
  | insert pos c _ => b.insertDrift pos c drift
  | delete start stop => b.deleteDrift start stop drift
  | replaceChar pos ch atPoint =>
    if b.begv ≤ pos ∧ pos < b.zv then b.replaceDrift pos ch atPoint drift else drift
  | narrow start stop => b.clipDrift (b.narrowToRegion start stop).begv drift
  | widen clipChanged => b.clipDrift (b.widenBuffer clipChanged).begv drift
  | restore newhead newtail =>
    b.clipDrift (b.saveRestrictionRestore newhead newtail).begv drift
  | lineNumber pos cachep =>
    if b.begv ≤ pos ∧ pos ≤ b.zv then b.queryDrift pos cachep drift else drift

/-- The drifts after a history, from a buffer and its drifts. -/
def driftAfter (b : LineBuffer) (drift : List Int) : List LineOp → List Int
  | [] => drift
  | op :: l => driftAfter (op.run b) (op.drift b drift) l

/-! ## Lines -/

/-- The line of a position of the text; the first one is 1. -/
abbrev lineOf (text : List Emchar) (x : Nat) : Nat := bytePos newlineWeight text x

theorem scanLines_eq (text : List Emchar) {beg pos : Nat} (hbeg : 1 ≤ beg) (hpos : 1 ≤ pos) :
    scanLines text beg pos = lineOf text pos - lineOf text beg := by
  unfold scanLines newlines
  split
  case isTrue hlt =>
    have : lineOf text pos = lineOf text beg + byteLength newlineWeight (between text beg pos) :=
      bytePos_eq_add_between text hbeg (Nat.le_of_lt hlt)
    omega
  case isFalse hge =>
    have : lineOf text beg = lineOf text pos + byteLength newlineWeight (between text pos beg) :=
      bytePos_eq_add_between text hpos (Nat.not_lt.mp hge)
    omega

theorem newlines_eq_zero {c : List Emchar} (h : c.any Emchar.isNewline = false) :
    newlines c = 0 := by
  induction c with
  | nil => rfl
  | cons ch c ih =>
    rw [any_cons, Bool.or_eq_false_iff] at h
    rw [newlines, byteLength_cons, newlineWeight, if_neg (by rw [h.1]; exact Bool.false_ne_true)]
    have : byteLength newlineWeight c = 0 := ih h.2
    omega

/-- How far the line of an entry is from the number of newlines between `BEGV` and its
marker. -/
def driftOf (b : LineBuffer) (pair : RingPair) : Int :=
  lineOf b.text pair.marker - lineOf b.text b.begv - pair.line

/-- The positions of a buffer are in order, and the line of `BEGV` is 0 when it is known. -/
structure Valid (b : LineBuffer) : Prop where
  one_le_begv : 1 ≤ b.begv
  begv_le_zv : b.begv ≤ b.zv
  zv_le_end : b.zv ≤ b.text.length + 1
  marker : ∀ pair ∈ b.ring, 1 ≤ pair.marker ∧ pair.marker ≤ b.text.length + 1
  begvLine : ∀ line ∈ b.cache.map LineNumberCache.begvLine, line = 0 ∨ line = -1

/-- The drifts are those of the ring. -/
structure Traced (b : LineBuffer) (drift : List Int) : Prop where
  valid : b.Valid
  drift_eq : drift = b.ring.map b.driftOf

/-! ## The ring -/

section Ring

variable {b : LineBuffer}

theorem ring_mapRing (b : LineBuffer) {g : List RingPair → List RingPair} (hg : g [] = []) :
    (b.mapRing g).ring = g b.ring := by
  obtain ⟨text, begv, zv, cache⟩ := b
  cases cache with
  | none => exact hg.symm
  | some cache => rfl

@[simp]
theorem begvLine_mapRing (b : LineBuffer) (g : List RingPair → List RingPair) :
    (b.mapRing g).cache.map LineNumberCache.begvLine
      = b.cache.map LineNumberCache.begvLine := by
  obtain ⟨text, begv, zv, cache⟩ := b
  cases cache <;> rfl

theorem ring_invalidate (b : LineBuffer) (pos : Nat) :
    (b.invalidateLineNumberCache pos).ring = b.ring.filter fun pair => !(pair.marker ≥ pos) :=
  b.ring_mapRing rfl

theorem ring_moveMarkers (b : LineBuffer) (g : Nat → Nat) :
    (b.moveMarkers g).ring = b.ring.map fun pair => { pair with marker := g pair.marker } :=
  b.ring_mapRing rfl

theorem removeDrift_map (b : LineBuffer) (pos : Nat) (g : RingPair → Int) :
    b.removeDrift pos (b.ring.map g)
      = (b.ring.filter fun pair => !(pair.marker ≥ pos)).map g := by
  rw [removeDrift, ← map_prod_left_eq_zip, filter_map, map_map]
  rfl

end Ring

/-! ## What operations do to the drift -/

section Operations

variable {b : LineBuffer} {drift : List Int}

theorem Valid.clip (h : b.Valid) (pos : Nat) : b.begv ≤ b.clip pos ∧ b.clip pos ≤ b.zv := by
  have := h.begv_le_zv
  simp only [LineBuffer.clip]
  split <;> split <;> omega

theorem drift_of_moved {b' : LineBuffer} {kept : List RingPair} {g : Nat → Nat}
    (hring : b'.ring = kept.map fun pair => { pair with marker := g pair.marker })
    (hdrift : drift = kept.map b.driftOf)
    (hmoved : ∀ pair ∈ kept, lineOf b'.text (g pair.marker) = lineOf b.text pair.marker)
    (hbegv : lineOf b'.text b'.begv = lineOf b.text b.begv) :
    drift = b'.ring.map b'.driftOf := by
  rw [hdrift, hring, map_map]
  refine map_congr_left fun pair hpair => ?_
  show _ = b'.driftOf { pair with marker := g pair.marker }
  rw [driftOf, driftOf, hmoved pair hpair, hbegv]

theorem valid_moved {b' : LineBuffer} {kept : List RingPair} {g : Nat → Nat}
    (hring : b'.ring = kept.map fun pair => { pair with marker := g pair.marker })
    (hmoved : ∀ pair ∈ kept, 1 ≤ g pair.marker ∧ g pair.marker ≤ b'.text.length + 1) :
    ∀ pair ∈ b'.ring, 1 ≤ pair.marker ∧ pair.marker ≤ b'.text.length + 1 := by
  rw [hring]
  intro pair hpair
  obtain ⟨pair', hpair', rfl⟩ := List.mem_map.mp hpair
  exact hmoved pair' hpair'

/-- The entries an insertion leaves. -/
def keptByInsert (b : LineBuffer) (p : Nat) (c : List Emchar) : List RingPair :=
  if insertInvalidates c then b.ring.filter fun pair => !(pair.marker ≥ p) else b.ring

theorem mem_keptByInsert {p : Nat} {c : List Emchar} {pair : RingPair}
    (h : pair ∈ b.keptByInsert p c) : pair ∈ b.ring ∧ (pair.marker < p ∨ newlines c = 0) := by
  unfold keptByInsert at h
  split at h
  case isTrue =>
    obtain ⟨hmem, hlt⟩ := List.mem_filter.mp h
    exact ⟨hmem, .inl (by simpa using hlt)⟩
  case isFalse hinv =>
    refine ⟨h, .inr (newlines_eq_zero ?_)⟩
    rw [insertInvalidates, Bool.not_eq_true, Bool.or_eq_false_iff] at hinv
    exact hinv.2

theorem bufferInsertString1_spec (b : LineBuffer) (pos : Nat) (c : List Emchar)
    (before : Bool) :
    let b' := b.bufferInsertString1 pos c before
    b'.text = insertAt b.text (b.clip pos) c ∧ b'.begv = b.begv ∧ b'.zv = b.zv + c.length ∧
      b'.cache.map LineNumberCache.begvLine = b.cache.map LineNumberCache.begvLine ∧
      b'.ring = (b.keptByInsert (b.clip pos) c).map fun pair =>
        { pair with marker := insertMoves (b.clip pos) c.length before pair.marker } := by
  unfold bufferInsertString1 insertInvalidateLineNumberCache keptByInsert
  simp only
  refine ⟨?_, ?_, ?_, ?_, ?_⟩
  · split <;> rfl
  · split <;> rfl
  · split <;> rfl
  · rw [moveMarkers, begvLine_mapRing]
    split
    · exact b.begvLine_mapRing _
    · rfl
  · rw [ring_moveMarkers]
    congr 1
    split
    · exact b.ring_invalidate _
    · rfl

theorem lineOf_insertMoves {text c : List Emchar} {p m : Nat} (before : Bool) (hp : 1 ≤ p)
    (hp' : p ≤ text.length + 1) (h : m < p ∨ newlines c = 0) :
    lineOf (insertAt text p c) (insertMoves p c.length before m) = lineOf text m := by
  unfold insertMoves
  split
  case isTrue hmoves =>
    have hle : p ≤ m := by
      rcases hmoves with hlt | ⟨rfl, -⟩ <;> omega
    have hc : byteLength newlineWeight c = 0 := h.resolve_left (Nat.not_lt.mpr hle)
    rw [lineOf, bytePos_insertAt_after hp hp' hle, hc, Nat.add_zero]
  case isFalse hstays =>
    rcases h with hlt | hc
    · exact bytePos_insertAt_before hp' (Nat.le_of_lt hlt)
    · exact bytePos_insertAt_before hp' (by omega)

theorem Traced.insert (h : Traced b drift) (pos : Nat) (c : List Emchar) (before : Bool) :
    Traced (b.bufferInsertString1 pos c before) (b.insertDrift pos c drift) := by
  obtain ⟨hlo, hhi⟩ := h.valid.clip pos
  obtain ⟨htext, hbegv, hzv, hcache, hring⟩ := b.bufferInsertString1_spec pos c before
  have hone := h.valid.one_le_begv
  have hend := h.valid.zv_le_end
  have hlen : (b.bufferInsertString1 pos c before).text.length = b.text.length + c.length := by
    rw [htext, length_insertAt]
  refine ⟨⟨by omega, by omega, by omega, valid_moved hring ?_, ?_⟩,
    drift_of_moved (b := b) hring ?_ ?_ ?_⟩
  · intro pair hpair
    have := h.valid.marker pair (mem_keptByInsert hpair).1
    unfold insertMoves
    split <;> omega
  · rw [hcache]
    exact h.valid.begvLine
  · rw [h.drift_eq, insertDrift, keptByInsert]
    split
    · exact b.removeDrift_map _ _
    · rfl
  · intro pair hpair
    rw [htext]
    exact lineOf_insertMoves before (by omega) (by omega) (mem_keptByInsert hpair).2
  · rw [htext, hbegv]
    exact bytePos_insertAt_before (by omega) hlo

/-- The entries a deletion leaves. -/
def keptByDelete (b : LineBuffer) (start stop : Nat) : List RingPair :=
  if b.deleteInvalidates start stop then b.ring.filter fun pair => !(pair.marker ≥ start)
  else b.ring

theorem mem_keptByDelete {start stop : Nat} {pair : RingPair}
    (h : pair ∈ b.keptByDelete start stop) :
    pair ∈ b.ring ∧ (pair.marker < start ∨ newlines (between b.text start stop) = 0) := by
  unfold keptByDelete at h
  split at h
  case isTrue =>
    obtain ⟨hmem, hlt⟩ := List.mem_filter.mp h
    exact ⟨hmem, .inl (by simpa using hlt)⟩
  case isFalse hinv =>
    refine ⟨h, .inr (newlines_eq_zero ?_)⟩
    rw [deleteInvalidates, Bool.not_eq_true, Bool.or_eq_false_iff] at hinv
    exact hinv.2

theorem bufferDeleteRange_spec (h : b.Valid) (start stop : Nat) (drift : List Int) :
    (b.bufferDeleteRange start stop = b ∧ b.deleteDrift start stop drift = drift) ∨
      ∃ a c, b.begv ≤ a ∧ a < c ∧ c ≤ b.zv ∧
        let b' := b.bufferDeleteRange start stop
        b'.text = deleteRange b.text a c ∧ b'.begv = b.begv ∧ b'.zv = b.zv - (c - a) ∧
        b'.cache.map LineNumberCache.begvLine = b.cache.map LineNumberCache.begvLine ∧
        b'.ring = (b.keptByDelete a c).map (fun pair =>
          { pair with marker := deleteMoves a c pair.marker }) ∧
        b.deleteDrift start stop drift
          = if b.deleteInvalidates a c then b.removeDrift a drift else drift := by
  have hle := h.begv_le_zv
  unfold bufferDeleteRange deleteDrift
  generalize ha : (if start < b.begv then b.begv else start) = a
  generalize hc : (if stop > b.zv then b.zv else stop) = c
  simp only
  by_cases hca : c ≤ a
  · exact .inl ⟨if_pos hca, if_pos hca⟩
  · refine .inr ⟨a, c, ?_, Nat.not_le.mp hca, ?_, ?_⟩
    · rw [← ha]
      split <;> omega
    · rw [← hc]
      split <;> omega
    · rw [if_neg hca, if_neg hca]
      unfold deleteInvalidateLineNumberCache keptByDelete
      refine ⟨?_, ?_, ?_, ?_, ?_, rfl⟩
      · split <;> rfl
      · split <;> rfl
      · split <;> rfl
      · rw [moveMarkers, begvLine_mapRing]
        split
        · exact b.begvLine_mapRing _
        · rfl
      · rw [ring_moveMarkers]
        congr 1
        split
        · exact b.ring_invalidate _
        · rfl

theorem lineOf_deleteMoves {text : List Emchar} {a c m : Nat} (ha : 1 ≤ a) (hac : a < c)
    (hc : c ≤ text.length + 1) (h : m < a ∨ newlines (between text a c) = 0) :
    lineOf (deleteRange text a c) (deleteMoves a c m) = lineOf text m := by
  have hle : a ≤ c := Nat.le_of_lt hac
  have hsplit : lineOf text c = lineOf text a + newlines (between text a c) :=
    bytePos_eq_add_between text ha hle
  unfold deleteMoves
  split
  case isTrue hma => exact bytePos_deleteRange_before (by omega) hma
  case isFalse hma =>
    have hnone := h.resolve_left (by omega)
    split
    case isTrue hmc =>
      -- no newline between the start of the deletion and the marker
      have h₁ : lineOf text a ≤ lineOf text m := bytePos_mono text (by omega)
      have h₂ : lineOf text m ≤ lineOf text c := bytePos_mono text hmc
      have h₃ : lineOf (deleteRange text a c) a = lineOf text a :=
        bytePos_deleteRange_before (by omega) (Nat.le_refl a)
      omega
    case isFalse hmc =>
      have hmoved : lineOf (deleteRange text a c) (m - (c - a))
          + (lineOf text c - lineOf text a) = lineOf text m :=
        bytePos_deleteRange_after ha hle hc (by omega)
      omega

theorem Traced.delete (h : Traced b drift) (start stop : Nat) :
    Traced (b.bufferDeleteRange start stop) (b.deleteDrift start stop drift) := by
  rcases bufferDeleteRange_spec h.valid start stop drift with ⟨heq, hdrift⟩ |
    ⟨a, c, hlo, hac, hhi, htext, hbegv, hzv, hcache, hring, hdrift⟩
  · rw [heq, hdrift]
    exact h
  have hone := h.valid.one_le_begv
  have hend := h.valid.zv_le_end
  have hlen : (b.bufferDeleteRange start stop).text.length = b.text.length - (c - a) := by
    rw [htext, length_deleteRange (by omega) (by omega) (by omega)]
  rw [hdrift]
  refine ⟨⟨by omega, by omega, by omega, valid_moved hring ?_, ?_⟩,
    drift_of_moved (b := b) hring ?_ ?_ ?_⟩
  · intro pair hpair
    have := h.valid.marker pair (mem_keptByDelete hpair).1
    unfold deleteMoves
    split
    · omega
    · split <;> omega
  · rw [hcache]
    exact h.valid.begvLine
  · rw [h.drift_eq, keptByDelete]
    split
    · exact b.removeDrift_map _ _
    · rfl
  · intro pair hpair
    rw [htext]
    exact lineOf_deleteMoves (by omega) hac (by omega) (mem_keptByDelete hpair).2
  · rw [htext, hbegv]
    exact bytePos_deleteRange_before (by omega) hlo

theorem Traced.setChar (h : Traced b drift) {pos : Nat} {cur : Emchar}
    (hlo : b.begv ≤ pos) (hcur : b.text[pos - 1]? = some cur) (ch : Emchar) :
    Traced (b.setChar pos ch) (b.setDrift pos cur ch drift) := by
  have hpos : 1 ≤ pos := Nat.le_trans h.valid.one_le_begv hlo
  have hlen : (b.setChar pos ch).text.length = b.text.length := length_set
  have hline : ∀ x, lineOf (b.setChar pos ch).text x
      + (if pos < x then newlineWeight cur else 0)
        = lineOf b.text x + (if pos < x then newlineWeight ch else 0) :=
    bytePos_set ch hpos hcur
  refine ⟨⟨h.valid.one_le_begv, h.valid.begv_le_zv, ?_, fun pair hpair => ?_,
    h.valid.begvLine⟩, ?_⟩
  · rw [hlen]
    exact h.valid.zv_le_end
  · rw [hlen]
    exact h.valid.marker pair hpair
  · rw [setDrift, h.drift_eq, ← map_prod_left_eq_zip, map_map]
    refine map_congr_left fun pair _ => ?_
    have hmarker := hline pair.marker
    have hbegv : lineOf (b.setChar pos ch).text b.begv = lineOf b.text b.begv := by
      have := hline b.begv
      rwa [if_neg (Nat.not_lt.mpr hlo), if_neg (Nat.not_lt.mpr hlo)] at this
    show (if pos < pair.marker then b.driftOf pair + newlineWeight ch - newlineWeight cur
        else b.driftOf pair) = (lineOf (b.setChar pos ch).text pair.marker : Int)
        - lineOf (b.setChar pos ch).text b.begv - pair.line
    rw [hbegv, driftOf]
    split
    case isTrue hlt =>
      rw [if_pos hlt, if_pos hlt] at hmarker
      omega
    case isFalse hge =>
      rw [if_neg hge, if_neg hge] at hmarker
      omega

theorem Traced.replaceChar (h : Traced b drift) {pos : Nat} (hlo : b.begv ≤ pos)
    (ch : Emchar) (atPoint : Bool) :
    Traced (b.bufferReplaceChar pos ch atPoint) (b.replaceDrift pos ch atPoint drift) := by
  unfold bufferReplaceChar replaceDrift
  cases hcur : b.text[pos - 1]? with
  | none => exact h
  | some cur =>
    simp only
    split
    case isTrue => exact h.setChar hlo hcur ch
    case isFalse =>
      have hdeleted := h.delete pos (pos + 1)
      generalize (if pos ≥ (b.bufferDeleteRange pos (pos + 1)).zv then _ else pos) = pos'
      split
      · exact hdeleted
      · exact hdeleted.insert _ [ch] false

theorem Traced.reclip (h : Traced b drift) {b' : LineBuffer} (htext : b'.text = b.text)
    (hring : b'.ring = b.ring)
    (hline : ∀ line ∈ b'.cache.map LineNumberCache.begvLine, line = 0 ∨ line = -1)
    (hone : 1 ≤ b'.begv) (hle : b'.begv ≤ b'.zv) (hend : b'.zv ≤ b.text.length + 1) :
    Traced b' (b.clipDrift b'.begv drift) := by
  refine ⟨⟨hone, hle, htext ▸ hend, ?_, hline⟩, ?_⟩
  · rw [hring, htext]
    exact h.valid.marker
  · rw [clipDrift, h.drift_eq, hring, map_map]
    refine map_congr_left fun pair _ => ?_
    show b.driftOf pair + scanLines b.text b'.begv b.begv = b'.driftOf pair
    rw [scanLines_eq b.text hone h.valid.one_le_begv, driftOf, driftOf, htext]
    omega

theorem narrowLineNumberCache_spec (b : LineBuffer) :
    b.narrowLineNumberCache.ring = b.ring ∧
      ∀ line ∈ b.narrowLineNumberCache.cache.map LineNumberCache.begvLine,
        line = 0 ∨ line = -1 := by
  obtain ⟨text, begv, zv, cache⟩ := b
  cases cache with
  | none => exact ⟨rfl, fun line h => nomatch h⟩
  | some cache =>
    refine ⟨rfl, fun line h => ?_⟩
    obtain rfl := Option.some.inj h
    show (if 1 = begv then (0 : Int) else -1) = 0 ∨ (if 1 = begv then (0 : Int) else -1) = -1
    split
    · exact .inl rfl
    · exact .inr rfl

theorem Traced.narrow (h : Traced b drift) (start stop : Nat) :
    Traced (b.narrowToRegion start stop)
      (b.clipDrift (b.narrowToRegion start stop).begv drift) := by
  have hsame : Traced b (b.clipDrift b.begv drift) :=
    h.reclip rfl rfl h.valid.begvLine h.valid.one_le_begv h.valid.begv_le_zv h.valid.zv_le_end
  unfold narrowToRegion
  simp only
  split
  case isTrue hrange =>
    obtain ⟨hring, hline⟩ :=
      (b.setClip (min start stop) (max start stop)).narrowLineNumberCache_spec
    exact h.reclip rfl hring hline hrange.1 (show min start stop ≤ max start stop by omega)
      hrange.2
  case isFalse => exact hsame

theorem Traced.widen (h : Traced b drift) (clipChanged : Bool) :
    Traced (b.widenBuffer clipChanged)
      (b.clipDrift (b.widenBuffer clipChanged).begv drift) := by
  obtain ⟨hring, hline⟩ := (b.setClip 1 b.z).narrowLineNumberCache_spec
  unfold widenBuffer
  simp only
  split
  · exact h.reclip rfl hring hline (Nat.le_refl 1) (Nat.le_add_left 1 _) (Nat.le_refl _)
  · exact h.reclip rfl rfl h.valid.begvLine (Nat.le_refl 1) (Nat.le_add_left 1 _)
      (Nat.le_refl _)

theorem Traced.restore (h : Traced b drift) (newhead newtail : Nat) :
    Traced (b.saveRestrictionRestore newhead newtail)
      (b.clipDrift (b.saveRestrictionRestore newhead newtail).begv drift) := by
  obtain ⟨hone, hle, hend⟩ : 1 ≤ (b.restoredRegion newhead newtail).1 ∧
      (b.restoredRegion newhead newtail).1 ≤ (b.restoredRegion newhead newtail).2 ∧
      (b.restoredRegion newhead newtail).2 ≤ b.text.length + 1 := by
    unfold restoredRegion z
    split
    · exact ⟨Nat.le_refl 1, Nat.le_add_left 1 _, Nat.le_refl _⟩
    · refine ⟨Nat.le_add_right 1 _, ?_, Nat.sub_le _ _⟩
      show 1 + newhead ≤ b.text.length + 1 - newtail
      omega
  obtain ⟨hring, hline⟩ := (b.setClip (b.restoredRegion newhead newtail).1
    (b.restoredRegion newhead newtail).2).narrowLineNumberCache_spec
  unfold saveRestrictionRestore
  simp only
  split
  · exact h.reclip rfl hring hline hone hle hend
  · exact h.reclip rfl rfl h.valid.begvLine hone hle hend

end Operations

/-! ## Queries -/

section Queries

variable {b : LineBuffer} {drift : List Int} {pos : Nat}

theorem Valid.uncachedLineNumber (h : b.Valid) (hpos : 1 ≤ pos) :
    b.uncachedLineNumber pos = lineOf b.text pos - lineOf b.text b.begv :=
  scanLines_eq b.text h.one_le_begv hpos

theorem Valid.withBegvLine (h : b.Valid) :
    b.withBegvLine = { b with cache := some ⟨b.ring, 0⟩ } := by
  obtain ⟨text, begv, zv, cache⟩ := b
  have hself : ∀ cache,
      (LineBuffer.mk text begv zv cache).uncachedLineNumber begv = 0 := by
    intro cache
    show scanLines text begv begv = 0
    rw [scanLines_eq text h.one_le_begv h.one_le_begv]
    omega
  have hline := h.begvLine
  unfold LineBuffer.withBegvLine
  cases cache with
  | none =>
    by_cases hbegv : 1 = begv <;>
      simp [allocateLineNumberCache, narrowLineNumberCache, ring, hbegv, hself]
  | some cache =>
    obtain ⟨ring, line⟩ := cache
    rcases hline line rfl with rfl | rfl
    · rfl
    · simp [LineBuffer.ring, hself]

theorem driftOf_begv (b : LineBuffer) : b.driftOf ⟨b.begv, 0⟩ = 0 := by
  show (lineOf b.text b.begv : Int) - lineOf b.text b.begv - 0 = 0
  omega

theorem getNearestLineNumber_mem (ring : List RingPair) (beg pos : Nat) (line : Int) :
    getNearestLineNumber ring beg pos line = ⟨beg, line⟩ ∨
      getNearestLineNumber ring beg pos line ∈ ring := by
  unfold getNearestLineNumber
  generalize (⟨beg, line⟩ : RingPair) = known
  induction ring generalizing known with
  | nil => exact .inl rfl
  | cons pair ring ih =>
    rw [foldl_cons]
    rcases ih (if howFar pair.marker pos < howFar known.marker pos then pair else known)
      with heq | hmem
    · rw [heq]
      split
      · exact .inr (mem_cons_self ..)
      · exact .inl rfl
    · exact .inr (mem_cons_of_mem _ hmem)

theorem foldl_nearest (g : RingPair → Int) (pos : Nat) (ring : List RingPair)
    (known : RingPair) :
    ring.foldl (fun known pair =>
      if howFar pair.marker pos < howFar known.1.marker pos then (pair, g pair) else known)
        (known, g known)
      = (ring.foldl (fun known pair =>
          if howFar pair.marker pos < howFar known.marker pos then pair else known) known,
        g (ring.foldl (fun known pair =>
          if howFar pair.marker pos < howFar known.marker pos then pair else known) known)) := by
  induction ring generalizing known with
  | nil => rfl
  | cons pair ring ih =>
    rw [foldl_cons, foldl_cons, ← ih]
    congr 1
    split <;> rfl

theorem Traced.nearestDrift (h : Traced b drift) (pos : Nat) :
    b.nearestDrift drift pos = (getNearestLineNumber b.ring b.begv pos 0,
      b.driftOf (getNearestLineNumber b.ring b.begv pos 0)) := by
  have hbegv : ((⟨b.begv, 0⟩ : RingPair), (0 : Int)) = (⟨b.begv, 0⟩, b.driftOf ⟨b.begv, 0⟩) := by
    rw [driftOf_begv]
  rw [LineBuffer.nearestDrift, h.drift_eq, ← map_prod_left_eq_zip, foldl_map, hbegv]
  exact foldl_nearest b.driftOf pos b.ring ⟨b.begv, 0⟩

/-- **A far query** is wrong by the drift of the nearest known position, and so is the
line it caches. -/
theorem Traced.bufferLineNumber (h : Traced b drift) (hlo : b.begv ≤ pos) (hhi : pos ≤ b.zv)
    (hfar : ¬ howFar pos b.begv ≤ lineNumberFar) :
    (b.bufferLineNumber pos true).1
        = lineOf b.text pos - lineOf b.text b.begv - (b.nearestDrift drift pos).2 ∧
      Traced (b.bufferLineNumber pos true).2 (b.queryDrift pos true drift) := by
  have hone := h.valid.one_le_begv
  have hpos : 1 ≤ pos := Nat.le_trans hone hlo
  unfold LineBuffer.bufferLineNumber queryDrift
  rw [if_pos ⟨rfl, hfar⟩, h.valid.withBegvLine, h.nearestDrift pos]
  generalize hk : getNearestLineNumber b.ring b.begv pos 0 = known
  have hmarker : 1 ≤ known.marker := by
    rcases getNearestLineNumber_mem b.ring b.begv pos 0 with heq | hmem
    · rw [← hk, heq]
      exact hone
    · exact hk ▸ (h.valid.marker _ hmem).1
  have hline : scanLines b.text known.marker pos + known.line
      = lineOf b.text pos - lineOf b.text b.begv - b.driftOf known := by
    rw [scanLines_eq b.text hmarker hpos, driftOf]
    omega
  have hbegvLine : ({ b with cache := some ⟨b.ring, 0⟩ } : LineBuffer).begvLine = 0 := rfl
  have hring : ({ b with cache := some ⟨b.ring, 0⟩ } : LineBuffer).ring = b.ring := rfl
  simp only [hbegvLine, hring, hk, hline]
  have hvalid : ∀ line ∈ some (0 : Int), line = 0 ∨ line = -1 :=
    fun line h => .inl (Option.some.inj h).symm
  split
  case isTrue hcached =>
    rw [if_pos ⟨trivial, hfar, hcached⟩]
    refine ⟨Int.sub_zero _, ⟨hone, h.valid.begv_le_zv, h.valid.zv_le_end, ?_, hvalid⟩, ?_⟩
    · intro pair hpair
      rcases List.mem_cons.mp hpair with rfl | hpair
      · exact ⟨hpos, Nat.le_trans hhi h.valid.zv_le_end⟩
      · exact h.valid.marker pair (mem_of_mem_take hpair)
    · -- the new entry has the drift of the one it was computed from
      rw [h.drift_eq, ← map_take]
      refine congrArg (fun d => d :: _) ?_
      show _ = (lineOf b.text pos : Int) - lineOf b.text b.begv
        - (lineOf b.text pos - lineOf b.text b.begv - b.driftOf known)
      omega
  case isFalse hnear =>
    rw [if_neg fun hcached => hnear hcached.2.2]
    exact ⟨Int.sub_zero _, ⟨hone, h.valid.begv_le_zv, h.valid.zv_le_end, h.valid.marker, hvalid⟩,
      h.drift_eq⟩

end Queries

/-! ## Histories -/

section Histories

variable {b : LineBuffer} {drift : List Int}

/-- **Every operation** keeps the drifts those of the ring. -/
theorem Traced.run (h : Traced b drift) (op : LineOp) :
    Traced (op.run b) (op.drift b drift) := by
  cases op with
  | insert pos c before => exact h.insert pos c before
  | delete start stop => exact h.delete start stop
  | replaceChar pos ch atPoint =>
    simp only [LineOp.run, LineOp.drift]
    split
    case isTrue hpos => exact h.replaceChar hpos.1 ch atPoint
    case isFalse => exact h
  | narrow start stop => exact h.narrow start stop
  | widen clipChanged => exact h.widen clipChanged
  | restore newhead newtail => exact h.restore newhead newtail
  | lineNumber pos cachep =>
    simp only [LineOp.run, LineOp.drift]
    split
    case isTrue hpos =>
      by_cases hfar : cachep ∧ ¬ howFar pos b.begv ≤ lineNumberFar
      · obtain ⟨rfl, hfar⟩ := hfar
        exact (h.bufferLineNumber hpos.1 hpos.2 hfar).2
      · rw [LineBuffer.bufferLineNumber, if_neg hfar, queryDrift,
          if_neg fun hcached => hfar ⟨hcached.1, hcached.2.1⟩]
        exact h
    case isFalse => exact h

theorem traced_fresh (text : List Emchar) : Traced (fresh text) [] :=
  ⟨⟨Nat.le_refl 1, Nat.le_add_left 1 _, Nat.le_refl _, fun _ h => absurd h not_mem_nil,
    fun _ h => nomatch h⟩, rfl⟩

theorem Traced.history (h : Traced b drift) (l : List LineOp) :
    Traced (l.foldl LineOp.run b) (driftAfter b drift l) := by
  induction l generalizing b drift with
  | nil => exact h
  | cons op l ih => exact ih (h.run op)

/-- A cached query gives the number of newlines between `BEGV` and `pos`, as one without
the cache does. -/
def Agrees (b : LineBuffer) (pos : Nat) : Prop :=
  (b.bufferLineNumber pos true).1 = newlines (between b.text b.begv pos) ∧
    (b.bufferLineNumber pos true).1 = (b.bufferLineNumber pos false).1

/-- **When the line-number cache agrees with counting**: after any history, a query for an
accessible position does if and only if the nearest known position has no drift, or the
position is not far. -/
theorem lineNumber_agrees_iff (text : List Emchar) (l : List LineOp) {pos : Nat}
    (hlo : (history text l).begv ≤ pos) (hhi : pos ≤ (history text l).zv) :
    (history text l).Agrees pos ↔
      (history text l).usedDrift (driftAfter (fresh text) [] l) pos = 0 := by
  have h : Traced (history text l) (driftAfter (fresh text) [] l) :=
    (traced_fresh text).history l
  generalize LineBuffer.history text l = b at *
  generalize driftAfter (fresh text) [] l = drift at *
  have hone := h.valid.one_le_begv
  have hpos : 1 ≤ pos := Nat.le_trans hone hlo
  have hcount : lineOf b.text pos = lineOf b.text b.begv + newlines (between b.text b.begv pos) :=
    bytePos_eq_add_between b.text hone hlo
  have huncached : (b.bufferLineNumber pos false).1
      = lineOf b.text pos - lineOf b.text b.begv := by
    rw [LineBuffer.bufferLineNumber, if_neg fun hc => Bool.false_ne_true hc.1]
    exact h.valid.uncachedLineNumber hpos
  rw [Agrees, huncached]
  by_cases hfar : howFar pos b.begv ≤ lineNumberFar
  · have hcached : (b.bufferLineNumber pos true).1
        = lineOf b.text pos - lineOf b.text b.begv := by
      rw [LineBuffer.bufferLineNumber, if_neg fun hc => hc.2 hfar]
      exact h.valid.uncachedLineNumber hpos
    rw [usedDrift, if_pos hfar, hcached]
    refine iff_of_true ⟨?_, rfl⟩ rfl
    omega
  · rw [usedDrift, if_neg hfar, (h.bufferLineNumber hlo hhi hfar).1]
    omega

end Histories

/-- An insertion of a newline, narrowing behind it and a query. -/
theorem lineNumber_agrees_narrowed :
    (history [letterA] [.insert 1 [newlineChar] false, .narrow 2 3]).Agrees 3 :=
  (lineNumber_agrees_iff _ _ (by decide) (by decide)).mpr (by decide)

theorem newlines_replicate (k : Nat) : newlines (List.replicate k letterA) = 0 := by
  refine newlines_eq_zero ?_
  rw [any_replicate]
  split
  · rfl
  · rfl

theorem between_all (text : List Emchar) : between text 1 (text.length + 1) = text := by
  rw [between, Nat.sub_self, drop_zero, Nat.add_sub_cancel, take_length]

theorem fresh_cached {text : List Emchar} (hfar : lineNumberFar < text.length) :
    (LineOp.lineNumber (text.length + 1) true).run (fresh text)
      = { fresh text with
          cache := some ⟨[⟨text.length + 1, newlines text⟩], 0⟩ } := by
  have hdist : howFar (text.length + 1) 1 = text.length := by
    rw [howFar, if_neg (by omega), Nat.add_sub_cancel]
  have hscan : scanLines text 1 (text.length + 1) = newlines text := by
    rw [scanLines, if_pos (by omega), between_all]
  have hfar' : howFar (text.length + 1) 1 > lineNumberFar := hdist ▸ hfar
  show (if 1 ≤ text.length + 1 ∧ text.length + 1 ≤ text.length + 1 then
    ((fresh text).bufferLineNumber (text.length + 1) true).2 else _) = _
  rw [if_pos ⟨Nat.le_add_left 1 _, Nat.le_refl _⟩, LineBuffer.bufferLineNumber,
    if_pos ⟨rfl, Nat.not_le.mpr hfar'⟩, (traced_fresh text).valid.withBegvLine]
  show (if howFar (text.length + 1) 1 > lineNumberFar then LineBuffer.addPositionToCache _ _
    (scanLines text 1 (text.length + 1) + 0) else _) = _
  rw [if_pos hfar', hscan, Int.add_zero]
  rfl

/-- A newline and a long line: the newline is replaced in place, and the line of the end
stays cached. -/
theorem replaced_not_agrees : ¬ (history (newlineChar :: List.replicate 16384 letterA)
    [.lineNumber 16386 true, .replaceChar 1 letterA false]).Agrees 16386 := by
  generalize hk : 16384 = k
  have hlen : (newlineChar :: List.replicate k letterA).length = k + 1 := by
    rw [List.length_cons, List.length_replicate]
  have hfar : lineNumberFar < (newlineChar :: List.replicate k letterA).length := by
    rw [hlen, lineNumberFar]
    omega
  have hcached := fresh_cached hfar
  have hnewlines : newlines (newlineChar :: List.replicate k letterA) = 1 := by
    rw [newlines, byteLength_cons]
    show 1 + newlines _ = 1
    rw [newlines_replicate]
  rw [hlen, hnewlines, show k + 1 + 1 = 16386 by omega] at hcached
  -- the text after the replacement, with the ring from before it
  have hreplaced : history (newlineChar :: List.replicate k letterA)
      [.lineNumber 16386 true, .replaceChar 1 letterA false]
      = ⟨letterA :: List.replicate k letterA, 1, k + 2, some ⟨[⟨16386, 1⟩], 0⟩⟩ := by
    rw [history, List.foldl_cons, List.foldl_cons, List.foldl_nil, hcached]
    have hzv : (fresh (newlineChar :: List.replicate k letterA)).zv = k + 2 :=
      congrArg (fun n => n + 1) hlen
    simp only [hzv, LineOp.run]
    rw [if_pos ⟨Nat.le_refl 1, show 1 < k + 2 by omega⟩]
    rfl
  rw [hreplaced]
  rintro ⟨hcount, -⟩
  have hnone : newlines (between (letterA :: List.replicate k letterA) 1 16386) = 0 := by
    rw [between, show 16386 - 1 = (letterA :: List.replicate k letterA).length by
      rw [List.length_cons, List.length_replicate]; omega, Nat.sub_self, List.drop_zero,
      List.take_length, ← List.replicate_succ, newlines_replicate]
  have hself : scanLines (letterA :: List.replicate k letterA) 16386 16386 = 0 := by
    rw [scanLines_eq _ (by decide) (by decide)]
    omega
  rw [hnone] at hcount
  exact absurd (hcount.symm.trans (congrArg (fun n => n + 1 - 0) hself)) (by decide)

end LineBuffer

end XEmacs.Buffer
