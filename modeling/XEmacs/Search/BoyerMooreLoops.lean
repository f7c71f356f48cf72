import XEmacs.Search.BoyerMoore

/-!
# The loops of a Boyer-Moore search (search.c)

A search counts the bytes from its start on, in its direction; a candidate is the place where the
far end of the pattern would be.
-/

namespace XEmacs.TextSearch

open BoyerMoore BytePositions ByteMemory Buffer Machines List

namespace SearchBuffer

variable {b : SearchBuffer}

/-! ## The loops over a clump -/

/-- What a search for the bytes `q`, counted in its direction, knows: `text` are the bytes at
its candidates, `place` the positions of these, and `count` of them are before the limit. -/
structure Scene (call : BmCall) (q : List Bufbyte) (text : Nat → Bufbyte) (place : Nat → ℤ)
    (count : Nat) : Prop where
  direction : call.direction = 1 ∨ call.direction = -1
  nonempty : q ≠ []
  pat : call.pat = q
  len : call.len = q.length
  bmTab : ∀ x, call.table.bmTab x = if x = q.getLast nonempty then call.infinity
    else (stride q x : ℤ) * call.direction
  tease : call.table.strideForTeases = (stride q (q.getLast nonempty) : ℤ) * call.direction
  infinity : (count : ℤ) + q.length < call.infinity * call.direction
  place_eq : ∀ c : Nat, place c = place 0 + c * call.direction
  passed : ∀ c, (call.lim - place c - if 0 < call.direction then 1 else 0) * call.direction < 0 ↔
    count ≤ c

/-- The loops over the candidates from `first` to `last`, by pointers or by positions. -/
structure Clump (b : SearchBuffer) (call : BmCall) (q : List Bufbyte) (text : Nat → Bufbyte)
    (place : Nat → ℤ) (pointers : Bool) (pos limit : ℤ) (first last : Nat) (cursor : Nat → ℤ) :
    Prop where
  cursor_eq : ∀ c : Nat, cursor c = cursor 0 + c * call.direction
  limit_eq : limit = cursor last
  position : ∀ c, b.positionOf pointers pos (cursor c) = place c
  fetch : ∀ c, first < c + q.length → c ≤ last → b.fetchByte pointers (cursor c) = text c

/-- The candidates that are matches. -/
def IsHit (q : List Bufbyte) (text : Nat → Bufbyte) (count c : Nat) : Prop :=
  c < count ∧ EndsAt text q c

/-- The registers for a match with its far end at a position. -/
def boundsAt (b : SearchBuffer) (call : BmCall) (pos : ℤ) : Nat × Nat :=
  let bytstart := pos + if 0 < call.direction then 1 - call.len else 0
  (b.bytindToBufpos bytstart.toNat, b.bytindToBufpos (bytstart + call.len).toNat)

/-- What a search for `n` matches comes to that takes these. -/
def tally (b : SearchBuffer) (call : BmCall) : Nat → List ℤ → Option (Nat × Nat) → Found
  | n, [], regs => ⟨-n, regs⟩
  | n, pos :: places, _ =>
    let bounds := b.boundsAt call pos
    if n = 1 then ⟨if 0 < call.direction then bounds.2 else bounds.1, some bounds⟩
    else b.tally call (n - 1) places (some bounds)

section Loops

variable {call : BmCall} {q : List Bufbyte} {text : Nat → Bufbyte} {place : Nat → ℤ}
  {count : Nat} {pointers : Bool} {pos limit : ℤ} {first last : Nat} {cursor : Nat → ℤ}

theorem Scene.mul_self (h : Scene call q text place count) :
    call.direction * call.direction = 1 := by
  obtain hd | hd := h.direction <;> rw [hd] <;> rfl

theorem Clump.sub (hs : Scene call q text place count)
    (hc : Clump b call q text place pointers pos limit first last cursor) (c c' : Nat) :
    (cursor c' - cursor c) * call.direction = c' - c := by
  rw [hc.cursor_eq c', hc.cursor_eq c, add_sub_add_left_eq_sub, ← sub_mul, mul_assoc,
    hs.mul_self, mul_one]

theorem Clump.add (hc : Clump b call q text place pointers pos limit first last cursor)
    (c k : Nat) : cursor c + k * call.direction = cursor (c + k) := by
  rw [hc.cursor_eq c, hc.cursor_eq (c + k), Nat.cast_add, add_mul, add_assoc]

theorem compareLoop_hit (hs : Scene call q text place count)
    (hc : Clump b call q text place pointers pos limit first last cursor) {c : Nat}
    (hfirst : first ≤ c) (hlen : q.length ≤ first + 1) (hlast : c ≤ last)
    (hbyte : text c = q.getLast hs.nonempty) :
    ∃ i back, compareLoop (b.fetchByte pointers) call.direction call.pat (call.len - 1).toNat
        (cursor c) = (i, back) ∧
      ((EndsAt text q c ∧ i + call.direction = 0 ∧
          back + (call.dirlen - i - call.direction) = cursor c + call.direction) ∨
        (¬ EndsAt text q c ∧ i + call.direction ≠ 0 ∧
          back + (call.dirlen - i - call.direction) = cursor c)) := by
  obtain ⟨k, hk⟩ : ∃ k, q.length = k + 1 :=
    ⟨q.length - 1, by have := List.length_pos_iff.mpr hs.nonempty; omega⟩
  have hlen' : (call.len - 1).toNat = k := by
    rw [hs.len, hk]
    omega
  have hdirlen : call.dirlen = k * call.direction + call.direction := by
    rw [BmCall.dirlen, hs.len, hk, Nat.cast_succ, add_one_mul]
  have hfetch : ∀ j < k, b.fetchByte pointers (cursor c - (k - j : Nat) * call.direction)
      = text (c + 1 - q.length + j) := by
    intro j hj
    have hadd := hc.add (c + 1 - q.length + j) (k - j)
    rw [show c + 1 - q.length + j + (k - j) = c by omega] at hadd
    rw [← hadd, add_sub_cancel_right, hc.fetch _ (by omega) (by omega)]
  have hget : ∀ j (hj : j < q.length), q.getD j 0 = q[j] := fun j hj => by
    rw [getD_eq_getElem?_getD, getElem?_eq_getElem hj, Option.getD_some]
  rw [hlen', hs.pat]
  obtain ⟨hloop, hsame⟩ | ⟨j, hj, hloop, hdiffer⟩ :=
    compareLoop_spec (b.fetchByte pointers) call.direction q k (cursor c)
  · refine ⟨_, _, hloop, .inl ⟨⟨by omega, fun j hj => ?_⟩, neg_add_cancel _, by omega⟩⟩
    obtain hlt | rfl := Nat.lt_or_eq_of_le (show j ≤ k by omega)
    · rw [← hfetch j hlt, ← hsame j hlt, hget]
    · rw [show c + 1 - q.length + j = c by omega, hbyte, getLast_eq_getElem]
      congr 1
      omega
  · refine ⟨_, _, hloop, .inr ⟨fun hends => hdiffer ?_, ?_, ?_⟩⟩
    · rw [hfetch j hj, hends.2 j (by omega), hget]
    · rw [← add_one_mul]
      obtain hd | hd := hs.direction <;> rw [hd] <;> omega
    · have hback : ((k - j : Nat) : ℤ) * call.direction
          = k * call.direction - j * call.direction := by
        rw [Nat.cast_sub (Nat.le_of_lt hj), sub_mul]
      omega

theorem bmStep_over (pointers : Bool) (pos : ℤ) {limit cur : ℤ} (n : ℤ)
    (regs : Option (Nat × Nat)) (hout : (limit - cur) * call.direction < 0) (hover : (cur - limit) * call.direction ≤ call.len) :
    b.bmStep call (.loops pointers pos limit cur n regs) =
      if (call.lim - b.positionOf pointers pos cur) * call.direction < 0 then
        .ok (.done ⟨(0 - n) * call.direction, regs⟩)
      else .ok (.next (.clump (b.positionOf pointers pos cur) n regs)) := by
  rw [bmStep, if_neg (not_le.mpr hout), if_pos hover]

theorem bmStep_hit (hs : Scene call q text place count)
    (hc : Clump b call q text place pointers pos limit first last cursor) {c : Nat} (n : ℤ)
    (regs : Option (Nat × Nat)) (hfirst : first ≤ c) (hlen : q.length ≤ first + 1)
    (hin : c ≤ last) (hlast : last < count) (hbyte : text c = q.getLast hs.nonempty) :
    (EndsAt text q c ∧
        b.bmStep call (.loops pointers pos limit (cursor c + call.infinity) n regs) =
          if n - call.direction ≠ 0 then
            .ok (.next (.loops pointers pos limit (cursor c + call.dirlen) (n - call.direction)
              (some (b.boundsAt call (place c)))))
          else
            .ok (.done ⟨if 0 < call.direction then (b.boundsAt call (place c)).2
              else (b.boundsAt call (place c)).1, some (b.boundsAt call (place c))⟩)) ∨
      (¬ EndsAt text q c ∧
        b.bmStep call (.loops pointers pos limit (cursor c + call.infinity) n regs) =
          .ok (.next (.loops pointers pos limit (cursor c + call.table.strideForTeases) n
            regs))) := by
  have hleft : (limit - (cursor c + call.infinity)) * call.direction < 0 := by
    have hsub := hc.sub hs c last
    have := hs.infinity
    rw [hc.limit_eq, ← sub_sub, sub_mul, hsub]
    omega
  have hover : ¬ (cursor c + call.infinity - limit) * call.direction ≤ call.len := by
    have hsub := hc.sub hs last c
    have := hs.infinity
    rw [hc.limit_eq, add_sub_right_comm, add_mul, hsub, hs.len]
    omega
  obtain ⟨i, back, hloop, ⟨hends, hi, hback⟩ | ⟨hends, hi, hback⟩⟩ :=
    compareLoop_hit hs hc hfirst hlen hin hbyte
  · refine .inl ⟨hends, ?_⟩
    rw [bmStep, if_neg (not_le.mpr hleft), if_neg hover]
    simp only [add_sub_cancel_right, hloop]
    rw [if_pos hi, hback, add_sub_cancel_right, hc.position]
    rfl
  · refine .inr ⟨hends, ?_⟩
    rw [bmStep, if_neg (not_le.mpr hleft), if_neg hover]
    simp only [add_sub_cancel_right, hloop]
    rw [if_neg hi, hback]

/-- The machine goes on to where the candidates lead. -/
theorem loops_ends (hs : Scene call q text place count)
    (hc : Clump b call q text place pointers pos limit first last cursor)
    (hlen : q.length ≤ first + 1) (hlast : last < count)
    (hclump : ∀ c n ds regs, last < c → 1 ≤ n → Taken (IsHit q text count) q.length c n ds →
      Ends (b.bmStep call) (.clump (place c) (n * call.direction) regs)
        (b.tally call n (ds.map place) regs)) {c n : Nat} {ds : List Nat}
    (regs : Option (Nat × Nat)) (hfirst : first ≤ c) (hend : c ≤ last + q.length) (hn : 1 ≤ n)
    (hds : Taken (IsHit q text count) q.length c n ds) :
    Ends (b.bmStep call) (.loops pointers pos limit (cursor c) (n * call.direction) regs)
      (b.tally call n (ds.map place) regs) := by
  have hpos := List.length_pos_iff.mpr hs.nonempty
  have hleft : (limit - cursor c) * call.direction = last - c := by
    rw [hc.limit_eq, hc.sub hs]
  have hover : (cursor c - limit) * call.direction = c - last := by
    rw [hc.limit_eq, hc.sub hs]
  induction hd : last + q.length + 1 - c using Nat.strongRecOn generalizing c n ds regs with
  | ind d ih =>
  subst hd
  by_cases hin : c ≤ last
  · -- a stride from a candidate in the clump
    have hgo : ∀ k, 1 ≤ k → k ≤ q.length → ∀ n ds regs, 1 ≤ n →
        Taken (IsHit q text count) q.length (c + k) n ds →
        Ends (b.bmStep call)
          (.loops pointers pos limit (cursor c + k * call.direction) (n * call.direction) regs)
          (b.tally call n (ds.map place) regs) := by
      intro k hk hk' n ds regs hn hds
      rw [hc.add]
      exact ih _ (by omega) regs (by omega) (by omega) hn hds (by rw [hc.limit_eq, hc.sub hs])
        (by rw [hc.limit_eq, hc.sub hs]) rfl
    have hskip : ¬ EndsAt text q c →
        Taken (IsHit q text count) q.length (c + stride q (text c)) n ds := by
      refine fun hnot => hds.skip (fun d hhit hcd => ?_) (Nat.le_add_right _ _)
      refine stride_le_of_endsAt hs.nonempty (Nat.lt_of_le_of_ne hcd ?_) hhit.2
      rintro rfl
      exact hnot hhit.2
    have hone := stride_pos q (text c)
    have hle := stride_le hs.nonempty (text c)
    have hstride : b.bmStep call (.loops pointers pos limit (cursor c) (n * call.direction) regs) =
        .ok (.next (.loops pointers pos limit (cursor c + call.table.bmTab (text c))
          (n * call.direction) regs)) := by
      rw [bmStep, if_pos (by omega), hc.fetch c (by omega) hin]
    by_cases hbyte : text c = q.getLast hs.nonempty
    · rw [hs.bmTab, if_pos hbyte] at hstride
      refine .next hstride ?_
      obtain ⟨hends, hhit⟩ | ⟨hends, hhit⟩ :=
        bmStep_hit hs hc (n * call.direction) regs hfirst hlen hin hlast hbyte
      · -- a match
        obtain ⟨n, rfl⟩ : ∃ k, n = k + 1 := ⟨n - 1, by omega⟩
        obtain ⟨ds', rfl, hds'⟩ := hds.of_hit ⟨by omega, hends⟩
        have hn' : ((n + 1 : Nat) : ℤ) * call.direction - call.direction = n * call.direction := by
          rw [Nat.cast_succ, add_one_mul, add_sub_cancel_right]
        rw [hn'] at hhit
        rw [map_cons, tally, Nat.add_sub_cancel]
        by_cases hzero : n = 0
        · subst hzero
          rw [Nat.cast_zero, zero_mul, if_neg (not_not.mpr rfl)] at hhit
          exact .done hhit
        · have hne : (n : ℤ) * call.direction ≠ 0 := by
            obtain hd | hd := hs.direction <;> rw [hd] <;> omega
          rw [if_pos hne, BmCall.dirlen, hs.len] at hhit
          refine .next hhit ?_
          rw [if_neg (by omega)]
          exact hgo q.length hpos (Nat.le_refl _) n ds' _ (by omega) hds'
      · -- a disappointment
        rw [hs.tease, ← hbyte] at hhit
        exact .next hhit (hgo _ hone hle n ds regs hn (hskip hends))
    · rw [hs.bmTab, if_neg hbyte] at hstride
      refine .next hstride (hgo _ hone hle n ds regs hn (hskip fun hends => hbyte ?_))
      exact hends.getLast hs.nonempty
  · have hstep := bmStep_over (b := b) pointers pos (n * call.direction) regs
      (show (limit - cursor c) * call.direction < 0 by omega)
      (show (cursor c - limit) * call.direction ≤ call.len by rw [hs.len]; omega)
    rw [hc.position] at hstep
    by_cases hpassed : (call.lim - place c) * call.direction < 0
    · have hcount : count ≤ c := by
        rw [← hs.passed]
        obtain hd | hd := hs.direction
        · rw [hd] at hpassed ⊢
          simp only [zero_lt_one, if_true]
          omega
        · rw [hd] at hpassed ⊢
          simp only [show ¬ (0 : ℤ) < -1 by decide, if_false]
          omega
      rw [hds.eq_nil fun d hcd hhit => absurd hhit.1 (by omega)]
      rw [if_pos hpassed, zero_sub, neg_mul, mul_assoc, hs.mul_self, mul_one] at hstep
      exact .done hstep
    · rw [if_neg hpassed] at hstep
      exact .next hstep (hclump c n ds regs (by omega) hn hds)

/-! ## The clumps -/

theorem clump_pointers (hs : Scene call q text place count)
    (htext : ∀ c, text c = b.byteAt (place c).toNat) (hle : first ≤ last)
    (haddress : ∀ c, first < c + q.length → c ≤ last →
      b.address (place c) = b.address (place first) + ((c : ℤ) - first) * call.direction) :
    Clump b call q text place true (place first) (b.address (place last)) first last
      fun c => b.address (place first) + ((c : ℤ) - first) * call.direction where
  cursor_eq c := by
    show _ + _ = _ + (((0 : Nat) : ℤ) - first) * call.direction + _
    rw [Nat.cast_zero, sub_mul, sub_mul]
    omega
  limit_eq := haddress last (by have := List.length_pos_iff.mpr hs.nonempty; omega)
    (Nat.le_refl last)
  position c := by
    rw [positionOf, if_pos rfl, add_sub_cancel_left, hs.place_eq c, hs.place_eq first, sub_mul]
    omega
  fetch c hc hc' := by
    rw [fetchByte, if_pos rfl, ← haddress c hc hc', address, Int.toNat_natCast, htext]
    rfl

theorem clump_positions (hs : Scene call q text place count)
    (htext : ∀ c, text c = b.byteAt (place c).toNat) :
    Clump b call q text place false (place first) (place last) first last place where
  cursor_eq := hs.place_eq
  limit_eq := rfl
  position _ := if_neg Bool.false_ne_true
  fetch c _ _ := by
    rw [fetchByte, if_neg Bool.false_ne_true, htext]
    rfl

/-- A candidate begins a clump: the machine goes on to the loops over it. -/
def BeginsClump (b : SearchBuffer) (call : BmCall) (q : List Bufbyte) (text : Nat → Bufbyte)
    (place : Nat → ℤ) (count c : Nat) : Prop :=
  ∀ n regs, n ≠ 0 → ∃ pointers limit last cursor,
    b.bmStep call (.clump (place c) n regs) =
        .ok (.next (.loops pointers (place c) limit (cursor c) n regs)) ∧
      Clump b call q text place pointers (place c) limit c last cursor ∧ c ≤ last ∧ last < count

theorem clump_ends (hs : Scene call q text place count)
    (hclump : ∀ c, q.length ≤ c + 1 → c < count → BeginsClump b call q text place count c)
    {c n : Nat} {ds : List Nat} (regs : Option (Nat × Nat)) (hc : q.length ≤ c + 1) (hn : 1 ≤ n)
    (hds : Taken (IsHit q text count) q.length c n ds) :
    Ends (b.bmStep call) (.clump (place c) (n * call.direction) regs)
      (b.tally call n (ds.map place) regs) := by
  have hne : (n : ℤ) * call.direction ≠ 0 := by
    obtain hd | hd := hs.direction <;> rw [hd] <;> omega
  induction hd : count - c using Nat.strongRecOn generalizing c n ds regs with
  | ind d ih =>
  subst hd
  by_cases hcount : c < count
  · obtain ⟨pointers, limit, last, cursor, hstep, hclump', hle, hlast⟩ :=
      hclump c hc hcount _ regs hne
    refine .next hstep (loops_ends hs hclump' hc hlast ?_ regs (Nat.le_refl c) (by omega) hn hds)
    intro c' n' ds' regs' hc' hn' hds'
    refine ih _ (by omega) regs' (by omega) hn' hds' ?_ rfl
    obtain hd | hd := hs.direction <;> rw [hd] <;> omega
  · rw [hds.eq_nil fun d hcd hhit => absurd hhit.1 (by omega)]
    have hstep : b.bmStep call (.clump (place c) (n * call.direction) regs) =
        .ok (.done ⟨n * call.direction * (0 - call.direction), regs⟩) := by
      rw [bmStep, if_neg hne, if_pos ((hs.passed c).mpr (Nat.not_lt.mp hcount))]
    rw [zero_sub, mul_neg, mul_assoc, hs.mul_self, mul_one] at hstep
    exact .done hstep

/-- What `boyer_moore` sets up. -/
theorem scene_bmCall {basePat : List Bufbyte} (h : basePat ≠ []) (start lim : Nat) (n : ℤ)
    (text : Nat → Bufbyte) (place : Nat → ℤ) (count : Nat) (hplace : ∀ c : Nat, place c = place 0 + c * (bmCall basePat start lim n).direction)
    (hpassed : ∀ c, (lim - place c - if 0 < (bmCall basePat start lim n).direction then 1 else 0)
      * (bmCall basePat start lim n).direction < 0 ↔ count ≤ c)
    (hcount : count < start + lim) :
    Scene (bmCall basePat start lim n) (bmCall basePat start lim n).pat text place count := by
  have hd : (bmCall basePat start lim n).direction = 1 ∨
      (bmCall basePat start lim n).direction = -1 := by
    show (if 0 < n then 1 else -1 : ℤ) = 1 ∨ (if 0 < n then 1 else -1 : ℤ) = -1
    split_ifs
    · exact .inl rfl
    · exact .inr rfl
  have hlength : (bmCall basePat start lim n).pat.length = basePat.length := by
    show (if (bmCall basePat start lim n).direction < 0 then basePat.reverse else basePat).length
      = _
    by_cases hneg : (bmCall basePat start lim n).direction < 0
    · rw [if_pos hneg, length_reverse]
    · rw [if_neg hneg]
  have hne : (bmCall basePat start lim n).pat ≠ [] := by
    refine List.length_pos_iff.mp ?_
    rw [hlength]
    exact List.length_pos_iff.mpr h
  have hinfinity : (bmCall basePat start lim n).infinity
      = (lim + start + basePat.length + basePat.length) * (bmCall basePat start lim n).direction :=
    sub_sub_cancel _ _
  obtain ⟨htab, htease⟩ := bmTable_spec (basePat.length * (bmCall basePat start lim n).direction
      - (bmCall basePat start lim n).infinity)
    (show (bmCall basePat start lim n).direction ≠ 0 by obtain hd | hd := hd <;> rw [hd] <;> decide) hne
  have htable : (bmCall basePat start lim n).table
      = bmTable (bmCall basePat start lim n).direction
          ((bmCall basePat start lim n).pat.length * (bmCall basePat start lim n).direction)
          (basePat.length * (bmCall basePat start lim n).direction
            - (bmCall basePat start lim n).infinity) (bmCall basePat start lim n).pat := by
    rw [hlength, hinfinity]
    rfl
  refine ⟨hd, hne, rfl, ?_, fun x => ?_, ?_, ?_, hplace, hpassed⟩
  · rw [hlength]
    rfl
  · rw [htable, htab, hlength, sub_sub_cancel]
  · rw [htable, htease]
  · have hdd : (bmCall basePat start lim n).direction * (bmCall basePat start lim n).direction
        = 1 := by
      obtain hd | hd := hd <;> rw [hd] <;> rfl
    rw [hinfinity, mul_assoc, hdd, mul_one, hlength]
    omega

end Loops

/-! ### Forward -/

theorem byteAddress_ceilingOf {x y : Nat} (hxy : x ≤ y) (hy : y < b.ceilingOf x) :
    b.byteAddress y + x = b.byteAddress x + y := by
  rw [ceilingOf] at hy
  rw [Gap.BufferText.byteAddress, Gap.BufferText.byteAddress]
  split_ifs at hy ⊢ <;> omega

theorem byteAddress_floorOf {x y z : Nat} (hx : b.floorOf z ≤ x) (hxy : x ≤ y) (hy : y < z) :
    b.byteAddress y + x = b.byteAddress x + y := by
  rw [floorOf] at hx
  rw [Gap.BufferText.byteAddress, Gap.BufferText.byteAddress]
  split_ifs at hx ⊢ <;> omega

section Forward

variable {basePat : List Bufbyte} {start lim : Nat} {n : ℤ}

theorem scene_forward (h : basePat ≠ []) (hn : 0 < n) (hstart : 1 ≤ start) :
    Scene (bmCall basePat start lim n) basePat (fun c => b.byteAt (start + c))
      (fun c => (start + c : Nat)) (lim - start) := by
  have hd : (bmCall basePat start lim n).direction = 1 := if_pos hn
  have hpat : (bmCall basePat start lim n).pat = basePat := by
    show (if (bmCall basePat start lim n).direction < 0 then _ else _) = _
    rw [hd]
    rfl
  have hscene := scene_bmCall h start lim n (fun c => b.byteAt (start + c))
    (fun c => (start + c : Nat)) (lim - start) (fun c => by rw [hd]; omega)
    (fun c => by rw [hd, if_pos zero_lt_one]; omega) (by omega)
  rwa [hpat] at hscene

theorem beginsClump_forward (h : basePat ≠ []) (hn : 0 < n) (hstart : 1 ≤ start)
    (hlim : lim ≤ b.biZv) {c : Nat} (hc : basePat.length ≤ c + 1) (hcount : c < lim - start) :
    BeginsClump b (bmCall basePat start lim n) basePat (fun c => b.byteAt (start + c))
      (fun c => (start + c : Nat)) (lim - start) c := by
  intro n' regs hn'
  have hs : Scene (bmCall basePat start lim n) basePat _ _ _ := scene_forward (b := b) h hn hstart
  have hpos := List.length_pos_iff.mpr h
  have hd : (bmCall basePat start lim n).direction = 1 := if_pos hn
  have hd' : (0 : ℤ) < 1 := zero_lt_one
  have hlim' : (bmCall basePat start lim n).lim = lim := rfl
  have hlen : (bmCall basePat start lim n).len = basePat.length := rfl
  have hdirlen : (bmCall basePat start lim n).dirlen = basePat.length := by
    rw [BmCall.dirlen, hd, hlen, mul_one]
  -- where the match would begin
  obtain ⟨σ, hσ⟩ : ∃ σ, σ + basePat.length = start + c + 1 := ⟨start + c + 1 - basePat.length, by omega⟩
  have hbegin : ((start + c : Nat) : ℤ) - basePat.length + 1 = σ := by omega
  have hceil : σ < b.ceilingOf σ := by
    rw [ceilingOf]
    split_ifs <;> omega
  have htop : ¬ ((lim : ℤ) - (start + c : Nat) - 1) * 1 < 0 := by omega
  obtain ⟨limit, hlimit⟩ : ∃ limit, limit = min ((lim : ℤ) - 1)
    (min ((b.ceilingOf σ : ℤ) - 1) ((start + c : Nat) + 20000)) := ⟨_, rfl⟩
  have hstep : b.bmStep (bmCall basePat start lim n) (.clump (start + c : Nat) n' regs) =
      if 20 < (limit - (start + c : Nat)) * 1 then
        .ok (.next (.loops true (start + c : Nat) (b.address limit) (b.address (start + c : Nat)) n'
          regs))
      else
        .ok (.next (.loops false (start + c : Nat)
          (min ((b.ceilingOf σ : ℤ) - 1 + basePat.length) (lim - 1)) (start + c : Nat) n'
            regs)) := by
    simp only [bmStep, hd, hlim', hdirlen, hlen, if_pos hd', if_neg hn', if_neg htop, hbegin,
      Int.toNat_natCast, hlimit]
  rw [hstep]
  by_cases hfar : 20 < (limit - (start + c : Nat)) * 1
  · obtain ⟨last, hlast⟩ : ∃ last : Nat, ((start + last : Nat) : ℤ) = limit :=
      ⟨(limit - start).toNat, by omega⟩
    refine ⟨true, _, last, _, ?_, clump_pointers hs (fun c => rfl) (by omega) ?_, by omega, by omega⟩
    · rw [if_pos hfar, ← hlast, sub_self, zero_mul, add_zero]
    · intro x hx hx'
      have hthere := byteAddress_ceilingOf (b := b) (x := σ) (y := start + x) (by omega) (by omega)
      have hhere := byteAddress_ceilingOf (b := b) (x := σ) (y := start + c) (by omega) (by omega)
      rw [hd, address, address, Int.toNat_natCast, Int.toNat_natCast]
      omega
  · obtain ⟨last, hlast⟩ : ∃ last : Nat, ((start + last : Nat) : ℤ)
        = min ((b.ceilingOf σ : ℤ) - 1 + basePat.length) (lim - 1) :=
      ⟨(min ((b.ceilingOf σ : ℤ) - 1 + basePat.length) (lim - 1) - start).toNat, by omega⟩
    refine ⟨false, _, last, _, ?_, clump_positions hs fun c => rfl, by omega, by omega⟩
    rw [if_neg hfar, ← hlast]

end Forward

/-! ### Backward -/

section Backward

variable {basePat : List Bufbyte} {start lim : Nat} {n : ℤ}

theorem scene_backward (h : basePat ≠ []) (hn : n < 0) (hstart : 1 ≤ start) (hlim : 1 ≤ lim) :
    Scene (bmCall basePat start lim n) basePat.reverse (fun c => b.byteAt (start - 1 - c : ℤ).toNat)
      (fun c => start - 1 - c) (start - lim) := by
  have hd : (bmCall basePat start lim n).direction = -1 := if_neg (by omega)
  have hd' : ¬ (0 : ℤ) < -1 := by decide
  have hpat : (bmCall basePat start lim n).pat = basePat.reverse := by
    show (if (bmCall basePat start lim n).direction < 0 then _ else _) = _
    rw [hd]
    rfl
  have hscene := scene_bmCall h start lim n (fun c => b.byteAt (start - 1 - c : ℤ).toNat)
    (fun c => start - 1 - c) (start - lim) (fun c => by rw [hd]; omega)
    (fun c => by rw [hd, if_neg hd']; omega) (by omega)
  rwa [hpat] at hscene

theorem beginsClump_backward (h : basePat ≠ []) (hn : n < 0) (hlim : b.biBegv ≤ lim)
    {c : Nat} (hcount : c < start - lim) :
    BeginsClump b (bmCall basePat start lim n) basePat.reverse
      (fun c => b.byteAt (start - 1 - c : ℤ).toNat) (fun c => start - 1 - c) (start - lim) c := by
  intro n' regs hn'
  have hbegv : 1 ≤ b.biBegv := one_le_bytePos _ _
  have hs : Scene (bmCall basePat start lim n) basePat.reverse _ _ _ :=
    scene_backward (b := b) h hn (by omega : 1 ≤ start) (by omega : 1 ≤ lim)
  have hpos := List.length_pos_iff.mpr h
  have hd : (bmCall basePat start lim n).direction = -1 := if_neg (by omega)
  have hd' : ¬ (0 : ℤ) < -1 := by decide
  have hlim' : (bmCall basePat start lim n).lim = lim := rfl
  have hlen : (bmCall basePat start lim n).len = basePat.length := rfl
  have hdirlen : (bmCall basePat start lim n).dirlen = -basePat.length := by
    rw [BmCall.dirlen, hd, hlen, mul_neg_one]
  -- where the match would end
  obtain ⟨σ, hσ⟩ : ∃ σ, σ + c + 1 = start + basePat.length :=
    ⟨start + basePat.length - (c + 1), by omega⟩
  have hend : (start - 1 - c : ℤ) - -basePat.length = σ := by omega
  have hend' : (σ : ℤ) + -1 + 1 = σ := by omega
  have hfloor : b.floorOf σ < σ := by
    rw [floorOf]
    split_ifs <;> omega
  have htop : ¬ ((lim : ℤ) - (start - 1 - c) - 0) * -1 < 0 := by omega
  obtain ⟨limit, hlimit⟩ : ∃ limit, limit = max (lim : ℤ)
    (max (b.floorOf σ : ℤ) ((start - 1 - c) - 20000)) := ⟨_, rfl⟩
  have hstep : b.bmStep (bmCall basePat start lim n) (.clump (start - 1 - c) n' regs) =
      if 20 < (limit - (start - 1 - c)) * -1 then
        .ok (.next (.loops true (start - 1 - c) (b.address limit) (b.address (start - 1 - c)) n'
          regs))
      else
        .ok (.next (.loops false (start - 1 - c)
          (max ((b.floorOf σ : ℤ) - basePat.length) lim) (start - 1 - c) n' regs)) := by
    simp only [bmStep, hd, hlim', hdirlen, hlen, if_neg hd', if_neg hn', if_neg htop, hend, hend',
      Int.toNat_natCast, hlimit]
  rw [hstep]
  by_cases hfar : 20 < (limit - (start - 1 - c)) * -1
  · obtain ⟨last, hlast⟩ : ∃ last : Nat, (start - 1 - last : ℤ) = limit :=
      ⟨(start - 1 - limit).toNat, by omega⟩
    refine ⟨true, _, last, _, ?_, clump_pointers hs (fun c => rfl) (by omega) ?_, by omega, by omega⟩
    · rw [if_pos hfar, ← hlast, sub_self, zero_mul, add_zero]
    · intro x hx hx'
      rw [length_reverse] at hx
      have hthere := byteAddress_floorOf (b := b) (z := σ) (x := limit.toNat)
        (y := (start - 1 - x : ℤ).toNat) (by omega) (by omega) (by omega)
      have hhere := byteAddress_floorOf (b := b) (z := σ) (x := limit.toNat)
        (y := (start - 1 - c : ℤ).toNat) (by omega) (by omega) (by omega)
      rw [hd, address, address]
      omega
  · obtain ⟨last, hlast⟩ : ∃ last : Nat, (start - 1 - last : ℤ)
        = max ((b.floorOf σ : ℤ) - basePat.length) lim :=
      ⟨(start - 1 - max ((b.floorOf σ : ℤ) - basePat.length) lim).toNat, by omega⟩
    refine ⟨false, _, last, _, ?_, clump_positions hs fun c => rfl, by omega, by omega⟩
    rw [if_neg hfar, ← hlast]

end Backward

end SearchBuffer

end XEmacs.TextSearch
