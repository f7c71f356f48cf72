import XEmacs.Coding.UnicodeSafe

/-!
# UCS-4 in chunks

`decode_coding_ucs4` is called for each chunk of a text. At the end of a call it is to write out
a partial character if the text is over, but it tests `counter`, not `flags`, for
`CODING_STATE_END`.
-/

namespace XEmacs.Coding

open Transducer

/-- What `decode_coding_ucs4` writes for chunks, in a stream that has just been opened. -/
def ucs4Output (env : UcsEnv) (parts : List (List Nat)) : Option (List Nat) :=
  (calls (UnicodeDecoder.ucs4Step env) UnicodeDecoder.ucs4Finish .start parts).map Prod.snd

/-- The bytes behind the last whole character. -/
def unfinished (bytes : List Nat) : List Nat := bytes.drop (4 * (bytes.length / 4))

/-- Where a chunk ends one or three bytes behind a character, with more bytes to come, these
bytes are zero. -/
def CutsClear (parts : List (List Nat)) : Prop :=
  ∀ before after, parts = before ++ after → after.flatten ≠ [] →
    before.flatten.length % 2 = 1 → ∀ b ∈ unfinished before.flatten, b = 0

/-! ### Counting characters -/

/-- The bytes that are not position codes; a character has one. -/
def charCount (out : List Nat) : Nat := out.countP (· < 0xA0)

theorem charCount_append (out out' : List Nat) :
    charCount (out ++ out') = charCount out + charCount out' :=
  List.countP_append

theorem charCount_bytes {charsets : Charsets} {ch : Mchar} (hch : ch.Valid charsets) :
    charCount ch.bytes = 1 := by
  cases hch.shape with
  | ascii lb rep dim h1 h2 hbytes hemchar =>
    rw [hbytes, charCount, List.countP_singleton, if_pos (by simp; omega)]
  | control1 lb rep dim h1 h2 hbytes hemchar => rw [hbytes]; simp [charCount]
  | official1 lo hi rep dim lo1 hi1 h2 hbytes hemchar =>
    rw [hbytes, charCount, List.countP_cons_of_pos (by simp; omega),
      List.countP_cons_of_neg (by simp; omega), List.countP_nil]
  | official2 lo hi rep dim lo1 hi1 lo2 hi2 hbytes hemchar =>
    rw [hbytes, charCount, List.countP_cons_of_pos (by simp; omega),
      List.countP_cons_of_neg (by simp; omega), List.countP_cons_of_neg (by simp; omega),
      List.countP_nil]
  | private1 lo hi rep dim lo1 hi1 h2 hbytes hemchar =>
    rw [hbytes, charCount, List.countP_cons_of_pos (by decide),
      List.countP_cons_of_neg (by simp; omega), List.countP_cons_of_neg (by simp; omega),
      List.countP_nil]
  | private2 lo hi rep dim lo1 hi1 lo2 hi2 hbytes hemchar =>
    rw [hbytes, charCount, List.countP_cons_of_pos (by decide),
      List.countP_cons_of_neg (by simp; omega), List.countP_cons_of_neg (by simp; omega),
      List.countP_cons_of_neg (by simp; omega), List.countP_nil]

theorem charCount_decodeUcs4 {env : UcsEnv} {code : Nat} {out : List Nat}
    (hout : env.decodeUcs4 code = some out) : charCount out = 1 := by
  have hspec : (Event.code code).Ok env ∧ _ ∨ ¬(Event.code code).Ok env ∧ _ :=
    decodeUcs4_spec code
  obtain ⟨-, ch, hch, hbytes⟩ | ⟨-, hnone⟩ := hspec
  · cases hout.symm.trans hbytes
    exact charCount_bytes hch
  · cases hout.symm.trans hnone

theorem charCount_partial_pos {ch : Nat} (hch : ch ≠ 0) :
    0 < charCount (decodeOutputPartialChar ch) := by
  rw [decodeOutputPartialChar, if_neg hch, decodeAddBinaryChar]
  split_ifs with hascii hcontrol
  · rw [charCount, List.countP_singleton, if_pos (by simp; omega)]
    exact Nat.one_pos
  · rw [charCount, List.countP_cons_of_pos (by decide)]
    exact Nat.succ_pos _
  · rw [charCount, List.countP_cons_of_pos (by decide)]
    exact Nat.succ_pos _

/-! ### Groups of four bytes -/

/-- What a call that ends here, behind one or three bytes of a character, leaves of them and
writes. -/
def cutPartial (last : Bool) (ch : Nat) : Nat × List Nat :=
  if last then (0, decodeOutputPartialChar ch) else (ch, [])

/-- What is written for the four bytes of a character. -/
def groupOutput (env : UcsEnv) (a b c : Nat × Bool) (d : Nat) : Option (List Nat) :=
  let first := cutPartial a.2 a.1
  let third := cutPartial c.2 ((first.1 * 256 + b.1) * 256 + c.1)
  (env.decodeUcs4 (third.1 * 256 + d)).map fun out => first.2 ++ third.2 ++ out

/-- What is written for bytes of which some are the last of their chunk. -/
def cutOutput (env : UcsEnv) (l : List (Nat × Bool)) : Option (List Nat) :=
  (runCut (UnicodeDecoder.ucs4Step env) UnicodeDecoder.ucs4Finish .start l).map Prod.snd

section Groups

variable (env : UcsEnv)

theorem ucs4Output_eq (parts : List (List Nat)) :
    ucs4Output env parts = cutOutput env (parts.flatMap markLast) := by
  have hfinish : ∀ s, UnicodeDecoder.ucs4Finish (UnicodeDecoder.ucs4Finish s).1
      = ((UnicodeDecoder.ucs4Finish s).1, []) := by
    intro s
    by_cases hcounter : s.counter % 2 = 1
    · rw [UnicodeDecoder.ucs4Finish, UnicodeDecoder.ucs4Finish, if_pos hcounter,
        if_pos hcounter]
      rfl
    · rw [UnicodeDecoder.ucs4Finish, UnicodeDecoder.ucs4Finish, if_neg hcounter,
        if_neg hcounter]
  have hstart : UnicodeDecoder.ucs4Finish .start = (.start, []) := rfl
  rw [ucs4Output, cutOutput, calls_eq_runCut hfinish hstart]

theorem cutOutput_group (a b c d : Nat × Bool) (l : List (Nat × Bool)) :
    cutOutput env (a :: b :: c :: d :: l)
      = (groupOutput env a b c d.1).bind fun out => (cutOutput env l).map (out ++ ·) := by
  obtain ⟨a, la⟩ := a
  obtain ⟨b, lb⟩ := b
  obtain ⟨c, lc⟩ := c
  obtain ⟨d, ld⟩ := d
  have hgroup : runCut (UnicodeDecoder.ucs4Step env) UnicodeDecoder.ucs4Finish .start
      ((a, la) :: (b, lb) :: (c, lc) :: (d, ld) :: l)
        = (groupOutput env (a, la) (b, lb) (c, lc) d).bind fun out =>
          (runCut (UnicodeDecoder.ucs4Step env) UnicodeDecoder.ucs4Finish .start l).map
            fun r => (r.1, out ++ r.2) := by
    cases la <;> cases lb <;> cases lc <;> cases ld <;>
      simp [runCut, groupOutput, cutPartial, UnicodeDecoder.ucs4Step, UnicodeDecoder.ucs4Finish,
        UnicodeDecoder.start, Option.bind_map, Function.comp_def]
  rw [cutOutput, hgroup, cutOutput]
  cases groupOutput env (a, la) (b, lb) (c, lc) d with
  | none => rfl
  | some out =>
    simp only [Option.bind_some, Option.map_map]
    rfl

theorem cutOutput_two (a : Nat × Bool) (b : Nat) :
    cutOutput env [a, (b, true)] = some (cutPartial a.2 a.1).2 := by
  obtain ⟨a, la⟩ := a
  cases la <;> simp [cutOutput, runCut, cutPartial, UnicodeDecoder.ucs4Step,
    UnicodeDecoder.ucs4Finish, UnicodeDecoder.start]

theorem cutOutput_three (a b : Nat × Bool) (c : Nat) :
    cutOutput env [a, b, (c, true)]
      = some ((cutPartial a.2 a.1).2 ++
        decodeOutputPartialChar (((cutPartial a.2 a.1).1 * 256 + b.1) * 256 + c)) := by
  obtain ⟨a, la⟩ := a
  obtain ⟨b, lb⟩ := b
  cases la <;> cases lb <;> simp [cutOutput, runCut, cutPartial, UnicodeDecoder.ucs4Step,
    UnicodeDecoder.ucs4Finish, UnicodeDecoder.start]

end Groups

/-! ### Cuts that are not seen -/

/-- `CutsClear`, for bytes of which some are the last of their chunk. -/
def clearGroups : List (Nat × Bool) → Prop
  | a :: b :: c :: _ :: l =>
    (a.2 = true → a.1 = 0) ∧ (c.2 = true → a.1 = 0 ∧ b.1 = 0 ∧ c.1 = 0) ∧ clearGroups l
  | [a, _, _] | [a, _] => a.2 = true → a.1 = 0
  | [_] | [] => True

/-- The cut behind a first part of the bytes. -/
def ClearAt (l : List (Nat × Bool)) : Prop :=
  ∀ before after, l = before ++ after → after ≠ [] → (∀ x ∈ before.getLast?, x.2 = true) →
    before.length % 2 = 1 → ∀ b ∈ unfinished (before.map Prod.fst), b = 0

theorem unfinished_group (a b c d : Nat) (l : List Nat) :
    unfinished (a :: b :: c :: d :: l) = unfinished l := by
  have hlength : 4 * ((a :: b :: c :: d :: l).length / 4) = 4 * (l.length / 4) + 4 := by
    simp only [List.length_cons]
    omega
  rw [unfinished, hlength]
  rfl

theorem getLast?_group (a b c d : Nat × Bool) {l : List (Nat × Bool)} (hl : l ≠ []) :
    (a :: b :: c :: d :: l).getLast? = l.getLast? := by
  cases l with
  | nil => exact absurd rfl hl
  | cons x l => simp only [List.getLast?_cons_cons]

theorem clearAt_group {a b c d : Nat × Bool} {l : List (Nat × Bool)} :
    ClearAt (a :: b :: c :: d :: l) ↔
      (a.2 = true → a.1 = 0) ∧ (c.2 = true → a.1 = 0 ∧ b.1 = 0 ∧ c.1 = 0) ∧ ClearAt l := by
  constructor
  · intro hclear
    refine ⟨fun hlast => ?_, fun hlast => ?_, ?_⟩
    · exact hclear [a] (b :: c :: d :: l) rfl (List.cons_ne_nil _ _) (by simpa using hlast) rfl
        a.1 (by simp [unfinished])
    · have hzero := hclear [a, b, c] (d :: l) rfl (List.cons_ne_nil _ _) (by simpa using hlast)
        (by simp)
      exact ⟨hzero _ (by simp [unfinished]), hzero _ (by simp [unfinished]),
        hzero _ (by simp [unfinished])⟩
    · intro before after hl hafter hlast hodd
      have hne : before ≠ [] := by
        rintro rfl
        cases hodd
      have hzero := hclear (a :: b :: c :: d :: before) after (by rw [hl]; rfl) hafter
        (by rw [getLast?_group a b c d hne]; exact hlast) (by simp only [List.length_cons]; omega)
      simp only [List.map_cons, unfinished_group] at hzero
      exact hzero
  · rintro ⟨hfirst, hthird, hrest⟩ before after hl hafter hlast hodd
    match before, hl, hlast, hodd with
    | [], _, _, hodd => exact absurd hodd (by simp)
    | [_], hl, hlast, _ =>
      cases hl
      simpa [unfinished] using hfirst (hlast a rfl)
    | [_, _], _, _, hodd => exact absurd hodd (by simp)
    | [_, _, _], hl, hlast, _ =>
      cases hl
      obtain ⟨ha, hb, hc⟩ := hthird (hlast c rfl)
      simp [unfinished, ha, hb, hc]
    | _ :: _ :: _ :: _ :: before, hl, hlast, hodd =>
      cases hl
      simp only [List.map_cons, unfinished_group]
      simp only [List.length_cons] at hodd
      refine hrest before after rfl hafter (fun x hx => hlast x ?_) (by omega)
      have hne : before ≠ [] := by
        rintro rfl
        cases hx
      rw [getLast?_group a b c _ hne]
      exact hx

theorem clearAt_short {a b : Nat × Bool} {l : List (Nat × Bool)} (hl : l.length ≤ 1) :
    ClearAt (a :: b :: l) ↔ (a.2 = true → a.1 = 0) := by
  constructor
  · intro hclear hlast
    exact hclear [a] (b :: l) rfl (List.cons_ne_nil _ _) (by simpa using hlast) rfl a.1
      (by simp [unfinished])
  · intro hfirst before after heq hafter hlast hodd
    match before, heq, hlast, hodd with
    | [], _, _, hodd => exact absurd hodd (by simp)
    | [_], heq, hlast, _ =>
      cases heq
      simpa [unfinished] using hfirst (hlast a rfl)
    | [_, _], _, _, hodd => exact absurd hodd (by simp)
    | _ :: _ :: _ :: before, heq, _, _ =>
      have hafter' := List.length_pos_of_ne_nil hafter
      have hlength := congrArg List.length heq
      simp only [List.length_cons, List.length_append] at hlength
      omega

theorem clearAt_iff (l : List (Nat × Bool)) : ClearAt l ↔ clearGroups l := by
  match l with
  | [] =>
    refine iff_of_true (fun before after heq hafter => ?_) trivial
    exact absurd (List.append_eq_nil_iff.mp heq.symm).2 hafter
  | [a] =>
    refine iff_of_true (fun before after heq hafter _ hodd => ?_) trivial
    cases before with
    | nil => exact absurd hodd (by simp)
    | cons _ before =>
      injection heq with _ hrest
      exact absurd (List.append_eq_nil_iff.mp hrest.symm).2 hafter
  | [a, b] => exact clearAt_short (Nat.zero_le _)
  | [a, b, c] => exact clearAt_short (Nat.le_refl _)
  | a :: b :: c :: d :: l =>
    rw [clearAt_group, clearAt_iff l]
    rfl

theorem getLast?_markLast {l : List Nat} : ∀ x ∈ (markLast l).getLast?, x.2 = true := by
  induction l with
  | nil => exact fun x hx => by cases hx
  | cons b l ih =>
    cases l with
    | nil =>
      intro x hx
      cases hx
      rfl
    | cons b' l =>
      intro x hx
      refine ih x ?_
      cases l with
      | nil => exact hx
      | cons b'' l => exact hx

theorem markLast_eq_append {part : List Nat} {before after : List (Nat × Bool)}
    (h : markLast part = before ++ after) (hne : before ≠ [])
    (hlast : ∀ x ∈ before.getLast?, x.2 = true) : after = [] := by
  induction part generalizing before with
  | nil => exact (List.append_eq_nil_iff.mp h.symm).2
  | cons b part ih =>
    obtain ⟨x, before, rfl⟩ := List.exists_cons_of_ne_nil hne
    cases part with
    | nil =>
      injection h with _ hrest
      exact (List.append_eq_nil_iff.mp hrest.symm).2
    | cons b' part =>
      injection h with hx hrest
      have hne' : before ≠ [] := by
        rintro rfl
        subst hx
        exact absurd (hlast _ rfl) (by simp)
      refine ih hrest hne' fun y hy => hlast y ?_
      obtain ⟨z, before, rfl⟩ := List.exists_cons_of_ne_nil hne'
      exact hy

theorem exists_parts {parts : List (List Nat)} {before after : List (Nat × Bool)}
    (h : parts.flatMap markLast = before ++ after)
    (hlast : ∀ x ∈ before.getLast?, x.2 = true) :
    ∃ ps qs, parts = ps ++ qs ∧ before = ps.flatMap markLast ∧ after = qs.flatMap markLast := by
  induction parts generalizing before with
  | nil =>
    obtain ⟨rfl, rfl⟩ := List.append_eq_nil_iff.mp h.symm
    exact ⟨[], [], rfl, rfl, rfl⟩
  | cons part parts ih =>
    rw [List.flatMap_cons] at h
    by_cases hne : before = []
    · subst hne
      exact ⟨[], part :: parts, rfl, rfl, by rw [List.flatMap_cons, h, List.nil_append]⟩
    · obtain ⟨middle, hbefore, hparts⟩ | ⟨middle, hpart, hafter⟩ := List.append_eq_append_iff.mp h
      · subst hbefore
        have hmiddle : ∀ x ∈ middle.getLast?, x.2 = true := by
          intro x hx
          refine hlast x ?_
          rw [List.getLast?_append, hx]
          rfl
        obtain ⟨ps, qs, rfl, rfl, rfl⟩ := ih hparts hmiddle
        exact ⟨part :: ps, qs, rfl, rfl, rfl⟩
      · have hmiddle := markLast_eq_append hpart hne hlast
        subst hmiddle
        rw [List.append_nil] at hpart
        exact ⟨[part], parts, rfl, by simpa using hpart.symm, hafter⟩

theorem getLast?_flatMap_markLast (parts : List (List Nat)) :
    ∀ x ∈ (parts.flatMap markLast).getLast?, x.2 = true := by
  induction parts with
  | nil => exact fun x hx => by cases hx
  | cons part parts ih =>
    intro x hx
    rw [List.flatMap_cons, List.getLast?_append] at hx
    obtain hx | ⟨-, hx⟩ := Option.or_eq_some_iff.mp hx
    · exact ih x hx
    · exact getLast?_markLast x hx

theorem map_flatMap_markLast (parts : List (List Nat)) :
    (parts.flatMap markLast).map Prod.fst = parts.flatten := by
  rw [List.map_flatMap, List.flatMap_def]
  simp only [map_markLast, List.map_id']

theorem cutsClear_iff (parts : List (List Nat)) :
    CutsClear parts ↔ clearGroups (parts.flatMap markLast) := by
  rw [← clearAt_iff]
  constructor
  · intro hclear before after h hafter hlast hodd
    obtain ⟨ps, qs, rfl, rfl, rfl⟩ := exists_parts h hlast
    rw [map_flatMap_markLast]
    refine hclear ps qs rfl ?_ ?_
    · rw [← map_flatMap_markLast]
      exact fun hnil => hafter (List.map_eq_nil_iff.mp hnil)
    · rw [← map_flatMap_markLast, List.length_map]
      exact hodd
  · rintro hclear ps qs rfl hqs hodd
    rw [← map_flatMap_markLast ps]
    refine hclear _ _ List.flatMap_append ?_ ?_ ?_
    · intro hnil
      rw [← map_flatMap_markLast, hnil] at hqs
      exact hqs rfl
    · exact getLast?_flatMap_markLast ps
    · rw [← List.length_map, map_flatMap_markLast]
      exact hodd

/-! ### Chunks against the whole -/

/-- The output `out'` cannot be `out`: before a common end it has more characters, or another
byte. -/
inductive Apart (out' out : List Nat) : Prop where
  | longer (x y z : List Nat) : out' = x ++ z → out = y ++ z → charCount y < charCount x →
    Apart out' out
  | differs (x y z : List Nat) (b' b : Nat) : out' = x ++ b' :: z → out = y ++ b :: z → b' ≠ b →
    Apart out' out

theorem Apart.ne {out' out : List Nat} (h : Apart out' out) : out' ≠ out := by
  rintro rfl
  cases h with
  | longer x y z hx hy hlt =>
    rw [List.append_cancel_right (hx.symm.trans hy)] at hlt
    exact Nat.lt_irrefl _ hlt
  | differs x y z b' b hx hy hne =>
    have hsame := List.append_inj_right' (hx.symm.trans hy) (by simp)
    exact hne (List.cons.inj hsame).1

theorem Apart.append {out' out pre' pre : List Nat} (h : Apart out' out)
    (hpre : charCount pre ≤ charCount pre') : Apart (pre' ++ out') (pre ++ out) := by
  cases h with
  | longer x y z hx hy hlt =>
    refine .longer (pre' ++ x) (pre ++ y) z ?_ ?_ ?_
    · rw [hx, List.append_assoc]
    · rw [hy, List.append_assoc]
    · rw [charCount_append, charCount_append]
      omega
  | differs x y z b' b hx hy hne =>
    refine .differs (pre' ++ x) (pre ++ y) z b' b ?_ ?_ hne
    · rw [hx, List.append_assoc]
    · rw [hy, List.append_assoc]

theorem cutPartial_false (ch : Nat) : cutPartial false ch = (ch, []) := rfl

theorem cutPartial_clear {last : Bool} {ch : Nat} (h : last = true → ch = 0) :
    cutPartial last ch = (ch, []) := by
  cases last with
  | false => rfl
  | true =>
    rw [h rfl]
    rfl

theorem decodeAddBinaryChar_last {a : Nat} (ha : a ≠ 0) (ha' : a < 256) :
    ∃ x b, decodeAddBinaryChar a = x ++ [b] ∧ b ≠ 0 ∧ b ≠ 0x81 := by
  rw [decodeAddBinaryChar]
  split_ifs with hascii hcontrol
  · exact ⟨[], a, rfl, ha, by omega⟩
  · exact ⟨[_], a + 0x20, rfl, by omega, by omega⟩
  · refine ⟨[_], a % 256, rfl, ?_, ?_⟩ <;> omega

theorem apart_three {a b c : Nat} (ha : a ≠ 0) (ha' : a < 256) (hb : b < 256) (hc : c < 256) :
    Apart (decodeOutputPartialChar a ++ decodeOutputPartialChar ((0 * 256 + b) * 256 + c))
      (decodeOutputPartialChar ((a * 256 + b) * 256 + c)) := by
  have hwhole : decodeOutputPartialChar ((a * 256 + b) * 256 + c) = [leadingByteLatin1, c] := by
    have hmod : ((a * 256 + b) * 256 + c) % 256 = c := by omega
    rw [decodeOutputPartialChar, if_neg (by omega), decodeAddBinaryChar, if_neg (by omega),
      if_neg (by omega), hmod]
  obtain ⟨x, last, hx, hlast, hlatin⟩ := decodeAddBinaryChar_last ha ha'
  have hfirst : decodeOutputPartialChar a = x ++ [last] := by
    rw [decodeOutputPartialChar, if_neg ha, hx]
  have hcount : 0 < charCount (x ++ [last]) := hfirst ▸ charCount_partial_pos ha
  rw [hwhole, hfirst, decodeOutputPartialChar]
  split_ifs with hzero
  · -- only the first byte is written, and the last one is zero
    have hc0 : c = 0 := by omega
    rw [List.append_nil, hc0]
    exact .differs x [leadingByteLatin1] [] last 0 rfl rfl hlast
  · have hmod : ((0 * 256 + b) * 256 + c) % 256 = c := by omega
    have hsmall : (0 * 256 + b) * 256 + c < 256 → (0 * 256 + b) * 256 + c = c := by omega
    generalize (0 * 256 + b) * 256 + c = ch at hmod hsmall
    rw [decodeAddBinaryChar]
    split_ifs with hascii hcontrol
    · rw [hsmall (by omega)]
      exact .differs x [] [c] last leadingByteLatin1 (by simp) rfl hlatin
    · have hne : ch + 0x20 ≠ c := by omega
      exact .differs (x ++ [last, leadingByteControl1]) [leadingByteLatin1] [] (ch + 0x20) c
        (by simp) rfl hne
    · rw [hmod]
      exact .longer (x ++ [last]) [] [leadingByteLatin1, c] rfl rfl hcount

theorem charCount_group {env : UcsEnv} {a b c : Nat × Bool} {d : Nat} {out : List Nat}
    (h : groupOutput env a b c d = some out) :
    charCount out = charCount (cutPartial a.2 a.1).2
      + charCount (cutPartial c.2 (((cutPartial a.2 a.1).1 * 256 + b.1) * 256 + c.1)).2 + 1 := by
  obtain ⟨whole, hwhole, rfl⟩ := Option.map_eq_some_iff.mp h
  rw [charCount_append, charCount_append, charCount_decodeUcs4 hwhole]

theorem charCount_wholeGroup {env : UcsEnv} {a b c d : Nat} {out : List Nat}
    (h : groupOutput env (a, false) (b, false) (c, false) d = some out) : charCount out = 1 :=
  charCount_group h

theorem groupOutput_clear (env : UcsEnv) {a b c : Nat × Bool} (d : Nat)
    (ha : a.2 = true → a.1 = 0) (hc : c.2 = true → a.1 = 0 ∧ b.1 = 0 ∧ c.1 = 0) :
    groupOutput env a b c d = groupOutput env (a.1, false) (b.1, false) (c.1, false) d := by
  have hthird : c.2 = true → (a.1 * 256 + b.1) * 256 + c.1 = 0 := by
    intro hlast
    obtain ⟨ha0, hb0, hc0⟩ := hc hlast
    rw [ha0, hb0, hc0]
  simp only [groupOutput, cutPartial_clear ha, cutPartial_clear hthird, cutPartial_false]

theorem charCount_unclear {env : UcsEnv} {a b c : Nat × Bool} {d : Nat} {out : List Nat}
    (h : groupOutput env a b c d = some out)
    (hclear : ¬ ((a.2 = true → a.1 = 0) ∧ (c.2 = true → a.1 = 0 ∧ b.1 = 0 ∧ c.1 = 0))) :
    1 < charCount out := by
  have hcount := charCount_group h
  by_cases ha : a.2 = true → a.1 = 0
  · have hc : ¬ (c.2 = true → a.1 = 0 ∧ b.1 = 0 ∧ c.1 = 0) := fun hc => hclear ⟨ha, hc⟩
    obtain ⟨hlast, hne⟩ := Classical.not_imp.mp hc
    have hch : (a.1 * 256 + b.1) * 256 + c.1 ≠ 0 := by omega
    have hpos := charCount_partial_pos hch
    rw [cutPartial_clear ha, hlast] at hcount
    have hthird : (cutPartial true ((a.1 * 256 + b.1) * 256 + c.1)).2
      = decodeOutputPartialChar ((a.1 * 256 + b.1) * 256 + c.1) := rfl
    rw [hthird] at hcount
    omega
  · obtain ⟨hlast, hne⟩ := Classical.not_imp.mp ha
    have hpos := charCount_partial_pos hne
    have hfirst : (cutPartial a.2 a.1).2 = decodeOutputPartialChar a.1 := by
      rw [hlast]
      rfl
    rw [hfirst] at hcount
    omega

/-- The bytes of `l` in one chunk. -/
def whole (l : List (Nat × Bool)) : List (Nat × Bool) := markLast (l.map Prod.fst)

theorem cutOutput_whole_group (env : UcsEnv) (a b c d : Nat × Bool) (l : List (Nat × Bool)) :
    cutOutput env (whole (a :: b :: c :: d :: l))
      = (groupOutput env (a.1, false) (b.1, false) (c.1, false) d.1).bind
          fun out => (cutOutput env (whole l)).map (out ++ ·) := by
  cases l with
  | nil => exact cutOutput_group env (a.1, false) (b.1, false) (c.1, false) (d.1, true) []
  | cons x l =>
    exact cutOutput_group env (a.1, false) (b.1, false) (c.1, false) (d.1, false) (whole (x :: l))

theorem cutOutput_clear (env : UcsEnv) (l : List (Nat × Bool))
    (hlast : ∀ x ∈ l.getLast?, x.2 = true) (hclear : clearGroups l) :
    cutOutput env l = cutOutput env (whole l) := by
  match l with
  | [] => rfl
  | [a] =>
    obtain ⟨a, la⟩ := a
    cases hlast (a, la) rfl
    rfl
  | [a, b] =>
    obtain ⟨b, lb⟩ := b
    cases hlast (b, lb) rfl
    have hclear : a.2 = true → a.1 = 0 := hclear
    have hwhole : whole [a, (b, true)] = [(a.1, false), (b, true)] := rfl
    rw [hwhole, cutOutput_two, cutOutput_two, cutPartial_clear hclear]
    rfl
  | [a, b, c] =>
    obtain ⟨c, lc⟩ := c
    cases hlast (c, lc) rfl
    have hclear : a.2 = true → a.1 = 0 := hclear
    have hwhole : whole [a, b, (c, true)] = [(a.1, false), (b.1, false), (c, true)] := rfl
    rw [hwhole, cutOutput_three, cutOutput_three, cutPartial_clear hclear]
    rfl
  | a :: b :: c :: d :: l =>
    obtain ⟨ha, hc, hl⟩ := hclear
    have hlast' : ∀ x ∈ l.getLast?, x.2 = true := by
      intro x hx
      refine hlast x ?_
      rw [getLast?_group a b c d]
      · exact hx
      · rintro rfl
        cases hx
    rw [cutOutput_group, cutOutput_whole_group, groupOutput_clear env d.1 ha hc,
      cutOutput_clear env l hlast' hl]

theorem cutOutput_apart (env : UcsEnv) (l : List (Nat × Bool))
    (hbytes : ∀ x ∈ l, x.1 < 256) (hlast : ∀ x ∈ l.getLast?, x.2 = true)
    (hclear : ¬ clearGroups l) {out' out : List Nat} (hout' : cutOutput env l = some out')
    (hout : cutOutput env (whole l) = some out) : Apart out' out := by
  match l with
  | [] => exact absurd trivial hclear
  | [a] => exact absurd trivial hclear
  | [a, b] =>
    obtain ⟨b, lb⟩ := b
    cases hlast (b, lb) rfl
    obtain ⟨hcut, hne⟩ := Classical.not_imp.mp hclear
    have hwhole : whole [a, (b, true)] = [(a.1, false), (b, true)] := rfl
    rw [cutOutput_two, hcut] at hout'
    rw [hwhole, cutOutput_two] at hout
    cases hout'
    cases hout
    exact .longer (decodeOutputPartialChar a.1) [] [] (List.append_nil _).symm rfl
      (charCount_partial_pos hne)
  | [a, b, c] =>
    obtain ⟨c, lc⟩ := c
    cases hlast (c, lc) rfl
    obtain ⟨hcut, hne⟩ := Classical.not_imp.mp hclear
    have hwhole : whole [a, b, (c, true)] = [(a.1, false), (b.1, false), (c, true)] := rfl
    rw [cutOutput_three, hcut] at hout'
    rw [hwhole, cutOutput_three] at hout
    cases hout'
    cases hout
    exact apart_three hne (hbytes a (by simp)) (hbytes b (by simp)) (hbytes (c, true) (by simp))
  | a :: b :: c :: d :: l =>
    have hlast' : ∀ x ∈ l.getLast?, x.2 = true := by
      intro x hx
      refine hlast x ?_
      rw [getLast?_group a b c d]
      · exact hx
      · rintro rfl
        cases hx
    rw [cutOutput_group] at hout'
    rw [cutOutput_whole_group] at hout
    obtain ⟨pre', hpre', hmap'⟩ := Option.bind_eq_some_iff.mp hout'
    obtain ⟨rest', hrest', rfl⟩ := Option.map_eq_some_iff.mp hmap'
    obtain ⟨pre, hpre, hmap⟩ := Option.bind_eq_some_iff.mp hout
    obtain ⟨rest, hrest, rfl⟩ := Option.map_eq_some_iff.mp hmap
    have hone := charCount_wholeGroup hpre
    by_cases hl : clearGroups l
    · -- all else is the same, and this group has more characters
      have hmore := charCount_unclear hpre' fun hclear' => hclear ⟨hclear'.1, hclear'.2, hl⟩
      rw [cutOutput_clear env l hlast' hl] at hrest'
      have hsame : rest' = rest := Option.some.inj (hrest'.symm.trans hrest)
      rw [hsame]
      exact .longer pre' pre rest rfl rfl (hone ▸ hmore)
    · have hrest'' : Apart rest' rest :=
        cutOutput_apart env l (fun x hx => hbytes x (by simp [hx])) hlast' hl hrest' hrest
      have hcount := charCount_group hpre'
      exact hrest''.append (by omega)

/-- The codes of four bytes each. -/
def ucs4Codes : List Nat → List Nat
  | a :: b :: c :: d :: bytes => (((a * 256 + b) * 256 + c) * 256 + d) :: ucs4Codes bytes
  | _ => []

theorem cutOutput_codes (env : UcsEnv) (bytes : List Nat) (hlength : bytes.length % 4 = 0) :
    cutOutput env (markLast bytes)
      = ((ucs4Codes bytes).mapM env.decodeUcs4).map List.flatten := by
  match bytes with
  | [] => rfl
  | [_] | [_, _] | [_, _, _] => exact absurd hlength (by simp)
  | a :: b :: c :: d :: bytes =>
    have hrest := cutOutput_codes env bytes (by simp only [List.length_cons] at hlength; omega)
    have hwhole : markLast (a :: b :: c :: d :: bytes)
        = whole ((a, false) :: (b, false) :: (c, false) :: (d, false) :: markLast bytes) := by
      simp only [whole, List.map_cons, map_markLast]
    have hwhole' : whole (markLast bytes) = markLast bytes := by rw [whole, map_markLast]
    rw [hwhole, cutOutput_whole_group, hwhole', hrest]
    simp only [groupOutput, cutPartial_false, List.nil_append, Option.map_id']
    exact (render_cons _ _).symm

/-- **Chunks against the whole**: what is written for chunks is what is written for all of
the text at once, if it can be, just when the cuts have nothing but zeros before them; and at
once, a text of whole characters is decoded character by character. -/
theorem ucs4Output_chunks_iff (env : UcsEnv) (parts : List (List Nat))
    (hbytes : ∀ part ∈ parts, ∀ b ∈ part, b < 256) :
    (CutsClear parts → ucs4Output env parts = ucs4Output env [parts.flatten]) ∧
    (∀ out, ucs4Output env [parts.flatten] = some out →
      (ucs4Output env parts = some out ↔ CutsClear parts)) ∧
    (parts.flatten.length % 4 = 0 → ucs4Output env [parts.flatten]
      = ((ucs4Codes parts.flatten).mapM env.decodeUcs4).map List.flatten) := by
  have hwhole : ucs4Output env [parts.flatten] = cutOutput env (whole (parts.flatMap markLast)) := by
    rw [ucs4Output_eq, whole, map_flatMap_markLast, List.flatMap_singleton]
  have hlast := getLast?_flatMap_markLast parts
  rw [hwhole, ucs4Output_eq, cutsClear_iff]
  refine ⟨cutOutput_clear env _ hlast, fun out hout => ⟨fun hout' => ?_, fun hclear => ?_⟩,
    fun hlength => ?_⟩
  · by_contra hclear
    refine (cutOutput_apart env _ ?_ hlast hclear hout' hout).ne rfl
    intro x hx
    have hx' := List.mem_map_of_mem (f := Prod.fst) hx
    rw [map_flatMap_markLast] at hx'
    obtain ⟨part, hpart, hb⟩ := List.mem_flatten.mp hx'
    exact hbytes part hpart x.1 hb
  · rw [cutOutput_clear env _ hlast hclear, hout]
  · rw [whole, map_flatMap_markLast]
    exact cutOutput_codes env _ hlength

/-- The code `0x21` in two chunks of two bytes. -/
theorem ucs4Output_halves : ucs4Output initialEnv [[0, 0], [0, 0x21]] = some getaMark := by
  have hchunks := (ucs4Output_chunks_iff initialEnv [[0, 0], [0, 0x21]] (by decide)).2.1
    getaMark (by decide)
  refine hchunks.mpr fun before after hparts hafter hodd => ?_
  match before, hparts with
  | [], _ => exact absurd hodd (by decide)
  | [_], hparts =>
    cases hparts
    exact absurd hodd (by decide)
  | [_, _], hparts =>
    cases hparts
    exact absurd rfl hafter

/-- The code `0x01000000`, which is not in the table, with a cut behind its first byte. -/
theorem ucs4Output_cut :
    ucs4Output initialEnv [[1], [0, 0, 0]] ≠ ucs4Output initialEnv [[1, 0, 0, 0]] := by
  decide

end XEmacs.Coding
