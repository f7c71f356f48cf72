import XEmacs.SyntaxScan.ScanLists
import XEmacs.Lib.Brackets

/-!
# Lists and the counting of brackets

In a buffer with nothing but whitespace, words, symbols, punctuation and brackets, `scan_lists`
by one list from depth 0 finds the match of the first bracket that it comes to, in either
direction (`forward_answer`, `backward_answer`).
-/

namespace XEmacs.SyntaxScan.Buf

open Brackets

/-- A character of one of the simple classes, without flags. -/
structure Plain (buf : Buf) (pos : Nat) : Prop where
  simple : buf.code pos ∈ ([.swhitespace, .sword, .ssymbol, .spunct, .sopen, .sclose] :
    List Syntaxcode)
  no_prefix : syntaxCodePrefix (buf.syncode pos) = false
  no_flags : syntaxCodeCommentBits (buf.syncode pos) = 0

/-- What a character counts. -/
def weight (buf : Buf) (pos : Nat) : ℤ :=
  match buf.code pos with
  | .sopen => 1
  | .sclose => -1
  | _ => 0

/-- What `scan_lists` by one list forward from `p` is to answer. -/
inductive ForwardAnswer (buf : Buf) (p : Nat) : ScanResult → Prop
  | matched {o c : Nat} : FirstBracket buf.weight p buf.zv o → Matched buf.weight o c →
      c < buf.zv → ForwardAnswer buf p (.position (c + 1))
  | unmatched {o : Nat} : FirstBracket buf.weight p buf.zv o → buf.weight o = 1 →
      (∀ c, Matched buf.weight o c → buf.zv ≤ c) →
      ForwardAnswer buf p (.error "Unbalanced parentheses")
  | premature {o : Nat} : FirstBracket buf.weight p buf.zv o → buf.weight o = -1 →
      ForwardAnswer buf p (.error "Containing expression ends prematurely")
  | none : (∀ r, p ≤ r → r < buf.zv → buf.weight r = 0) → ForwardAnswer buf p .nil

/-- What `scan_lists` by one list backward from `q` is to answer. -/
inductive BackwardAnswer (buf : Buf) (q : Nat) : ScanResult → Prop
  | matched {o c : Nat} : LastBracket buf.weight buf.begv q c → Matched buf.weight o c →
      buf.begv ≤ o → BackwardAnswer buf q (.position o)
  | unmatched {c : Nat} : LastBracket buf.weight buf.begv q c → buf.weight c = -1 →
      (∀ o, Matched buf.weight o c → o < buf.begv) →
      BackwardAnswer buf q (.error "Unbalanced parentheses")
  | premature {c : Nat} : LastBracket buf.weight buf.begv q c → buf.weight c = 1 →
      BackwardAnswer buf q (.error "Containing expression ends prematurely")
  | none : (∀ r, buf.begv ≤ r → r < q → buf.weight r = 0) → BackwardAnswer buf q .nil

variable {buf : Buf} {pos : Nat} (ignore : Bool)

/-- The arguments of `scan_lists` with depth 0 and without SEXPFLAG. -/
def listArgs (ignore : Bool) : ScanArgs := ⟨0, false, ignore⟩

theorem Plain.listsToken (h : buf.Plain pos) (stop : Nat) :
    buf.listsToken (listArgs ignore) stop pos = .char (buf.code pos) (pos + 1) := by
  have hfirst : syntaxCodeStartFirstP (buf.syncode pos) = false := by
    rw [syntaxCodeStartFirstP, h.no_flags]
    decide
  have hcomment : buf.code pos ≠ .scomment := by
    intro hcode
    have := h.simple
    rw [hcode] at this
    simp at this
  have hfence : buf.code pos ≠ .scommentFence := by
    intro hcode
    have := h.simple
    rw [hcode] at this
    simp at this
  rw [Buf.code] at hcomment hfence
  simp [Buf.listsToken, hfirst, hcomment, hfence, h.no_prefix, code]

theorem Plain.forwardStep (h : buf.Plain pos) (stop : Nat) {depth : ℤ} (hdepth : 0 ≤ depth)
    (mathexit : Bool) :
    buf.forwardStep (listArgs ignore) stop ⟨pos, depth, mathexit⟩ =
      if depth + buf.weight pos = 0 ∧ buf.weight pos = -1 then .done ⟨pos + 1, 0, mathexit⟩
      else if depth + buf.weight pos < 0 then .premature
      else .next ⟨pos + 1, depth + buf.weight pos, mathexit⟩ := by
  rw [Buf.forwardStep, h.listsToken]
  have hcode := h.simple
  simp only [List.mem_cons, List.not_mem_nil, or_false] at hcode
  have hnot : ¬ depth < 0 := Int.not_lt.mpr hdepth
  rcases hcode with hc | hc | hc | hc | hc | hc
  · simp [hc, weight, hnot]
  · simp [hc, weight, hnot, endWord, listArgs]
  · simp [hc, weight, hnot, endWord, listArgs]
  · simp [hc, weight, hnot]
  · have hopen : ¬ depth + 1 = 0 := by omega
    have hopen' : ¬ depth + 1 < 0 := by omega
    simp [hc, weight, openCase, hopen, hopen']
  · by_cases hz : depth + -1 = 0
    · simp [hc, weight, closeCase, Int.sub_eq_add_neg, hz]
    · by_cases hneg : depth + -1 < 0
      · simp [hc, weight, closeCase, listArgs, Int.sub_eq_add_neg, hz, hneg]
      · simp [hc, weight, closeCase, listArgs, Int.sub_eq_add_neg, hz, hneg]

theorem weight_cases (buf : Buf) (pos : Nat) :
    buf.weight pos = 1 ∨ buf.weight pos = -1 ∨ buf.weight pos = 0 := by
  unfold weight
  split <;> simp

theorem charQuoted_plain (h : buf.begv < pos → buf.Plain (pos - 1)) :
    (buf.charQuoted pos).value = false := by
  unfold charQuoted
  cases pos with
  | zero => rfl
  | succ pos =>
    rw [charQuotedLoop]
    by_cases hpos : buf.begv < pos + 1
    · have hcode := (h hpos).simple
      rw [Nat.add_sub_cancel, Buf.code] at hcode
      have hquote : syntaxFromCode (buf.syncode pos) ≠ .scharquote := by
        intro hc
        rw [hc] at hcode
        simp at hcode
      have hescape : syntaxFromCode (buf.syncode pos) ≠ .sescape := by
        intro hc
        rw [hc] at hcode
        simp at hcode
      simp [hpos, hquote, hescape]
    · simp [hpos]

theorem Plain.listsBackToken (h : buf.Plain pos) (stop : Nat) :
    buf.listsBackToken (listArgs ignore) stop false pos = .char (buf.code pos) pos := by
  have hsecond : syntaxCodeEndSecondP (buf.syncode pos) = false := by
    rw [syntaxCodeEndSecondP, h.no_flags]
    decide
  have hcomment : buf.code pos ≠ .sendcomment := by
    intro hcode
    have := h.simple
    rw [hcode] at this
    simp at this
  have hfence : buf.code pos ≠ .scommentFence := by
    intro hcode
    have := h.simple
    rw [hcode] at this
    simp at this
  rw [Buf.code] at hcomment hfence
  simp [Buf.listsBackToken, hsecond, hcomment, hfence, h.no_prefix, code]

theorem Plain.backwardStep (h : buf.Plain pos) (stop : Nat)
    (hquoted : (buf.charQuoted pos).value = false) (findStartOfComment : StartOfComment)
    {depth : ℤ} (hdepth : 0 ≤ depth) (mathexit : Bool) :
    buf.backwardStep (listArgs ignore) findStartOfComment stop ⟨pos + 1, depth, mathexit⟩ =
      if depth - buf.weight pos = 0 ∧ buf.weight pos = 1 then .done ⟨pos, 0, mathexit⟩
      else if depth - buf.weight pos < 0 then .premature
      else .next ⟨pos, depth - buf.weight pos, mathexit⟩ := by
  have hsub : pos + 1 - 1 = pos := rfl
  rw [Buf.backwardStep]
  simp only [hsub, hquoted, Bool.false_eq_true, if_false]
  rw [h.listsBackToken]
  have hcode := h.simple
  simp only [List.mem_cons, List.not_mem_nil, or_false] at hcode
  have hnot : ¬ depth < 0 := Int.not_lt.mpr hdepth
  rcases hcode with hc | hc | hc | hc | hc | hc
  · simp [hc, weight, hnot]
  · simp [hc, weight, hnot, beginWord, listArgs]
  · simp [hc, weight, hnot, beginWord, listArgs]
  · simp [hc, weight, hnot]
  · by_cases hz : depth - 1 = 0
    · simp [hc, weight, closeCase, hz]
    · by_cases hneg : depth - 1 < 0
      · simp [hc, weight, closeCase, listArgs, hz, hneg]
      · simp [hc, weight, closeCase, listArgs, hz, hneg]
  · have hclose : ¬ depth + 1 = 0 := by omega
    have hclose' : ¬ depth + 1 < 0 := by omega
    simp [hc, weight, openCase, hclose, hclose']

/-- All characters that are accessible are plain. -/
def AllPlain (buf : Buf) : Prop := ∀ pos, buf.begv ≤ pos → pos < buf.zv → buf.Plain pos

/-! ## Forward -/

theorem forwardLoop_inside (hplain : buf.AllPlain) {o : Nat} (hpos : buf.begv ≤ pos)
    (hzv : pos ≤ buf.zv) (hin : Inside buf.weight o pos) (mathexit : Bool) :
    let s : ScanState := ⟨pos, level buf.weight pos - level buf.weight o, mathexit⟩
    (∃ c, c < buf.zv ∧ Matched buf.weight o c ∧
        buf.forwardLoop (listArgs ignore) false s = .ok ⟨c + 1, 0, mathexit⟩) ∨
      (∀ c, Matched buf.weight o c → buf.zv ≤ c) ∧
        buf.forwardLoop (listArgs ignore) false s = .error (.error "Unbalanced parentheses") := by
  intro s
  have hdepth : 0 < level buf.weight pos - level buf.weight o := by
    have := hin.above pos hin.lt (Nat.le_refl pos)
    omega
  induction hn : buf.zv - pos generalizing pos with
  | zero =>
    obtain rfl : pos = buf.zv := by omega
    refine .inr ⟨fun c hc => hin.not_matched hc, ?_⟩
    rw [forwardLoop_end (Nat.le_refl _), endOfBuffer, if_pos (Int.ne_of_gt hdepth)]
    rfl
  | succ n ih =>
    have hlt : pos < buf.zv := by omega
    have hstep := (hplain pos hpos hlt).forwardStep ignore buf.zv
      (Int.le_of_lt hdepth) mathexit
    rw [forwardLoop_eq hlt, hstep]
    by_cases hmatch : level buf.weight pos - level buf.weight o + buf.weight pos = 0 ∧
        buf.weight pos = -1
    · rw [if_pos hmatch]
      exact .inl ⟨pos, hlt, hin.matched hmatch.2 (by omega), rfl⟩
    · have hinside : level buf.weight o < level buf.weight pos + buf.weight pos := by
        rcases weight_cases buf pos with hw | hw | hw <;> omega
      rw [if_neg hmatch, if_neg (by omega)]
      have hlevel : level buf.weight pos - level buf.weight o + buf.weight pos
          = level buf.weight (pos + 1) - level buf.weight o := by
        rw [level]
        omega
      rw [hlevel]
      refine ih (by omega) hlt (hin.step hinside) ?_ (by omega)
      rw [← hlevel]
      omega

theorem forward_answer (hplain : buf.AllPlain) (findStartOfComment : StartOfComment)
    (pos : Nat) (hpos : buf.begv ≤ pos) (hzv : pos ≤ buf.zv) :
    buf.ForwardAnswer pos (buf.scanLists findStartOfComment ignore pos 1 0 false false) := by
  have hscan : buf.scanLists findStartOfComment ignore pos 1 0 false false
      = buf.scanForward (listArgs ignore) false 1 ⟨pos, 0, false⟩ := rfl
  rw [hscan]
  clear hscan
  -- no bracket up to the place that the scan has come to
  suffices h : ∀ x, pos ≤ x → x ≤ buf.zv → (∀ r, pos ≤ r → r < x → buf.weight r = 0) →
      buf.ForwardAnswer pos (buf.scanForward (listArgs ignore) false 1 ⟨x, 0, false⟩) from
    h pos (Nat.le_refl pos) hzv fun r hr hr' => absurd hr (Nat.not_le_of_lt hr')
  intro x hx hxzv hnone
  induction hn : buf.zv - x generalizing x with
  | zero =>
    obtain rfl : x = buf.zv := by omega
    rw [scanForward, forwardLoop_end (Nat.le_refl _)]
    exact .none hnone
  | succ n ih =>
    have hlt : x < buf.zv := by omega
    have hstep := (hplain x (by omega) hlt).forwardStep ignore buf.zv
      (Int.le_refl 0) false
    rw [scanForward, forwardLoop_eq hlt, hstep]
    have hfirst : buf.weight x ≠ 0 → FirstBracket buf.weight pos buf.zv x :=
      fun hw => ⟨hx, hlt, hw, hnone⟩
    rcases weight_cases buf x with hw | hw | hw
    · -- the first bracket opens
      have hin := Inside.first hw
      have hlevel : (0 : ℤ) + buf.weight x = level buf.weight (x + 1) - level buf.weight x := by
        rw [level]
        omega
      have hnext : x + 1 ≤ buf.zv := hlt
      rw [if_neg (by omega), if_neg (by omega), hlevel]
      dsimp only
      rcases forwardLoop_inside ignore hplain (by omega) hnext hin false with
        ⟨c, hc, hmatched, hloop⟩ | ⟨hnot, hloop⟩
      · rw [hloop]
        exact .matched (hfirst (by omega)) hmatched hc
      · rw [hloop]
        exact .unmatched (hfirst (by omega)) hw hnot
    · rw [if_neg (by omega), if_pos (by omega)]
      exact .premature (hfirst (by omega)) hw
    · rw [if_neg (by omega), if_neg (by omega), hw]
      refine ih (x + 1) (by omega) hlt (fun r hr hr' => ?_) (by omega)
      rcases Nat.lt_or_eq_of_le (Nat.le_of_lt_succ hr') with hlt' | rfl
      · exact hnone r hr hlt'
      · exact hw

/-! ## Backward -/

theorem backwardLoop_inside (hplain : buf.AllPlain) (findStartOfComment : StartOfComment)
    {c : Nat} (hpos : buf.begv ≤ pos) (hzv : pos ≤ buf.zv)
    (hin : InsideBack buf.weight c pos) (mathexit : Bool) :
    let s : ScanState := ⟨pos, level buf.weight pos - level buf.weight (c + 1), mathexit⟩
    (∃ o, buf.begv ≤ o ∧ Matched buf.weight o c ∧
        buf.backwardLoop (listArgs ignore) findStartOfComment false s = .ok ⟨o, 0, mathexit⟩) ∨
      (∀ o, Matched buf.weight o c → o < buf.begv) ∧
        buf.backwardLoop (listArgs ignore) findStartOfComment false s
          = .error (.error "Unbalanced parentheses") := by
  intro s
  have hdepth : 0 < level buf.weight pos - level buf.weight (c + 1) := by
    have := hin.above pos (Nat.le_refl pos) hin.le
    omega
  induction pos with
  | zero =>
    refine .inr ⟨fun o ho => absurd (hin.not_matched ho) (Nat.not_lt_zero o), ?_⟩
    rw [backwardLoop_end (Nat.zero_le _), endOfBuffer, if_pos (Int.ne_of_gt hdepth)]
    rfl
  | succ pos ih =>
    obtain hbeg | hlt : pos + 1 = buf.begv ∨ buf.begv < pos + 1 := by omega
    · refine .inr ⟨fun o ho => hbeg ▸ hin.not_matched ho, ?_⟩
      rw [backwardLoop_end (Nat.le_of_eq hbeg), endOfBuffer, if_pos (Int.ne_of_gt hdepth)]
      rfl
    · have hplainPos := hplain pos (by omega) (by omega)
      have hquoted : (buf.charQuoted pos).value = false :=
        charQuoted_plain fun h => hplain (pos - 1) (by omega) (by omega)
      have hstep := hplainPos.backwardStep ignore buf.begv hquoted
        findStartOfComment (Int.le_of_lt hdepth) mathexit
      rw [backwardLoop_eq hlt, hstep]
      have hlevel : level buf.weight (pos + 1) - level buf.weight (c + 1) - buf.weight pos
          = level buf.weight pos - level buf.weight (c + 1) := by
        rw [level]
        omega
      by_cases hmatch : level buf.weight (pos + 1) - level buf.weight (c + 1)
          - buf.weight pos = 0 ∧ buf.weight pos = 1
      · rw [if_pos hmatch]
        exact .inl ⟨pos, by omega, hin.matched hmatch.2 (by omega), rfl⟩
      · have hinside : level buf.weight (c + 1) < level buf.weight pos := by
          rcases weight_cases buf pos with hw | hw | hw <;> omega
        rw [if_neg hmatch, if_neg (by omega), hlevel]
        exact ih (by omega) (by omega) (hin.step hinside) (by omega)

/-- `scan_lists` by one list backward. -/
theorem backward_answer (hplain : buf.AllPlain) (findStartOfComment : StartOfComment)
    (pos : Nat) (hpos : buf.begv ≤ pos) (hzv : pos ≤ buf.zv) :
    buf.BackwardAnswer pos
      (buf.scanLists findStartOfComment ignore pos (-1) 0 false false) := by
  have hscan : buf.scanLists findStartOfComment ignore pos (-1) 0 false false
      = buf.scanBackward (listArgs ignore) findStartOfComment false 1 ⟨pos, 0, false⟩ := rfl
  rw [hscan]
  clear hscan
  -- no bracket down to the place that the scan has come to
  suffices h : ∀ x, buf.begv ≤ x → x ≤ pos → (∀ r, x ≤ r → r < pos → buf.weight r = 0) →
      buf.BackwardAnswer pos
        (buf.scanBackward (listArgs ignore) findStartOfComment false 1 ⟨x, 0, false⟩) from
    h pos hpos (Nat.le_refl pos) fun r hr hr' => absurd hr (Nat.not_le_of_lt hr')
  intro x hbeg hx hnone
  induction x with
  | zero =>
    rw [scanBackward, backwardLoop_end (Nat.zero_le _)]
    exact .none fun r _ hr' => hnone r (Nat.zero_le r) hr'
  | succ x ih =>
    obtain heq | hlt : x + 1 = buf.begv ∨ buf.begv < x + 1 := by omega
    · rw [scanBackward, backwardLoop_end (Nat.le_of_eq heq)]
      exact .none fun r hr hr' => hnone r (heq ▸ hr) hr'
    · have hplainPos := hplain x (by omega) (by omega)
      have hquoted : (buf.charQuoted x).value = false :=
        charQuoted_plain fun h => hplain (x - 1) (by omega) (by omega)
      have hstep := hplainPos.backwardStep ignore buf.begv hquoted
        findStartOfComment (Int.le_refl 0) false
      rw [scanBackward, backwardLoop_eq hlt, hstep]
      have hlast : buf.weight x ≠ 0 → LastBracket buf.weight buf.begv pos x :=
        fun hw => ⟨by omega, by omega, hw, hnone⟩
      rcases weight_cases buf x with hw | hw | hw
      · rw [if_neg (by omega), if_pos (by omega)]
        exact .premature (hlast (by omega)) hw
      · -- the last bracket closes
        have hin := InsideBack.first hw
        have hlevel : (0 : ℤ) - buf.weight x
            = level buf.weight x - level buf.weight (x + 1) := by
          rw [level]
          omega
        rw [if_neg (by omega), if_neg (by omega), hlevel]
        dsimp only
        rcases backwardLoop_inside ignore hplain findStartOfComment
          (by omega) (by omega) hin false with ⟨o, ho, hmatched, hloop⟩ | ⟨hnot, hloop⟩
        · rw [hloop]
          exact .matched (hlast (by omega)) hmatched ho
        · rw [hloop]
          exact .unmatched (hlast (by omega)) hw hnot
      · rw [if_neg (by omega), if_neg (by omega), hw]
        refine ih (by omega) (by omega) fun r hr hr' => ?_
        rcases Nat.lt_or_eq_of_le hr with hlt' | rfl
        · exact hnone r hlt' hr'
        · exact hw

/-- **Scanning by one list** in a buffer of plain characters: both directions answer as the
counting of brackets says, and from the place found forward the scan backward comes to the
first bracket from the starting place on, which is the match of the one before this place. -/
theorem scanLists_symmetric (findStartOfComment : StartOfComment)
    (hplain : buf.AllPlain) (p : Nat) (hbegv : buf.begv ≤ p) (hzv : p ≤ buf.zv) :
    let scan (count : ℤ) (pos : Nat) :=
      buf.scanLists findStartOfComment ignore pos count 0 false false
    buf.ForwardAnswer p (scan 1 p) ∧ buf.BackwardAnswer p (scan (-1) p) ∧
      ∀ q, scan 1 p = .position q → ∃ o c, q = c + 1 ∧
        FirstBracket buf.weight p buf.zv o ∧ Matched buf.weight o c ∧
          scan (-1) q = .position o := by
  intro scan
  have hforward := forward_answer ignore hplain findStartOfComment p hbegv hzv
  refine ⟨hforward, backward_answer ignore hplain findStartOfComment p hbegv hzv, fun q hq => ?_⟩
  have hanswer : buf.ForwardAnswer p (.position q) := hq ▸ hforward
  cases hanswer with
  | @matched o c hfirst hmatched hc =>
    refine ⟨o, c, rfl, hfirst, hmatched, ?_⟩
    have hlast : LastBracket buf.weight buf.begv (c + 1) c := by
      have := hfirst.le
      have := hmatched.lt
      exact hmatched.lastBracket (by omega)
    have hback := backward_answer ignore hplain
      findStartOfComment (c + 1) (Nat.le_succ_of_le hlast.le) hc
    have hscan : scan (-1) (c + 1)
        = buf.scanLists findStartOfComment ignore (c + 1) (-1) 0 false false := rfl
    rw [hscan]
    cases hresult : buf.scanLists findStartOfComment ignore (c + 1) (-1) 0 false false with
    | position o' =>
      rw [hresult] at hback
      cases hback with
      | matched hlast' hmatched' _ =>
        obtain rfl := hlast'.unique hlast
        rw [hmatched'.open_unique hmatched]
    | nil =>
      rw [hresult] at hback
      cases hback with
      | none hnone => exact absurd (hnone c hlast.le hlast.lt) hlast.bracket
    | error message =>
      have hclose := hmatched.closes
      have hbeg : buf.begv ≤ o := Nat.le_trans hbegv hfirst.le
      rw [hresult] at hback
      cases hback with
      | unmatched hlast' _ hnot =>
        obtain rfl := hlast'.unique hlast
        exact absurd hbeg (Nat.not_le_of_lt (hnot o hmatched))
      | premature hlast' hopen =>
        obtain rfl := hlast'.unique hlast
        omega

/-- A buffer with an empty list, `()`. -/
def emptyList : Buf where
  begv := 1
  zv := 3
  bufFetchChar pos := if pos = 1 then 40 else 41
  mirrortab c := if c = 40 then 4 else 5
  syntaxMatch _ := none

theorem emptyList_plain : emptyList.AllPlain := by
  intro pos hbegv hzv
  obtain rfl | rfl : pos = 1 ∨ pos = 2 := by
    have h₁ : 1 ≤ pos := hbegv
    have h₂ : pos < 3 := hzv
    omega
  · exact ⟨by decide, by decide, by decide⟩
  · exact ⟨by decide, by decide, by decide⟩

/-- The search for the start of a comment is not come to. -/
theorem scanLists_emptyList :
    let scan (count : ℤ) (pos : Nat) :=
      emptyList.scanLists (fun pos _ => ⟨pos, Nat.le_refl pos⟩) true pos count 0 false false
    emptyList.ForwardAnswer 1 (scan 1 1) ∧ emptyList.BackwardAnswer 1 (scan (-1) 1) ∧
      ∀ q, scan 1 1 = .position q → ∃ o c, q = c + 1 ∧
        FirstBracket emptyList.weight 1 emptyList.zv o ∧ Matched emptyList.weight o c ∧
          scan (-1) q = .position o :=
  scanLists_symmetric true (fun pos _ => ⟨pos, Nat.le_refl pos⟩) emptyList_plain 1
    (Nat.le_refl 1) (by decide)

/-- A buffer with a letter. -/
def oneLetter : Buf where
  begv := 1
  zv := 2
  bufFetchChar _ := 97
  mirrortab _ := 2
  syntaxMatch _ := none

theorem oneLetter_code (pos : Nat) : oneLetter.code pos = .sword := by
  have h : syntaxFromCode 2 = .sword := by decide
  exact h

theorem oneLetter_weight (pos : Nat) : oneLetter.weight pos = 0 := by
  rw [weight, oneLetter_code]

/-- In a buffer with a letter there is no match, and no error. -/
theorem scanLists_oneLetter :
    oneLetter.AllPlain ∧
      ¬ ((∃ message, oneLetter.scanLists (fun pos _ => ⟨pos, Nat.le_refl pos⟩) true 1 1 0
          false false = .error message) ↔
        ¬ ∃ o c, FirstBracket oneLetter.weight 1 oneLetter.zv o ∧
          Matched oneLetter.weight o c ∧ c < oneLetter.zv) := by
  have hplain : oneLetter.AllPlain := by
    intro pos _ _
    refine ⟨?_, ?_, ?_⟩
    · rw [oneLetter_code]
      decide
    · show syntaxCodePrefix 2 = false
      decide
    · show syntaxCodeCommentBits 2 = 0
      decide
  refine ⟨hplain, fun h => ?_⟩
  have hnone : ¬ ∃ o c, FirstBracket oneLetter.weight 1 oneLetter.zv o ∧
      Matched oneLetter.weight o c ∧ c < oneLetter.zv := by
    rintro ⟨o, c, hfirst, -, -⟩
    exact hfirst.bracket (oneLetter_weight _)
  obtain ⟨message, hmessage⟩ := h.mpr hnone
  have hanswer := forward_answer true hplain (fun pos _ => ⟨pos, Nat.le_refl pos⟩) 1
    (Nat.le_refl 1) (by decide)
  rw [hmessage] at hanswer
  cases hanswer with
  | unmatched hfirst => exact hfirst.bracket (oneLetter_weight _)
  | premature hfirst => exact hfirst.bracket (oneLetter_weight _)

end XEmacs.SyntaxScan.Buf
