import XEmacs.SyntaxScan.Comments

/-!
# forward-comment, forward (syntax.c)

`Fforward_comment` with a positive count.
-/

namespace XEmacs.SyntaxScan.Buf

variable (buf : Buf)

/-- What `Fforward_comment` does at the character at `pos`, whose code is `syncode`, until
`code == Scomment` is tested the second time: the style, and the position that it hands to
`find_end_of_comment`. -/
def commentStart (stop pos : Nat) (syncode : Syncode) : Fetching (Option (Comstyle × Nat)) :=
  let code := syntaxFromCode syncode
  if code = .scomment then pure (some (.ofMask (syntaxCodeComment1charMask syncode), pos))
  else if code = .scommentFence then pure (some (.stCommentStyle, pos + 1))
  else if pos < stop ∧ syntaxCodeStartFirstP syncode then do
    let nextSyncode ← buf.fetch (pos + 1)
    if syntaxCodesStartP syncode nextSyncode then
      pure (some (.ofMask (syntaxCodesCommentMaskStart syncode nextSyncode), pos + 1))
    else pure none
  else pure none

/-- How the inner loop ends: by the return of nil with point at `pt`, by the break behind a
comment, or by its condition. -/
inductive Exit where
  | returned (pt : Nat)
  | broke (pos : Nat)
  | ranOut (pos : Nat)

/-- How the loop is left at a comment that ends as `find_end_of_comment` found. -/
def Exit.ofComment (stop : Nat) : Option Nat → Exit
  | none => returned stop
  | some newfrom => broke newfrom

/-- The inner loop of `Fforward_comment`, at `pos`. -/
def blanksLoop (stop pos : Nat) : Fetching Exit :=
  if _h : pos < stop then do
    if ← buf.charQuoted pos then blanksLoop stop (pos + 1)
    else
      let syncode ← buf.fetch pos
      match ← buf.commentStart stop pos syncode with
      | some (comstyle, start) =>
        return .ofComment stop (← buf.findEndOfComment stop comstyle start)
      | none =>
        if syntaxFromCode syncode ≠ .swhitespace ∧ syntaxFromCode syncode ≠ .sendcomment then
          pure (.returned pos)
        else blanksLoop stop (pos + 1)
  else pure (.ranOut pos)
  termination_by stop - pos

/-- `Fforward_comment` from `pos` on, with a count that is not negative: what it returns, as
a truth value, and where it leaves point. -/
def forwardComment : Nat → Nat → Fetching (Bool × Nat)
  | 0, pos => pure (true, pos)
  | n + 1, pos => do
    match ← buf.blanksLoop buf.zv pos with
    | .returned pt => pure (false, pt)
    | .broke pos => forwardComment n pos
    | .ranOut pos => forwardComment n pos

/-! ## What it is to report -/

/-- A quoted character. -/
def Escaped (pos : Nat) : Prop := (buf.charQuoted pos).value = true

/-- Unescaped whitespace, or a stray comment ender. -/
structure Blank (pos : Nat) : Prop where
  lt : pos < buf.zv
  unescaped : ¬ buf.Escaped pos
  no_starter : ¬ ∃ comstyle start, buf.Starter buf.zv pos comstyle start
  code : buf.code pos = .swhitespace ∨ buf.code pos = .sendcomment

/-- A comment from `pos` to `finish`. -/
structure Comment (pos finish : Nat) (comstyle : Comstyle) (start : Nat) : Prop where
  lt : pos < buf.zv
  unescaped : ¬ buf.Escaped pos
  starter : buf.Starter buf.zv pos comstyle start
  ends : buf.EndsAt buf.zv comstyle start finish

/-- What forward-comment with the count `n` is to report from `pos` on: t behind the
`n`-th comment, or nil where there is something else. A comment without an end goes on to
the end of the accessible region. -/
inductive Reports : Nat → Nat → Bool × Nat → Prop
  | done (pos : Nat) : Reports pos 0 (true, pos)
  | blank {pos n : Nat} {r : Bool × Nat} : buf.Blank pos → Reports (pos + 1) (n + 1) r →
      Reports pos (n + 1) r
  | comment {pos finish n : Nat} {r : Bool × Nat} {comstyle : Comstyle} {start : Nat} :
      buf.Comment pos finish comstyle start → Reports finish n r → Reports pos (n + 1) r
  | unterminated {pos n : Nat} {comstyle : Comstyle} {start : Nat} : pos < buf.zv →
      ¬ buf.Escaped pos → buf.Starter buf.zv pos comstyle start →
      (¬ ∃ finish, buf.EndsAt buf.zv comstyle start finish) →
      Reports pos (n + 1) (false, buf.zv)
  | other {pos n : Nat} : pos < buf.zv →
      (buf.Escaped pos ∨ (¬ ∃ comstyle start, buf.Starter buf.zv pos comstyle start) ∧
        buf.code pos ≠ .swhitespace ∧ buf.code pos ≠ .sendcomment) →
      Reports pos (n + 1) (false, pos)
  | zv {n : Nat} : Reports buf.zv (n + 1) (false, buf.zv)

/-- forward-comment reports as it should, and fetches nothing at or behind `BUF_ZV`. -/
def Truthful (pos n : Nat) : Prop :=
  buf.Reports pos n (buf.forwardComment n pos).value ∧
    (buf.forwardComment n pos).Inside buf.zv

/-! ## Where it does -/

/-- From `pos` the scan comes to `x` over blanks and `k` comments. -/
inductive Reached : Nat → Nat → Nat → Prop
  | here (pos : Nat) : Reached pos 0 pos
  | blank {pos k x : Nat} : buf.Blank pos → Reached (pos + 1) k x → Reached pos k x
  | comment {pos finish k x : Nat} {comstyle : Comstyle} {start : Nat} :
      buf.Comment pos finish comstyle start → Reached finish k x → Reached pos (k + 1) x

/-- There is an unescaped character at `pos`, which is not at the end a first character of
a starter of two, and is not the starter of a comment, other than a generic one, that has
no end or has a starter that runs together with what follows. -/
structure Fine (pos : Nat) : Prop where
  lt : pos < buf.zv
  unescaped : ¬ buf.Escaped pos
  look : pos + 1 = buf.zv → syntaxCodeStartFirstP (buf.syncode pos) = true →
    buf.code pos = .scomment ∨ buf.code pos = .scommentFence
  ends : ∀ comstyle start, buf.Starter buf.zv pos comstyle start →
    comstyle ≠ .stCommentStyle → ∃ finish, buf.EndsAt buf.zv comstyle start finish
  apart : ∀ comstyle start, buf.Starter buf.zv pos comstyle start →
    comstyle ≠ .stCommentStyle → ¬ buf.RunTogether buf.zv comstyle (start - 1)

variable {buf} {stop pos start finish n : Nat} {comstyle : Comstyle}

/-! ## The recognition of starters -/

/-- What is handed to `find_end_of_comment`. -/
def handed (comstyle : Comstyle) (start : Nat) : Nat :=
  if comstyle = .stCommentStyle then start else start - 1

theorem commentStart_starter (h : buf.Starter stop pos comstyle start) (hpos : pos < stop) :
    (buf.commentStart stop pos (buf.syncode pos)).value
        = some (comstyle, handed comstyle start) ∧
      (buf.commentStart stop pos (buf.syncode pos)).Inside stop := by
  unfold commentStart handed
  cases h with
  | one hcode =>
    rw [code] at hcode
    simp [hcode, Comstyle.ofMask_ne]
  | fence hcode =>
    rw [code] at hcode
    simp [hcode]
  | pair hne hne' hlt hstart =>
    rw [code] at hne hne'
    simp [hne, hne', hpos, syntaxCodeStartFirstP_of_startP hstart, hstart, hlt,
      Comstyle.ofMask_ne]

theorem commentStart_none (h : ¬ ∃ comstyle start, buf.Starter stop pos comstyle start)
    (hlook : pos + 1 = stop → syntaxCodeStartFirstP (buf.syncode pos) = true →
      buf.code pos = .scomment ∨ buf.code pos = .scommentFence) (hpos : pos < stop) :
    (buf.commentStart stop pos (buf.syncode pos)).value = none ∧
      (buf.commentStart stop pos (buf.syncode pos)).Inside stop := by
  have hone : syntaxFromCode (buf.syncode pos) ≠ .scomment :=
    fun hcode => h ⟨_, _, .one hcode⟩
  have hfence : syntaxFromCode (buf.syncode pos) ≠ .scommentFence :=
    fun hcode => h ⟨_, _, .fence hcode⟩
  unfold commentStart
  by_cases hfirst : syntaxCodeStartFirstP (buf.syncode pos) = true
  · have hlt : pos + 1 < stop := by
      refine Nat.lt_of_le_of_ne hpos fun heq => ?_
      rcases hlook heq hfirst with hcode | hcode
      · exact hone hcode
      · exact hfence hcode
    have hstart : ¬ syntaxCodesStartP (buf.syncode pos) (buf.syncode (pos + 1)) = true :=
      fun hstart => h ⟨_, _, .pair hone hfence hlt hstart⟩
    simp [hone, hfence, hfirst, hstart, hpos, hlt]
  · simp [hone, hfence, hfirst]

theorem commentStart_look (hfirst : syntaxCodeStartFirstP (buf.syncode pos) = true)
    (hone : buf.code pos ≠ .scomment) (hfence : buf.code pos ≠ .scommentFence)
    (hpos : pos + 1 = stop) :
    ¬ (buf.commentStart stop pos (buf.syncode pos)).Inside stop := by
  rw [code] at hone hfence
  unfold commentStart
  have hlt : pos < stop := by omega
  simp [hone, hfence, hfirst, hlt, hpos]

/-! ## The inner loop -/

theorem blanksLoop_unescaped (hpos : pos < buf.zv) (hesc : ¬ buf.Escaped pos) :
    buf.blanksLoop buf.zv pos = (do
      let _ ← buf.charQuoted pos
      let syncode ← buf.fetch pos
      match ← buf.commentStart buf.zv pos syncode with
      | some (comstyle, start) =>
        return .ofComment buf.zv (← buf.findEndOfComment buf.zv comstyle start)
      | none =>
        if syntaxFromCode syncode ≠ .swhitespace ∧ syntaxFromCode syncode ≠ .sendcomment then
          pure (.returned pos)
        else buf.blanksLoop buf.zv (pos + 1)) := by
  rw [blanksLoop, dif_pos hpos]
  have hquoted : (buf.charQuoted pos).value = false := Bool.eq_false_iff.mpr hesc
  simp only [bind, hquoted, Bool.false_eq_true, if_false]

theorem blanksLoop_starter (hpos : pos < buf.zv) (hesc : ¬ buf.Escaped pos)
    (h : buf.Starter buf.zv pos comstyle start) :
    (buf.blanksLoop buf.zv pos).value = .ofComment buf.zv
        (buf.findEndOfComment buf.zv comstyle (handed comstyle start)).value ∧
      ((buf.blanksLoop buf.zv pos).Inside buf.zv ↔
        (buf.findEndOfComment buf.zv comstyle (handed comstyle start)).Inside buf.zv) := by
  obtain ⟨hvalue, hinside⟩ := commentStart_starter h hpos
  have hquoted := buf.charQuoted_inside (Nat.le_of_lt hpos)
  rw [blanksLoop_unescaped hpos hesc]
  simp only [Fetching.value_bind, value_fetch, Fetching.inside_bind, inside_fetch, hvalue,
    hinside, hquoted, hpos, true_and]
  exact ⟨rfl, and_iff_left (Fetching.inside_pure _)⟩

theorem blanksLoop_none (hpos : pos < buf.zv) (hesc : ¬ buf.Escaped pos)
    (h : ¬ ∃ comstyle start, buf.Starter buf.zv pos comstyle start)
    (hlook : pos + 1 = buf.zv → syntaxCodeStartFirstP (buf.syncode pos) = true →
      buf.code pos = .scomment ∨ buf.code pos = .scommentFence) :
    let rest := if buf.code pos ≠ .swhitespace ∧ buf.code pos ≠ .sendcomment then
        pure (.returned pos)
      else buf.blanksLoop buf.zv (pos + 1)
    (buf.blanksLoop buf.zv pos).value = rest.value ∧
      ((buf.blanksLoop buf.zv pos).Inside buf.zv ↔ rest.Inside buf.zv) := by
  obtain ⟨hvalue, hinside⟩ := commentStart_none h hlook hpos
  have hquoted := buf.charQuoted_inside (Nat.le_of_lt hpos)
  rw [blanksLoop_unescaped hpos hesc]
  simp only [Fetching.value_bind, value_fetch, Fetching.inside_bind, inside_fetch, hvalue,
    hinside, hquoted, hpos, true_and]
  exact ⟨rfl, Iff.rfl⟩

theorem blanksLoop_blank (h : buf.Blank pos) (hfine : buf.Fine pos) :
    (buf.blanksLoop buf.zv pos).value = (buf.blanksLoop buf.zv (pos + 1)).value ∧
      ((buf.blanksLoop buf.zv pos).Inside buf.zv ↔
        (buf.blanksLoop buf.zv (pos + 1)).Inside buf.zv) := by
  have hrest := blanksLoop_none h.lt h.unescaped h.no_starter hfine.look
  rwa [if_neg] at hrest
  rintro ⟨hws, hend⟩
  rcases h.code with hcode | hcode
  · exact hws hcode
  · exact hend hcode

theorem blanksLoop_other (hfine : buf.Fine pos)
    (h : ¬ ∃ comstyle start, buf.Starter buf.zv pos comstyle start)
    (hws : buf.code pos ≠ .swhitespace) (hend : buf.code pos ≠ .sendcomment) :
    (buf.blanksLoop buf.zv pos).value = .returned pos ∧
      (buf.blanksLoop buf.zv pos).Inside buf.zv := by
  have hrest := blanksLoop_none hfine.lt hfine.unescaped h hfine.look
  rw [if_pos ⟨hws, hend⟩] at hrest
  exact ⟨hrest.1, hrest.2.mpr (Fetching.inside_pure _)⟩

theorem findEndOfComment_handed (hfine : buf.Fine pos)
    (h : buf.Starter buf.zv pos comstyle start) :
    (buf.findEndOfComment buf.zv comstyle (handed comstyle start)).value =
        (buf.findEndOfComment buf.zv comstyle start).value ∧
      (buf.findEndOfComment buf.zv comstyle (handed comstyle start)).Inside buf.zv := by
  unfold handed
  by_cases hstyle : comstyle = .stCommentStyle
  · subst hstyle
    rw [if_pos rfl]
    exact ⟨rfl, findEndOfComment_inside_fence⟩
  · rw [if_neg hstyle]
    have hlast := h.last hfine.lt
    have hlt : start - 1 < buf.zv := by omega
    have heq := (findEndOfComment_last hlt).mpr (hfine.apart _ _ h hstyle)
    rw [Nat.sub_add_cancel (by omega)] at heq
    obtain ⟨finish, hfinish⟩ := hfine.ends _ _ h hstyle
    refine ⟨heq, (findEndOfComment_inside hstyle hlt).mpr ⟨finish, ?_⟩⟩
    rw [← findEndOfComment_eq_some] at hfinish ⊢
    rw [heq, hfinish]

theorem blanksLoop_comment (h : buf.Comment pos finish comstyle start)
    (hfine : buf.Fine pos) :
    (buf.blanksLoop buf.zv pos).value = .broke finish ∧
      (buf.blanksLoop buf.zv pos).Inside buf.zv := by
  obtain ⟨hvalue, hinside⟩ := blanksLoop_starter h.lt h.unescaped h.starter
  obtain ⟨hend, hin⟩ := findEndOfComment_handed hfine h.starter
  rw [findEndOfComment_eq_some.mpr h.ends] at hend
  rw [hend] at hvalue
  exact ⟨hvalue, hinside.mpr hin⟩

theorem blanksLoop_unterminated (hfine : buf.Fine pos)
    (h : buf.Starter buf.zv pos comstyle start)
    (hnone : ¬ ∃ finish, buf.EndsAt buf.zv comstyle start finish) :
    (buf.blanksLoop buf.zv pos).value = .returned buf.zv ∧
      (buf.blanksLoop buf.zv pos).Inside buf.zv := by
  obtain ⟨hvalue, hinside⟩ := blanksLoop_starter hfine.lt hfine.unescaped h
  obtain ⟨hend, hin⟩ := findEndOfComment_handed hfine h
  rw [findEndOfComment_eq_none.mpr hnone] at hend
  rw [hend] at hvalue
  exact ⟨hvalue, hinside.mpr hin⟩

theorem le_commentStart (h : (buf.commentStart stop pos (buf.syncode pos)).value
    = some (comstyle, start)) : pos ≤ start ∧ start ≤ pos + 1 := by
  unfold commentStart at h
  dsimp only at h
  split at h
  · cases h
    omega
  · split at h
    · cases h
      omega
    · split at h
      · by_cases hstart : syntaxCodesStartP (buf.syncode pos) (buf.syncode (pos + 1)) = true
        · simp only [Fetching.value_bind, value_fetch, hstart, if_true, Fetching.value_pure,
            Option.some.injEq, Prod.mk.injEq] at h
          omega
        · simp [hstart] at h
      · cases h

/-- Where the loop is left. -/
def Exit.place : Exit → Nat
  | returned pt => pt
  | broke pos => pos
  | ranOut pos => pos

theorem le_findEndOfComment (h : start ≤ buf.zv) :
    start ≤ (Exit.ofComment buf.zv
      (buf.findEndOfComment buf.zv comstyle start).value).place := by
  cases hend : (buf.findEndOfComment buf.zv comstyle start).value with
  | none => exact h
  | some finish => exact Nat.le_of_lt (findEndOfComment_eq_some.mp hend).bounds.1

theorem le_blanksLoop (h : pos ≤ buf.zv) : pos ≤ (buf.blanksLoop buf.zv pos).value.place := by
  induction hn : buf.zv - pos generalizing pos with
  | zero =>
    rw [blanksLoop, dif_neg (by omega)]
    exact Nat.le_refl _
  | succ n ih =>
    have hlt : pos < buf.zv := by omega
    have hnext := ih hlt (by omega)
    rw [blanksLoop, dif_pos hlt]
    simp only [Fetching.value_bind]
    split
    · exact Nat.le_of_succ_le hnext
    · simp only [Fetching.value_bind]
      split
      · rename_i comstyle start hstart
        have hle := le_commentStart hstart
        exact Nat.le_trans hle.1 (le_findEndOfComment (by omega))
      · split
        · exact Nat.le_refl _
        · exact Nat.le_of_succ_le hnext

/-! ## The outer loop -/

theorem forwardComment_returned {pt : Nat}
    (h : (buf.blanksLoop buf.zv pos).value = .returned pt) :
    (buf.forwardComment (n + 1) pos).value = (false, pt) ∧
      ((buf.forwardComment (n + 1) pos).Inside buf.zv ↔
        (buf.blanksLoop buf.zv pos).Inside buf.zv) := by
  rw [forwardComment]
  simp only [Fetching.value_bind, Fetching.inside_bind, h]
  exact ⟨rfl, and_iff_left (Fetching.inside_pure _)⟩

theorem forwardComment_broke {q : Nat} (h : (buf.blanksLoop buf.zv pos).value = .broke q) :
    (buf.forwardComment (n + 1) pos).value = (buf.forwardComment n q).value ∧
      ((buf.forwardComment (n + 1) pos).Inside buf.zv ↔
        (buf.blanksLoop buf.zv pos).Inside buf.zv ∧
          (buf.forwardComment n q).Inside buf.zv) := by
  constructor
  · simp only [forwardComment, Fetching.value_bind, h]
  · simp only [forwardComment, Fetching.inside_bind, h]

theorem forwardComment_blank (h : buf.Blank pos) (hfine : buf.Fine pos) :
    (buf.forwardComment (n + 1) pos).value = (buf.forwardComment (n + 1) (pos + 1)).value ∧
      ((buf.forwardComment (n + 1) pos).Inside buf.zv ↔
        (buf.forwardComment (n + 1) (pos + 1)).Inside buf.zv) := by
  obtain ⟨hvalue, hinside⟩ := blanksLoop_blank h hfine
  constructor
  · simp only [forwardComment, Fetching.value_bind, hvalue]
  · simp only [forwardComment, Fetching.inside_bind, hvalue, hinside]

theorem forwardComment_ofComment {end? : Option Nat}
    (h : (buf.blanksLoop buf.zv pos).value = .ofComment buf.zv end?) :
    (buf.forwardComment 1 pos).value = (end?.isSome, end?.getD buf.zv) := by
  cases end? with
  | none => exact (forwardComment_returned h).1
  | some finish => exact (forwardComment_broke h).1

/-! ## What is to be reported, step by step -/

theorem reports_blank (h : buf.Blank pos) {r : Bool × Nat} :
    buf.Reports pos (n + 1) r ↔ buf.Reports (pos + 1) (n + 1) r := by
  refine ⟨fun hr => ?_, .blank h⟩
  cases hr with
  | blank _ hr => exact hr
  | comment hc => exact absurd ⟨_, _, hc.starter⟩ h.no_starter
  | unterminated _ _ hs => exact absurd ⟨_, _, hs⟩ h.no_starter
  | other _ hother =>
    rcases hother with hesc | ⟨-, hws, hend⟩
    · exact absurd hesc h.unescaped
    · rcases h.code with hcode | hcode
      · exact absurd hcode hws
      · exact absurd hcode hend
  | zv => exact absurd h.lt (Nat.lt_irrefl _)

theorem reports_comment (h : buf.Comment pos finish comstyle start) {r : Bool × Nat} :
    buf.Reports pos (n + 1) r ↔ buf.Reports finish n r := by
  refine ⟨fun hr => ?_, .comment h⟩
  cases hr with
  | blank hb => exact absurd ⟨_, _, h.starter⟩ hb.no_starter
  | comment hc hr =>
    obtain ⟨rfl, rfl⟩ := hc.starter.unique h.starter
    obtain rfl := hc.ends.unique h.ends
    exact hr
  | unterminated _ _ hs hnone =>
    obtain ⟨rfl, rfl⟩ := hs.unique h.starter
    exact absurd ⟨_, h.ends⟩ hnone
  | other _ hother =>
    rcases hother with hesc | ⟨hno, -⟩
    · exact absurd hesc h.unescaped
    · exact absurd ⟨_, _, h.starter⟩ hno
  | zv => exact absurd h.lt (Nat.lt_irrefl _)

theorem truthful_blank (h : buf.Blank pos) (hfine : buf.Fine pos) :
    buf.Truthful pos (n + 1) ↔ buf.Truthful (pos + 1) (n + 1) := by
  obtain ⟨hvalue, hinside⟩ := forwardComment_blank (n := n) h hfine
  rw [Truthful, Truthful, hvalue, hinside, reports_blank h]

theorem truthful_comment (h : buf.Comment pos finish comstyle start)
    (hfine : buf.Fine pos) : buf.Truthful pos (n + 1) ↔ buf.Truthful finish n := by
  obtain ⟨hbroke, hin⟩ := blanksLoop_comment h hfine
  obtain ⟨hvalue, hinside⟩ := forwardComment_broke (n := n) hbroke
  rw [Truthful, Truthful, hvalue, hinside, reports_comment h, and_iff_right hin]

theorem truthful_of_fine (h : ∀ k < n, ∀ x, buf.Reached pos k x → buf.Fine x) :
    buf.Truthful pos n := by
  induction n generalizing pos with
  | zero => exact ⟨.done pos, Fetching.inside_pure _⟩
  | succ n ih =>
    induction hm : buf.zv - pos generalizing pos with
    | zero =>
      have := (h 0 (Nat.succ_pos n) pos (.here pos)).lt
      omega
    | succ m ihm =>
      have hfine := h 0 (Nat.succ_pos n) pos (.here pos)
      by_cases hstarter : ∃ comstyle start, buf.Starter buf.zv pos comstyle start
      · obtain ⟨comstyle, start, hs⟩ := hstarter
        by_cases hend : ∃ finish, buf.EndsAt buf.zv comstyle start finish
        · obtain ⟨finish, hfinish⟩ := hend
          have hc : buf.Comment pos finish comstyle start :=
            ⟨hfine.lt, hfine.unescaped, hs, hfinish⟩
          rw [truthful_comment hc hfine]
          exact ih fun k hk x hx => h (k + 1) (Nat.succ_lt_succ hk) x (.comment hc hx)
        · obtain ⟨hvalue, hin⟩ := blanksLoop_unterminated hfine hs hend
          obtain ⟨hr, hinside⟩ := forwardComment_returned (n := n) hvalue
          rw [Truthful, hr, hinside]
          exact ⟨.unterminated hfine.lt hfine.unescaped hs hend, hin⟩
      · by_cases hcode : buf.code pos = .swhitespace ∨ buf.code pos = .sendcomment
        · have hb : buf.Blank pos := ⟨hfine.lt, hfine.unescaped, hstarter, hcode⟩
          rw [truthful_blank hb hfine]
          exact ihm (fun k hk x hx => h k hk x (.blank hb hx)) (by omega)
        · obtain ⟨hws, hendc⟩ := not_or.mp hcode
          obtain ⟨hvalue, hin⟩ := blanksLoop_other hfine hstarter hws hendc
          obtain ⟨hr, hinside⟩ := forwardComment_returned (n := n) hvalue
          rw [Truthful, hr, hinside]
          exact ⟨.other hfine.lt (.inr ⟨hstarter, hws, hendc⟩), hin⟩

/-! ## Where it does not -/

theorem reports_escaped (h : buf.Escaped pos) (hpos : pos < buf.zv) {r : Bool × Nat}
    (hr : buf.Reports pos (n + 1) r) : r = (false, pos) := by
  cases hr with
  | blank hb => exact absurd h hb.unescaped
  | comment hc => exact absurd h hc.unescaped
  | unterminated _ hesc => exact absurd h hesc
  | other => rfl
  | zv => exact absurd hpos (Nat.lt_irrefl _)

theorem reports_unterminated (hs : buf.Starter buf.zv pos comstyle start)
    (hnone : ¬ ∃ finish, buf.EndsAt buf.zv comstyle start finish)
    {r : Bool × Nat} (hr : buf.Reports pos (n + 1) r) : r.1 = false := by
  cases hr with
  | blank hb => exact absurd ⟨_, _, hs⟩ hb.no_starter
  | comment hc =>
    obtain ⟨rfl, rfl⟩ := hs.unique hc.starter
    exact absurd ⟨_, hc.ends⟩ hnone
  | unterminated => rfl
  | other => rfl
  | zv => rfl

/-- Where one comment is truthfully looked for, the place is fine. -/
theorem fine_of_truthful (h : buf.Truthful pos 1) : buf.Fine pos := by
  obtain ⟨hr, hin⟩ := h
  have hpos : pos < buf.zv := by
    refine Nat.lt_of_not_le fun hle => ?_
    -- the loop runs out and a comment is counted
    have hvalue : (buf.forwardComment 1 pos).value = (true, pos) := by
      rw [forwardComment, blanksLoop, dif_neg (Nat.not_lt.mpr hle)]
      rfl
    rw [hvalue] at hr
    cases hr with
    | blank hb => exact absurd hb.lt (Nat.not_lt.mpr hle)
    | comment hc => exact absurd hc.lt (Nat.not_lt.mpr hle)
  have hloop : (buf.blanksLoop buf.zv pos).Inside buf.zv := by
    rw [forwardComment, Fetching.inside_bind] at hin
    exact hin.1
  have hesc : ¬ buf.Escaped pos := by
    intro hesc
    have hvalue := reports_escaped hesc hpos hr
    have hle : pos + 1 ≤ (buf.blanksLoop buf.zv (pos + 1)).value.place := le_blanksLoop hpos
    have hskip : (buf.blanksLoop buf.zv pos).value
        = (buf.blanksLoop buf.zv (pos + 1)).value := by
      rw [Escaped] at hesc
      conv_lhs => rw [blanksLoop, dif_pos hpos]
      simp only [Fetching.value_bind, hesc, if_true]
    cases hexit : (buf.blanksLoop buf.zv pos).value with
    | returned pt =>
      rw [(forwardComment_returned hexit).1] at hvalue
      cases hvalue
      rw [← hskip, hexit] at hle
      exact absurd hle (Nat.not_succ_le_self _)
    | broke q =>
      rw [(forwardComment_broke hexit).1] at hvalue
      cases hvalue
    | ranOut q =>
      have hout : (buf.forwardComment 1 pos).value = (true, q) := by
        simp only [forwardComment, Fetching.value_bind, hexit]
        rfl
      rw [hout] at hvalue
      cases hvalue
  have hlook : pos + 1 = buf.zv → syntaxCodeStartFirstP (buf.syncode pos) = true →
      buf.code pos = .scomment ∨ buf.code pos = .scommentFence := by
    intro hlast hfirst
    by_contra hnot
    obtain ⟨hone, hfence⟩ := not_or.mp hnot
    have hfetch := commentStart_look hfirst hone hfence hlast
    rw [blanksLoop_unescaped hpos hesc] at hloop
    simp only [Fetching.inside_bind, value_fetch] at hloop
    exact hfetch hloop.2.2.1
  have hends : ∀ comstyle start, buf.Starter buf.zv pos comstyle start →
      comstyle ≠ .stCommentStyle → ∃ finish, buf.EndsAt buf.zv comstyle start finish := by
    intro comstyle start hs hstyle
    by_contra hnone
    have hfalse := reports_unterminated hs hnone hr
    obtain ⟨hvalue, hinside⟩ := blanksLoop_starter hpos hesc hs
    have hhanded : handed comstyle start = start - 1 := if_neg hstyle
    have hlast := hs.last hpos
    -- the end that is found, or the fetch behind the region
    obtain ⟨finish, hfinish⟩ :=
      (findEndOfComment_inside hstyle (by omega)).mp (hhanded ▸ hinside.mp hloop)
    rw [hhanded, findEndOfComment_eq_some.mpr hfinish] at hvalue
    rw [forwardComment_ofComment hvalue] at hfalse
    cases hfalse
  refine ⟨hpos, hesc, hlook, hends, fun comstyle start hs hstyle => ?_⟩
  obtain ⟨finish, hfinish⟩ := hends _ _ hs hstyle
  have hlast := hs.last hpos
  have hlt : start - 1 < buf.zv := by omega
  have hhanded : handed comstyle start = start - 1 := if_neg hstyle
  obtain ⟨hvalue, -⟩ := blanksLoop_starter hpos hesc hs
  rw [reports_comment ⟨hpos, hesc, hs, hfinish⟩] at hr
  rw [forwardComment_ofComment hvalue, hhanded] at hr
  rw [← findEndOfComment_last hlt, Nat.sub_add_cancel (by omega),
    findEndOfComment_eq_some.mpr hfinish]
  cases hend : (buf.findEndOfComment buf.zv comstyle (start - 1)).value with
  | none =>
    rw [hend] at hr
    cases hr
  | some q =>
    rw [hend] at hr
    cases hr
    rfl

/-- **For the counts up to `n`** forward-comment reports truthfully if and only if, over
blanks and less than `n` comments, it only comes to places that are fine. -/
theorem forwardComment_truthful_iff (pos n : Nat) :
    (∀ m, 0 < m → m ≤ n → buf.Truthful pos m) ↔
      ∀ k < n, ∀ x, buf.Reached pos k x → buf.Fine x := by
  constructor
  · intro h k hk x hx
    induction hx generalizing n with
    | here pos => exact fine_of_truthful (h 1 Nat.one_pos (by omega))
    | blank hb _ ih =>
      have hfine := fine_of_truthful (h 1 Nat.one_pos (by omega))
      refine ih n (fun m hm hmn => ?_) hk
      obtain ⟨m, rfl⟩ := Nat.exists_eq_add_of_lt hm
      rw [Nat.zero_add] at hmn ⊢
      exact (truthful_blank hb hfine).mp (h (m + 1) (Nat.succ_pos m) hmn)
    | comment hc _ ih =>
      have hfine := fine_of_truthful (h 1 Nat.one_pos (by omega))
      refine ih (n - 1) (fun m _ hmn => ?_) (by omega)
      exact (truthful_comment hc hfine).mp (h (m + 1) (Nat.succ_pos m) (by omega))
  · intro h m _ hmn
    exact truthful_of_fine fun k hk => h k (by omega)

def empty : Buf := ⟨1, 1, fun _ => 0, fun _ => 0, fun _ => none⟩

/-- In an empty buffer a comment is reported. -/
theorem forwardComment_empty : ¬ empty.Truthful 1 1 :=
  fun h => absurd (fine_of_truthful h).lt (Nat.lt_irrefl 1)

example : (empty.forwardComment 1 1).value = (true, 1) := by
  rw [forwardComment, blanksLoop]
  rfl

end XEmacs.SyntaxScan.Buf
