import XEmacs.SyntaxScan.ForwardComment
import XEmacs.SyntaxScan.SexpsForward

/-!
# Three scanners and the ends of comments (syntax.c)

forward-comment, `scan_lists` and `scan_sexps_forward` recognize comment starters each for itself
and hand a position to `find_end_of_comment`.
-/

namespace XEmacs.SyntaxScan.Buf

variable (buf : Buf)

/-- forward-comment with the count 1 moves from `pos` to the end of a comment, or to the end
of the accessible region if there is none. -/
def ForwardEnds (pos : Nat) (end? : Option Nat) : Prop :=
  (buf.forwardComment 1 pos).value = (end?.isSome, end?.getD buf.zv)

/-- `scan_lists`, with comments ignored, sees a comment at `pos` and this end. -/
def ListsEnds (pos : Nat) (end? : Option Nat) : Prop :=
  ∀ args : ScanArgs, args.parseSexpIgnoreComments = true →
    ∃ comstyle start, buf.listsToken args buf.zv pos = .comment comstyle start ∧
      (buf.findEndOfComment buf.zv comstyle start).value = end?

/-- `scan_sexps_forward` to the end of the accessible region sees a comment at `pos` and
this end. -/
def SexpsEnds (pos : Nat) (end? : Option Nat) : Prop :=
  ∃ comstyle start, buf.sexpsToken buf.zv pos = .comment comstyle start ∧
    (buf.findEndOfComment buf.zv comstyle start).value = end?

/-- The three scanners see the same end. -/
def Agree (pos : Nat) : Prop :=
  ∃ end?, buf.ForwardEnds pos end? ∧ buf.ListsEnds pos end? ∧ buf.SexpsEnds pos end?

variable {buf} {pos start : Nat} {comstyle : Comstyle} {end? : Option Nat}

theorem ListsEnds.step {args : ScanArgs} {s : ScanState} (h : buf.ListsEnds s.pos end?)
    (hargs : args.parseSexpIgnoreComments = true) :
    buf.forwardStep args buf.zv s = endComment buf.zv s end? := by
  obtain ⟨comstyle, start, htoken, hend⟩ := h args hargs
  rw [forwardStep, htoken]
  dsimp only
  rw [hend]

theorem sexpsStart_starter (h : buf.Starter buf.zv pos comstyle start) :
    buf.sexpsStart buf.zv pos = some (comstyle, start) := by
  unfold sexpsStart
  cases h with
  | one hcode =>
    rw [code] at hcode
    simp [hcode]
  | fence hcode =>
    rw [code] at hcode
    simp [hcode]
  | pair hne hne' hlt hstart =>
    rw [code] at hne hne'
    simp [hne, hne', hlt, hstart, syntaxCodeStartFirstP_of_startP hstart]

theorem SexpsEnds.step {args : ParseArgs} {s : ParseState} (h : buf.SexpsEnds s.pos end?)
    (hstarter : buf.Starter buf.zv s.pos comstyle start) (hfinish : args.finish = buf.zv)
    (hstop : args.commentstop = 0) :
    ∃ s', s'.pos = end?.getD buf.zv ∧ s'.incomment = end?.isNone ∧ s'.depth = s.depth ∧
      s'.comstrStart = some s.pos ∧
      buf.sexpsStep args s = if end?.isSome then .next s' else .done s' := by
  obtain ⟨style, start', htoken, hend⟩ := h
  have hstart := sexpsStart_starter hstarter
  have htoken' : style = comstyle ∧ start' = start := by
    have htok := htoken
    rw [sexpsToken, hstart] at htok
    dsimp only at htok
    split at htok <;> cases htok
    exact ⟨rfl, rfl⟩
  obtain ⟨rfl, rfl⟩ := htoken'
  have hboundary : args.boundaryStop = false := by
    rw [ParseArgs.boundaryStop, hstop]
    rfl
  unfold sexpsStep
  dsimp only
  rw [hfinish, hstart, htoken]
  dsimp only
  unfold commentCase inComment
  have hzero : ¬ (0 : Int) = 1 := by decide
  simp only [hstop, hboundary, hfinish, hend, ne_eq, not_true_eq_false, Bool.false_eq_true,
    or_self, if_false, hzero]
  cases end? with
  | none =>
    refine ⟨_, ?_, ?_, ?_, ?_, rfl⟩
    all_goals rfl
  | some q =>
    refine ⟨_, ?_, ?_, ?_, ?_, rfl⟩
    all_goals rfl

/-! ## Where they agree -/

/-- The character at `pos` is no prefix, its starter does not run together with what
follows, and a fence that is also the first character of a two-character starter ends in
the same place by both readings. -/
structure Agreeable (buf : Buf) (pos : Nat) : Prop where
  no_prefix : syntaxCodePrefix (buf.syncode pos) = false
  apart : ∀ comstyle start, buf.Starter buf.zv pos comstyle start →
    comstyle ≠ .stCommentStyle → ¬ buf.RunTogether buf.zv comstyle (start - 1)
  fence : buf.code pos = .scommentFence → pos + 1 < buf.zv →
    syntaxCodesStartP (buf.syncode pos) (buf.syncode (pos + 1)) = true →
    ∀ finish, buf.EndsAt buf.zv .stCommentStyle (pos + 1) finish ↔
      buf.EndsAt buf.zv
        (.ofMask (syntaxCodesCommentMaskStart (buf.syncode pos) (buf.syncode (pos + 1))))
        (pos + 2) finish

theorem forwardEnds_iff (hpos : pos < buf.zv) (hesc : ¬ buf.Escaped pos)
    (h : buf.Starter buf.zv pos comstyle start) : buf.ForwardEnds pos end? ↔
      (buf.findEndOfComment buf.zv comstyle (handed comstyle start)).value = end? := by
  rw [ForwardEnds, forwardComment_ofComment (blanksLoop_starter hpos hesc h).1]
  generalize (buf.findEndOfComment buf.zv comstyle (handed comstyle start)).value = found
  cases found with
  | none =>
    cases end? with
    | none => exact iff_of_true rfl rfl
    | some q => exact iff_of_false (fun h => by cases h) nofun
  | some q =>
    cases end? with
    | none => exact iff_of_false (fun h => by cases h) nofun
    | some q' =>
      refine ⟨fun h => ?_, fun h => by cases h; rfl⟩
      cases h
      rfl

theorem sexpsEnds_iff (h : buf.Starter buf.zv pos comstyle start) :
    buf.SexpsEnds pos end? ↔ syntaxCodePrefix (buf.syncode pos) = false ∧
      (buf.findEndOfComment buf.zv comstyle start).value = end? := by
  unfold SexpsEnds sexpsToken
  rw [sexpsStart_starter h]
  dsimp only
  cases hprefix : syntaxCodePrefix (buf.syncode pos) with
  | true =>
    refine ⟨?_, fun h => absurd h.1 nofun⟩
    rintro ⟨_, _, htoken, -⟩
    cases htoken
  | false =>
    constructor
    · rintro ⟨_, _, htoken, hend⟩
      cases htoken
      exact ⟨rfl, hend⟩
    · rintro ⟨-, hend⟩
      exact ⟨_, _, rfl, hend⟩

/-- What `scan_lists` takes for the starter at `pos`. -/
def listsStart (buf : Buf) (pos : Nat) (comstyle : Comstyle) (start : Nat) : Comstyle × Nat :=
  if buf.code pos = .scommentFence ∧ pos + 1 < buf.zv ∧
      syntaxCodesStartP (buf.syncode pos) (buf.syncode (pos + 1)) = true then
    (.ofMask (syntaxCodesCommentMaskStart (buf.syncode pos) (buf.syncode (pos + 1))), pos + 2)
  else (comstyle, start)

theorem listsToken_starter {args : ScanArgs} (hargs : args.parseSexpIgnoreComments = true)
    (h : buf.Starter buf.zv pos comstyle start) :
    buf.listsToken args buf.zv pos =
      if syntaxCodePrefix (buf.syncode pos) then
        .prefixed (buf.listsStart pos comstyle start).2
      else .comment (buf.listsStart pos comstyle start).1
        (buf.listsStart pos comstyle start).2 := by
  unfold listsToken listsStart
  cases h with
  | one hcode =>
    rw [code] at hcode ⊢
    simp [hcode, hargs]
  | fence hcode =>
    rw [code] at hcode ⊢
    by_cases hpair : pos + 1 < buf.zv ∧
        syntaxCodesStartP (buf.syncode pos) (buf.syncode (pos + 1)) = true
    · simp [hcode, hargs, hpair, syntaxCodeStartFirstP_of_startP hpair.2]
    · have hnot : ¬ ((pos + 1 < buf.zv ∧ syntaxCodeStartFirstP (buf.syncode pos) = true) ∧
          syntaxCodesStartP (buf.syncode pos) (buf.syncode (pos + 1)) = true) :=
        fun h => hpair ⟨h.1.1, h.2⟩
      simp [hcode, hargs, hpair, hnot]
  | pair hne hne' hlt hstart =>
    rw [code] at hne hne' ⊢
    simp [hne, hne', hlt, hstart, hargs, syntaxCodeStartFirstP_of_startP hstart]

theorem listsEnds_iff (h : buf.Starter buf.zv pos comstyle start) :
    buf.ListsEnds pos end? ↔ syntaxCodePrefix (buf.syncode pos) = false ∧
      (buf.findEndOfComment buf.zv (buf.listsStart pos comstyle start).1
        (buf.listsStart pos comstyle start).2).value = end? := by
  unfold ListsEnds
  cases hprefix : syntaxCodePrefix (buf.syncode pos) with
  | true =>
    refine ⟨fun hends => ?_, fun h => absurd h.1 nofun⟩
    obtain ⟨_, _, htoken, -⟩ := hends ⟨0, false, true⟩ rfl
    rw [listsToken_starter rfl h, hprefix] at htoken
    cases htoken
  | false =>
    constructor
    · intro hends
      obtain ⟨_, _, htoken, hend⟩ := hends ⟨0, false, true⟩ rfl
      rw [listsToken_starter rfl h, hprefix] at htoken
      cases htoken
      exact ⟨rfl, hend⟩
    · rintro ⟨-, hend⟩ args hargs
      refine ⟨_, _, ?_, hend⟩
      rw [listsToken_starter hargs h, hprefix]
      rfl

theorem handed_iff (hpos : pos < buf.zv) (h : buf.Starter buf.zv pos comstyle start) :
    (buf.findEndOfComment buf.zv comstyle (handed comstyle start)).value =
        (buf.findEndOfComment buf.zv comstyle start).value ↔
      (comstyle ≠ .stCommentStyle → ¬ buf.RunTogether buf.zv comstyle (start - 1)) := by
  unfold handed
  by_cases hstyle : comstyle = .stCommentStyle
  · rw [if_pos hstyle]
    exact iff_of_true rfl fun hne => absurd hstyle hne
  · have hlast := h.last hpos
    have hlt : start - 1 < buf.zv := by omega
    have hiff : (buf.findEndOfComment buf.zv comstyle (start - 1)).value =
        (buf.findEndOfComment buf.zv comstyle (start - 1 + 1)).value ↔
        ¬ buf.RunTogether buf.zv comstyle (start - 1) := findEndOfComment_last hlt
    rw [Nat.sub_add_cancel (by omega)] at hiff
    rw [if_neg hstyle, hiff]
    exact ⟨fun h _ => h, fun h => h hstyle⟩

theorem listsStart_iff (h : buf.Starter buf.zv pos comstyle start) :
    (buf.findEndOfComment buf.zv (buf.listsStart pos comstyle start).1
        (buf.listsStart pos comstyle start).2).value =
      (buf.findEndOfComment buf.zv comstyle start).value ↔
    (buf.code pos = .scommentFence → pos + 1 < buf.zv →
      syntaxCodesStartP (buf.syncode pos) (buf.syncode (pos + 1)) = true →
      ∀ finish, buf.EndsAt buf.zv .stCommentStyle (pos + 1) finish ↔
        buf.EndsAt buf.zv
          (.ofMask (syntaxCodesCommentMaskStart (buf.syncode pos) (buf.syncode (pos + 1))))
          (pos + 2) finish) := by
  unfold listsStart
  split
  · rename_i hpair
    obtain ⟨rfl, rfl⟩ := h.unique (.fence hpair.1)
    simp only [hpair, forall_const, ← findEndOfComment_eq_some]
    constructor
    · intro heq finish
      rw [heq]
    · intro hall
      exact Option.ext fun finish => (hall finish).symm
  · rename_i hpair
    exact iff_of_true rfl fun h₁ h₂ h₃ => absurd ⟨h₁, h₂, h₃⟩ hpair

theorem Agree.agreeable (hagree : buf.Agree pos) (hpos : pos < buf.zv)
    (hesc : ¬ buf.Escaped pos) (h : buf.Starter buf.zv pos comstyle start) :
    buf.Agreeable pos := by
  obtain ⟨end?, hforward, hlists, hsexps⟩ := hagree
  rw [forwardEnds_iff hpos hesc h] at hforward
  rw [listsEnds_iff h] at hlists
  rw [sexpsEnds_iff h] at hsexps
  refine ⟨hsexps.1, fun style start' h' => ?_, ?_⟩
  · obtain ⟨rfl, rfl⟩ := h'.unique h
    exact (handed_iff hpos h).mp (hforward.trans hsexps.2.symm)
  · exact (listsStart_iff h).mp (hlists.2.trans hsexps.2.symm)

/-- **The three scanners** see the same end of a comment at an unquoted starter if and only
if it is agreeable. -/
theorem agree_iff (pos : Nat) (hpos : pos < buf.zv) (hesc : ¬ buf.Escaped pos)
    (hstarter : ∃ comstyle start, buf.Starter buf.zv pos comstyle start) :
    buf.Agree pos ↔ buf.Agreeable pos := by
  obtain ⟨comstyle, start, h⟩ := hstarter
  refine ⟨fun hagree => hagree.agreeable hpos hesc h, fun hagree => ?_⟩
  refine ⟨_, (forwardEnds_iff hpos hesc h).mpr
    ((handed_iff hpos h).mpr (hagree.apart _ _ h)), (listsEnds_iff h).mpr
    ⟨hagree.no_prefix, (listsStart_iff h).mpr hagree.fence⟩, (sexpsEnds_iff h).mpr
    ⟨hagree.no_prefix, rfl⟩⟩

/-! ## Comments of C -/

/-- A buffer with a text of slashes (47) and stars (42), in the syntax of C. -/
def cText (text : List Emchar) : Buf where
  begv := 1
  zv := text.length + 1
  bufFetchChar pos := text.getD (pos - 1) 0
  mirrortab c := if c = 47 then 0x820001 else if c = 42 then 0x280001 else 0
  syntaxMatch _ := none

theorem cText_starter (text : List Emchar) :
    (cText (47 :: 42 :: text)).Starter (text.length + 3) 1 .a 3 := by
  have hstyle : Comstyle.ofMask (syntaxCodesCommentMaskStart 0x820001 0x280001) = .a := by
    decide
  have hone : syntaxFromCode 0x820001 ≠ .scomment := by decide
  have hfence : syntaxFromCode 0x820001 ≠ .scommentFence := by decide
  have hstart : syntaxCodesStartP 0x820001 0x280001 = true := by decide
  rw [← hstyle]
  exact .pair hone hfence (by omega) hstart

theorem cText_unescaped (text : List Emchar) : ¬ (cText text).Escaped 1 := by
  rw [Escaped, charQuoted_of_begv (Nat.le_refl 1)]
  exact Bool.false_ne_true

/-- The comment of two slashes and two stars. -/
theorem agree_slashStarStarSlash :
    (cText [47, 42, 42, 47]).Agree 1 ↔ (cText [47, 42, 42, 47]).Agreeable 1 :=
  agree_iff 1 (by decide) (cText_unescaped _) ⟨.a, 3, cText_starter _⟩

/-- Without the second star it has no end, but forward-comment takes the star of the
starter for the first character of an ender. -/
theorem agree_slashStarSlash :
    1 < (cText [47, 42, 47]).zv ∧ ¬ (cText [47, 42, 47]).Escaped 1 ∧
      (∃ comstyle start, (cText [47, 42, 47]).Starter 4 1 comstyle start) ∧
      ¬ (cText [47, 42, 47]).Agree 1 := by
  have hstarter : (cText [47, 42, 47]).Starter 4 1 .a 3 := cText_starter [47]
  refine ⟨by decide, cText_unescaped _, ⟨_, _, hstarter⟩, fun hagree => ?_⟩
  refine (hagree.agreeable (by decide) (cText_unescaped _) hstarter).apart _ _ hstarter
    nofun (.inr ⟨⟨nofun, by decide, ?_⟩, ?_⟩)
  · have hmatch : syntaxCodesMatchEndP 0x280001 0x820001 syntaxCommentStyleA = true := by
      decide
    exact hmatch
  · rw [OneEnder, if_neg nofun]
    have hcode : syntaxFromCode 0x820001 ≠ .sendcomment := by decide
    exact fun h => hcode h.1

end XEmacs.SyntaxScan.Buf
