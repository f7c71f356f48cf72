import XEmacs.SyntaxScan.Codes

/-!
# Where comments end (syntax.c)

`find_end_of_comment` is what all forward scanners call with the position behind a comment
starter, or what they take for it. Its result is the end of the first ender at or after that
position (`findEndOfComment_eq_some`).
-/

namespace XEmacs.SyntaxScan.Buf

variable (buf : Buf)

/-- `find_end_of_comment`; `none` is its -1. No caller passes a position behind `stop`. -/
def findEndOfComment (stop : Nat) (comstyle : Comstyle) (pos : Nat) :
    Fetching (Option Nat) :=
  if _h : stop ≤ pos then pure none
  else do
    let syncode ← buf.fetch pos
    let code := syntaxFromCode syncode
    if comstyle = .stCommentStyle then
      if code = .scommentFence then pure (some (pos + 1))
      else findEndOfComment stop comstyle (pos + 1)
    else if code = .sendcomment ∧ syntaxCodeMatches1charP syncode comstyle.mask then
      pure (some (pos + 1))
    else do
      -- this character is fetched before it is known to be in front of `stop`
      let nextCode ← buf.fetch (pos + 1)
      if pos + 1 < stop ∧ syntaxCodesMatchEndP syncode nextCode comstyle.mask then
        pure (some (pos + 2))
      else findEndOfComment stop comstyle (pos + 1)
  termination_by stop - pos

/-! ## Enders -/

/-- An ender of one character. -/
def OneEnder (comstyle : Comstyle) (pos : Nat) : Prop :=
  if comstyle = .stCommentStyle then buf.code pos = .scommentFence
  else buf.code pos = .sendcomment ∧
    syntaxCodeMatches1charP (buf.syncode pos) comstyle.mask = true

/-- An ender of two characters. -/
def PairEnder (stop : Nat) (comstyle : Comstyle) (pos : Nat) : Prop :=
  comstyle ≠ .stCommentStyle ∧ pos + 1 < stop ∧
    syntaxCodesMatchEndP (buf.syncode pos) (buf.syncode (pos + 1)) comstyle.mask = true

instance (comstyle : Comstyle) (pos : Nat) : Decidable (buf.OneEnder comstyle pos) := by
  unfold OneEnder
  exact inferInstance

instance (stop : Nat) (comstyle : Comstyle) (pos : Nat) :
    Decidable (buf.PairEnder stop comstyle pos) := by
  unfold PairEnder
  exact inferInstance

/-- An ender at `pos` that ends at `finish`; one of a single character comes first. -/
inductive Ender (stop : Nat) (comstyle : Comstyle) (pos : Nat) : Nat → Prop
  | one : buf.OneEnder comstyle pos → Ender stop comstyle pos (pos + 1)
  | pair : ¬ buf.OneEnder comstyle pos → buf.PairEnder stop comstyle pos →
      Ender stop comstyle pos (pos + 2)

/-- The first ender from `start` on ends at `finish`. -/
def EndsAt (stop : Nat) (comstyle : Comstyle) (start finish : Nat) : Prop :=
  ∃ pos, start ≤ pos ∧ pos < stop ∧ buf.Ender stop comstyle pos finish ∧
    ∀ x, start ≤ x → x < pos → ¬ ∃ y, buf.Ender stop comstyle x y

variable {buf} {stop start pos finish : Nat} {comstyle : Comstyle}

theorem Ender.unique {y z : Nat} (hy : buf.Ender stop comstyle pos y)
    (hz : buf.Ender stop comstyle pos z) : y = z := by
  cases hy with
  | one h =>
    cases hz with
    | one => rfl
    | pair hn => exact absurd h hn
  | pair hn =>
    cases hz with
    | one h => exact absurd h hn
    | pair => rfl

theorem EndsAt.unique {y z : Nat} (hy : buf.EndsAt stop comstyle start y)
    (hz : buf.EndsAt stop comstyle start z) : y = z := by
  obtain ⟨x, hx, -, hex, hbefore⟩ := hy
  obtain ⟨x', hx', -, hex', hbefore'⟩ := hz
  obtain rfl : x = x' := by
    rcases Nat.lt_trichotomy x x' with h | h | h
    · exact absurd ⟨y, hex⟩ (hbefore' x hx h)
    · exact h
    · exact absurd ⟨z, hex'⟩ (hbefore x' hx' h)
  exact hex.unique hex'

theorem EndsAt.bounds (h : buf.EndsAt stop comstyle start finish) :
    start < finish ∧ finish ≤ stop := by
  obtain ⟨x, hx, hstop, hex, -⟩ := h
  cases hex with
  | one => omega
  | pair _ hpair =>
    have := hpair.2.1
    omega

theorem EndsAt.here (hpos : pos < stop) (h : buf.Ender stop comstyle pos finish) :
    buf.EndsAt stop comstyle pos finish :=
  ⟨pos, Nat.le_refl _, hpos, h, fun _ hx hlt => absurd hlt (Nat.not_lt.mpr hx)⟩

theorem endsAt_succ (h : ¬ ∃ y, buf.Ender stop comstyle pos y) :
    buf.EndsAt stop comstyle pos finish ↔ buf.EndsAt stop comstyle (pos + 1) finish := by
  constructor
  · rintro ⟨x, hx, hstop, hex, hbefore⟩
    have hne : x ≠ pos := by
      rintro rfl
      exact h ⟨_, hex⟩
    exact ⟨x, by omega, hstop, hex, fun y hy => hbefore y (by omega)⟩
  · rintro ⟨x, hx, hstop, hex, hbefore⟩
    refine ⟨x, by omega, hstop, hex, fun y hy hlt => ?_⟩
    rcases Nat.eq_or_lt_of_le hy with rfl | hlt'
    · exact h
    · exact hbefore y hlt' hlt

/-! ## The function -/

theorem findEndOfComment_stop (h : stop ≤ pos) :
    buf.findEndOfComment stop comstyle pos = pure none := by
  rw [findEndOfComment, dif_pos h]

theorem value_findEndOfComment (h : pos < stop) :
    (buf.findEndOfComment stop comstyle pos).value =
      if buf.OneEnder comstyle pos then some (pos + 1)
      else if buf.PairEnder stop comstyle pos then some (pos + 2)
      else (buf.findEndOfComment stop comstyle (pos + 1)).value := by
  conv_lhs => rw [findEndOfComment, dif_neg (Nat.not_le_of_lt h)]
  unfold OneEnder PairEnder code
  by_cases hstyle : comstyle = .stCommentStyle
  · -- only a fence ends a generic comment
    by_cases hcode : syntaxFromCode (buf.syncode pos) = .scommentFence
    · simp [hstyle, hcode]
    · simp [hstyle, hcode]
  · by_cases hone : syntaxFromCode (buf.syncode pos) = .sendcomment ∧
        syntaxCodeMatches1charP (buf.syncode pos) comstyle.mask = true
    · simp [hstyle, hone]
    · by_cases hpair : pos + 1 < stop ∧
          syntaxCodesMatchEndP (buf.syncode pos) (buf.syncode (pos + 1)) comstyle.mask = true
      · simp [hstyle, hone, hpair]
      · simp [hstyle, hone, hpair]

theorem value_one (h : pos < stop) (hone : buf.OneEnder comstyle pos) :
    (buf.findEndOfComment stop comstyle pos).value = some (pos + 1) := by
  rw [value_findEndOfComment h, if_pos hone]

theorem value_pair (h : pos < stop) (hone : ¬ buf.OneEnder comstyle pos)
    (hpair : buf.PairEnder stop comstyle pos) :
    (buf.findEndOfComment stop comstyle pos).value = some (pos + 2) := by
  rw [value_findEndOfComment h, if_neg hone, if_pos hpair]

theorem value_next (h : pos < stop) (hone : ¬ buf.OneEnder comstyle pos)
    (hpair : ¬ buf.PairEnder stop comstyle pos) :
    (buf.findEndOfComment stop comstyle pos).value =
      (buf.findEndOfComment stop comstyle (pos + 1)).value := by
  rw [value_findEndOfComment h, if_neg hone, if_neg hpair]

theorem not_ender (hone : ¬ buf.OneEnder comstyle pos)
    (hpair : ¬ buf.PairEnder stop comstyle pos) : ¬ ∃ y, buf.Ender stop comstyle pos y := by
  rintro ⟨y, hy⟩
  cases hy with
  | one h => exact hone h
  | pair _ h => exact hpair h

theorem findEndOfComment_eq_some :
    (buf.findEndOfComment stop comstyle pos).value = some finish ↔
      buf.EndsAt stop comstyle pos finish := by
  induction hn : stop - pos generalizing pos with
  | zero =>
    rw [findEndOfComment_stop (by omega)]
    refine ⟨nofun, ?_⟩
    rintro ⟨x, hx, hx', -⟩
    omega
  | succ n ih =>
    have hlt : pos < stop := by omega
    by_cases hone : buf.OneEnder comstyle pos
    · have hend := EndsAt.here hlt (Ender.one hone)
      rw [value_one hlt hone, Option.some.injEq]
      exact ⟨fun h => h ▸ hend, hend.unique⟩
    · by_cases hpair : buf.PairEnder stop comstyle pos
      · have hend := EndsAt.here hlt (.pair hone hpair)
        rw [value_pair hlt hone hpair, Option.some.injEq]
        exact ⟨fun h => h ▸ hend, hend.unique⟩
      · rw [value_next hlt hone hpair, endsAt_succ (not_ender hone hpair)]
        exact ih (by omega)

theorem findEndOfComment_eq_none :
    (buf.findEndOfComment stop comstyle pos).value = none ↔
      ¬ ∃ finish, buf.EndsAt stop comstyle pos finish := by
  simp only [← findEndOfComment_eq_some, ← Option.isSome_iff_exists, Option.not_isSome_iff_eq_none]

theorem findEndOfComment_inside_fence :
    (buf.findEndOfComment stop .stCommentStyle pos).Inside stop := by
  induction hn : stop - pos generalizing pos with
  | zero =>
    rw [findEndOfComment_stop (by omega)]
    exact Fetching.inside_pure _
  | succ n ih =>
    rw [findEndOfComment, dif_neg (by omega), Fetching.inside_bind, inside_fetch]
    refine ⟨by omega, ?_⟩
    dsimp only
    rw [if_pos rfl]
    split
    · exact Fetching.inside_pure _
    · exact ih (by omega)

theorem findEndOfComment_inside (hstyle : comstyle ≠ .stCommentStyle) (hpos : pos < stop) :
    (buf.findEndOfComment stop comstyle pos).Inside stop ↔
      ∃ finish, buf.EndsAt stop comstyle pos finish := by
  induction hn : stop - pos generalizing pos with
  | zero => omega
  | succ n ih =>
    simp only [← findEndOfComment_eq_some]
    rw [value_findEndOfComment hpos, findEndOfComment, dif_neg (Nat.not_le_of_lt hpos),
      Fetching.inside_bind, inside_fetch]
    unfold OneEnder PairEnder code
    by_cases hone : syntaxFromCode (buf.syncode pos) = .sendcomment ∧
        syntaxCodeMatches1charP (buf.syncode pos) comstyle.mask = true
    · simp [hstyle, hone, hpos]
    · by_cases hpair : pos + 1 < stop ∧
          syntaxCodesMatchEndP (buf.syncode pos) (buf.syncode (pos + 1)) comstyle.mask = true
      · simp [hstyle, hone, hpair, hpos]
      · obtain hlt | hge := Nat.lt_or_ge (pos + 1) stop
        · -- it is looked for from the next character on
          have h := ih hlt (by omega)
          have hmatch : ¬ syntaxCodesMatchEndP (buf.syncode pos) (buf.syncode (pos + 1))
              comstyle.mask = true := fun hmatch => hpair ⟨hlt, hmatch⟩
          simp only [← findEndOfComment_eq_some] at h
          simp [hstyle, hone, hmatch, hpos, hlt, h]
        · have hnone : (buf.findEndOfComment stop comstyle (pos + 1)).value = none := by
            rw [findEndOfComment_stop hge]
            rfl
          simp [hstyle, hone, hnone, Nat.not_lt.mpr hge]

/-! ## Starters -/

/-- A starter of a comment at `pos`, whose text begins at `start`. -/
inductive Starter (buf : Buf) (stop pos : Nat) : Comstyle → Nat → Prop
  | one : buf.code pos = .scomment →
      Starter buf stop pos (.ofMask (syntaxCodeComment1charMask (buf.syncode pos))) (pos + 1)
  | fence : buf.code pos = .scommentFence → Starter buf stop pos .stCommentStyle (pos + 1)
  | pair : buf.code pos ≠ .scomment → buf.code pos ≠ .scommentFence → pos + 1 < stop →
      syntaxCodesStartP (buf.syncode pos) (buf.syncode (pos + 1)) = true →
      Starter buf stop pos
        (.ofMask (syntaxCodesCommentMaskStart (buf.syncode pos) (buf.syncode (pos + 1))))
        (pos + 2)

theorem Starter.unique {style style' : Comstyle} {start' : Nat}
    (h : Starter buf stop pos style start) (h' : Starter buf stop pos style' start') :
    style = style' ∧ start = start' := by
  cases h with
  | one hcode =>
    cases h' with
    | one => exact ⟨rfl, rfl⟩
    | fence hcode' => exact absurd (hcode.symm.trans hcode') nofun
    | pair hne => exact absurd hcode hne
  | fence hcode =>
    cases h' with
    | one hcode' => exact absurd (hcode.symm.trans hcode') nofun
    | fence => exact ⟨rfl, rfl⟩
    | pair _ hne => exact absurd hcode hne
  | pair hne hne' =>
    cases h' with
    | one hcode => exact absurd hcode hne
    | fence hcode => exact absurd hcode hne'
    | pair => exact ⟨rfl, rfl⟩

theorem Starter.last (h : Starter buf stop pos comstyle start) (hpos : pos < stop) :
    pos < start ∧ start ≤ stop := by
  cases h <;> omega

theorem syntaxCodeStartFirstP_of_startP {a b : Syncode} (h : syntaxCodesStartP a b = true) :
    syntaxCodeStartFirstP a = true := by
  rw [syntaxCodeStartFirstP, bne_iff_ne]
  intro hzero
  rw [syntaxCodesStartP, hzero] at h
  simp at h

/-- The last character of a starter begins an ender, with the next one or by itself, and
the comment does not end there anyway. -/
def RunTogether (buf : Buf) (stop : Nat) (comstyle : Comstyle) (last : Nat) : Prop :=
  buf.OneEnder comstyle last ∨
    buf.PairEnder stop comstyle last ∧ ¬ buf.OneEnder comstyle (last + 1)

theorem findEndOfComment_last {last : Nat} (h : last < stop) :
    (buf.findEndOfComment stop comstyle last).value =
        (buf.findEndOfComment stop comstyle (last + 1)).value ↔
      ¬ buf.RunTogether stop comstyle last := by
  unfold RunTogether
  by_cases hone : buf.OneEnder comstyle last
  · -- the end is where the text should begin
    rw [value_one h hone]
    refine ⟨fun heq => ?_, fun hnot => absurd (.inl hone) hnot⟩
    exact absurd (findEndOfComment_eq_some.mp heq.symm).bounds.1 (Nat.lt_irrefl _)
  · by_cases hpair : buf.PairEnder stop comstyle last
    · rw [value_pair h hone hpair]
      have hlt : last + 1 < stop := hpair.2.1
      constructor
      · intro heq
        have hend := findEndOfComment_eq_some.mp heq.symm
        have hnext : buf.OneEnder comstyle (last + 1) := by
          obtain ⟨x, hx, -, hex, -⟩ := hend
          cases hex with
          | one hone => exact hone
          | pair => omega
        rintro (hone' | ⟨-, hnot⟩)
        · exact hone hone'
        · exact hnot hnext
      · intro hnot
        have hnext : buf.OneEnder comstyle (last + 1) :=
          Decidable.byContradiction fun hn => hnot (.inr ⟨hpair, hn⟩)
        rw [value_one hlt hnext]
    · rw [value_next h hone hpair]
      refine ⟨fun _ => ?_, fun _ => rfl⟩
      rintro (hone' | ⟨hpair', -⟩)
      · exact hone hone'
      · exact hpair hpair'

end XEmacs.SyntaxScan.Buf
