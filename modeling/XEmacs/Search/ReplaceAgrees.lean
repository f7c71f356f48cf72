import XEmacs.Search.ReplaceMatch

/-!
# Replacement in strings and in buffers (search.c)

The documentation of `replace-match` gives the replacement a meaning of its own: a list of
characters of the text and of case directives, in which a directive acts on the characters behind
it.
-/

namespace XEmacs.Search

open BytePositions List

/-- The registers of a match of a text: where the groups are, that of the whole match being the
first. Positions count from 0. -/
structure MatchOn (text : List Emchar) where
  groups : List (Option (ℕ × ℕ))
  start : ℕ
  stop : ℕ
  whole : groups[0]? = some (some (start, stop))
  inMatch : ∀ {n a b : ℕ}, groups[n]? = some (some (a, b)) →
    start ≤ a ∧ a ≤ b ∧ b ≤ text.length

namespace MatchOn

variable {text : List Emchar}

/-- The registers in the memory, for positions that count from `base`. -/
def regs (m : MatchOn text) (base : ℕ) (memory : ℕ → Register) : SearchRegs where
  numRegs := m.groups.length
  reg n :=
    match m.groups[n]? with
    | some (some (a, b)) => ⟨(a + base : ℕ), (b + base : ℕ)⟩
    | some none => ⟨-1, -1⟩
    | none => memory n

/-- What the `n`th group matched, if it did. -/
def group (m : MatchOn text) (n : ℕ) : Option (List Emchar) :=
  match m.groups[n]? with
  | some (some (a, b)) => some ((text.drop a).take (b - a))
  | _ => none

def matched (m : MatchOn text) : List Emchar := (text.drop m.start).take (m.stop - m.start)

end MatchOn

/-! ## The documentation -/

/-- The parts of a replacement. -/
inductive Token where
  | literal (c : Emchar)
  | whole
  | register (n : ℕ)
  | caseAction (c : Emchar)
  | other (c : Emchar)

/-- A backslash and the character behind it. -/
def token (c : Emchar) : Token :=
  if c = ampersand then .whole
  else if digitZero + 1 ≤ c ∧ c ≤ digitZero + 9 then .register (c - digitZero)
  else if c ∈ caseActions then .caseAction c
  else if c = backslash then .literal c
  else .other c

def tokens : List Emchar → List Token
  | [] => []
  | [c] => [.literal c]
  | c :: c' :: rest =>
    if c = backslash then token c' :: tokens rest else .literal c :: tokens (c' :: rest)

/-- A character of the replacement, or a case directive in it. -/
inductive Item where
  | char (c : Emchar)
  | caseAction (c : Emchar)

/-- The characters among the items. -/
def chars : List Item → List Emchar
  | [] => []
  | .char c :: items => c :: chars items
  | .caseAction _ :: items => chars items

/-- The directives among the items, with the position of the character behind each. -/
def actions : ℕ → List Item → List (ℕ × Emchar)
  | _, [] => []
  | pos, .char _ :: items => actions (pos + 1) items
  | pos, .caseAction c :: items => (pos, c) :: actions pos items

/-- The characters with the case they are given: the directives for the next character override
those for all following characters. -/
def documentedCase (ct : CaseTable) : Emchar → Option Emchar → List Item → List Emchar
  | _, _, [] => []
  | all, next, .caseAction c :: items =>
    if c = upcaseNext ∨ c = downcaseNext then documentedCase ct all (some c) items
    else documentedCase ct c next items
  | all, none, .char c :: items => ct.act all c :: documentedCase ct all none items
  | all, some next, .char c :: items =>
    (if next = upcaseNext then ct.upcase c else ct.downcase c) :: documentedCase ct all none items

section

variable {text : List Emchar} (m : MatchOn text)

/-- The documented meaning of a token, given one for the escapes that have none. -/
def documentedItems (other : Emchar → List Emchar) : Token → List Item
  | .literal c => [.char c]
  | .whole => m.matched.map .char
  | .register n => ((m.group n).getD []).map .char
  | .caseAction c => [.caseAction c]
  | .other c => (other c).map .char

/-- The documented replacement. -/
def documented (ct : CaseTable) (other : Emchar → List Emchar) (replacement : List Emchar) :
    List Emchar :=
  documentedCase ct endCase none ((tokens replacement).flatMap (documentedItems m other))

/-- A replacement in a string and one in a buffer agree, and are the documented one; only
registers there are were read, and each case directive was taken that a character follows. -/
structure Agree (ct : CaseTable) (replacement : List Emchar) (s b : Replaced) : Prop where
  documented : ∃ other, s.text =
    text.take m.start ++ (documented m ct other replacement ++ text.drop m.stop)
  same : b.text = s.text
  string_reads : ∀ n ∈ s.reads, n < m.groups.length
  buffer_reads : ∀ n ∈ b.reads, n < m.groups.length
  string_taken : ∀ a ∈ s.pending, s.stop ≤ a.1
  buffer_taken : ∀ a ∈ b.pending, b.stop ≤ a.1

/-- No two directives are at one character. -/
def Separate (items : List Item) : Prop :=
  ∀ pre c post, items = pre ++ .caseAction c :: post →
    chars post = [] ∨ ∃ d post', post = .char d :: post'

/-- The parts of a replacement that are treated alike: nothing undocumented, and a group only if
it matched; text of the match only if the buffer is current. -/
def Token.Supported (current : Bool) : Token → Prop
  | .literal _ => True
  | .whole => current = true ∨ m.matched = []
  | .register n => ∃ l, m.group n = some l ∧ (current = true ∨ l = [])
  | .caseAction _ => True
  | .other _ => False

/-- The replacements that are treated alike. -/
structure Supported (current : Bool) (replacement : List Emchar) : Prop where
  each : ∀ t ∈ tokens replacement, t.Supported m current
  separate : Separate ((tokens replacement).flatMap (documentedItems m fun _ => []))

end

/-! ## Items -/

@[simp]
theorem chars_append (items items' : List Item) :
    chars (items ++ items') = chars items ++ chars items' := by
  induction items with
  | nil => rfl
  | cons i items ih =>
    cases i with
    | char c => exact congrArg (c :: ·) ih
    | caseAction c => exact ih

@[simp]
theorem chars_map_char (l : List Emchar) : chars (l.map .char) = l := by
  induction l with
  | nil => rfl
  | cons c l ih => exact congrArg (c :: ·) ih

theorem actions_append (pos : ℕ) (items items' : List Item) :
    actions pos (items ++ items')
      = actions pos items ++ actions (pos + (chars items).length) items' := by
  induction items generalizing pos with
  | nil => rfl
  | cons i items ih =>
    cases i with
    | char c =>
      have hpos : pos + (chars (.char c :: items)).length
          = pos + 1 + (chars items).length := by
        rw [chars, length_cons]
        omega
      rw [hpos]
      exact ih (pos + 1)
    | caseAction c => exact congrArg ((pos, c) :: ·) (ih pos)

@[simp]
theorem actions_map_char (pos : ℕ) (l : List Emchar) : actions pos (l.map .char) = [] := by
  induction l generalizing pos with
  | nil => rfl
  | cons c l ih => exact ih (pos + 1)

theorem le_of_mem_actions {pos : ℕ} {items : List Item} {a : ℕ × Emchar}
    (h : a ∈ actions pos items) : pos ≤ a.1 := by
  induction items generalizing pos with
  | nil => cases h
  | cons i items ih =>
    cases i with
    | char c => exact Nat.le_of_succ_le (ih h)
    | caseAction c =>
      obtain rfl | h := List.mem_cons.mp h
      · exact Nat.le_refl pos
      · exact ih h

/-! ## Case directives -/

section Case

variable (ct : CaseTable)

theorem length_caseLoop (ul : List (ℕ × Emchar)) (curAction : Emchar) (pos : ℕ)
    (l : List Emchar) : (caseLoop ct ul curAction pos l).1.length = l.length := by
  induction l generalizing ul curAction pos with
  | nil => rfl
  | cons c l ih =>
    cases ul with
    | nil => exact congrArg (· + 1) (ih ..)
    | cons a ul =>
      rw [caseLoop]
      split_ifs <;> exact congrArg (· + 1) (ih ..)

theorem caseLoop_cons {ul : List (ℕ × Emchar)} {curAction : Emchar} {pos : ℕ}
    (h : ∀ a ∈ ul, a.1 ≠ pos) (c : Emchar) (l : List Emchar) :
    caseLoop ct ul curAction pos (c :: l)
      = (ct.act curAction c :: (caseLoop ct ul curAction (pos + 1) l).1,
          (caseLoop ct ul curAction (pos + 1) l).2) := by
  cases ul with
  | nil => rfl
  | cons a ul =>
    rw [caseLoop, if_neg (h a mem_cons_self).symm]

theorem caseLoop_taken (ul : List (ℕ × Emchar)) (curAction newAction : Emchar) (pos : ℕ)
    (c : Emchar) (l : List Emchar) :
    ∃ d curAction', caseLoop ct ((pos, newAction) :: ul) curAction pos (c :: l)
        = (d :: (caseLoop ct ul curAction' (pos + 1) l).1,
            (caseLoop ct ul curAction' (pos + 1) l).2) ∧
      ∀ items, documentedCase ct curAction none (.caseAction newAction :: .char c :: items)
        = d :: documentedCase ct curAction' none items := by
  by_cases hup : newAction = upcaseNext
  · refine ⟨ct.upcase c, curAction, ?_, fun items => ?_⟩
    · rw [caseLoop, if_pos rfl, if_pos hup]
    · rw [documentedCase, if_pos (.inl hup), documentedCase, if_pos hup]
  by_cases hdown : newAction = downcaseNext
  · refine ⟨ct.downcase c, curAction, ?_, fun items => ?_⟩
    · rw [caseLoop, if_pos rfl, if_neg hup, if_pos hdown]
    · rw [documentedCase, if_pos (.inr hdown), documentedCase, if_neg hup]
  · refine ⟨ct.act newAction c, newAction, ?_, fun items => ?_⟩
    · rw [caseLoop, if_pos rfl, if_neg hup, if_neg hdown]
    · rw [documentedCase, if_neg (not_or.mpr ⟨hup, hdown⟩), documentedCase]

theorem caseLoop_stuck {a : ℕ × Emchar} {ul : List (ℕ × Emchar)} {curAction : Emchar}
    {pos : ℕ} (h : a.1 < pos) (l : List Emchar) :
    (caseLoop ct (a :: ul) curAction pos l).2 = a :: ul := by
  induction l generalizing pos with
  | nil => rfl
  | cons c l ih =>
    rw [caseLoop, if_neg (Nat.ne_of_gt h)]
    exact ih (Nat.lt_succ_of_lt h)

theorem separate_char {c : Emchar} {items : List Item} :
    Separate (.char c :: items) ↔ Separate items := by
  refine ⟨fun h pre d post heq => h (.char c :: pre) d post (by rw [heq]; rfl), ?_⟩
  intro h pre d post heq
  cases pre with
  | nil => cases heq
  | cons i pre => exact h pre d post (List.cons.inj heq).2

theorem separate_of_chars_nil {items : List Item} (h : chars items = []) : Separate items := by
  intro pre d post heq
  rw [heq, chars_append] at h
  exact .inl (List.append_eq_nil_iff.mp h).2

theorem separate_caseAction_char {c d : Emchar} {items : List Item} :
    Separate (.caseAction c :: .char d :: items) ↔ Separate items := by
  refine ⟨fun h => separate_char.mp fun pre e post heq =>
    h (.caseAction c :: pre) e post (by rw [heq]; rfl), fun h pre e post heq => ?_⟩
  cases pre with
  | nil => exact .inr ⟨d, items, (List.cons.inj heq).2.symm⟩
  | cons i pre => exact separate_char.mpr h pre e post (List.cons.inj heq).2

theorem not_separate {c d : Emchar} {items : List Item} (h : chars items ≠ []) :
    ¬ Separate (.caseAction c :: .caseAction d :: items) := by
  intro hsep
  obtain hnil | ⟨e, post, heq⟩ := hsep [] c (.caseAction d :: items) rfl
  · exact h hnil
  · cases heq

theorem documentedCase_of_chars_nil {items : List Item} (h : chars items = []) {all : Emchar}
    {next : Option Emchar} : documentedCase ct all next items = [] := by
  induction items generalizing all next with
  | nil => rfl
  | cons i items ih =>
    cases i with
    | char c => cases h
    | caseAction c =>
      rw [documentedCase]
      split_ifs
      · exact ih h
      · exact ih h

/-- The directives that a character follows are all taken exactly if no two of them are at one
character; what comes of the characters is documented then. -/
theorem caseLoop_actions (items : List Item) (curAction : Emchar) (pos : ℕ) :
    ((∀ a ∈ (caseLoop ct (actions pos items) curAction pos (chars items)).2,
        pos + (chars items).length ≤ a.1) ↔ Separate items) ∧
      (Separate items → (caseLoop ct (actions pos items) curAction pos (chars items)).1
        = documentedCase ct curAction none items) := by
  match items with
  | [] =>
    exact ⟨⟨fun _ => separate_of_chars_nil rfl, fun _ a ha => by cases ha⟩, fun _ => rfl⟩
  | .char c :: items =>
    have ih := caseLoop_actions items curAction (pos + 1)
    have hpos : pos + (chars (.char c :: items)).length = pos + 1 + (chars items).length := by
      rw [chars, length_cons]
      omega
    rw [hpos, chars, actions,
      caseLoop_cons ct (fun a ha => Nat.ne_of_gt (le_of_mem_actions ha)), separate_char]
    exact ⟨ih.1, fun h => congrArg (ct.act curAction c :: ·) (ih.2 h)⟩
  | .caseAction c :: items =>
    by_cases hnil : chars items = []
    · have hnil' : chars (.caseAction c :: items) = [] := hnil
      rw [documentedCase_of_chars_nil ct hnil', hnil']
      exact ⟨⟨fun _ => separate_of_chars_nil hnil', fun _ a ha => le_of_mem_actions ha⟩,
        fun _ => rfl⟩
    · match items, hnil with
      | .char d :: items, _ =>
        obtain ⟨e, curAction', hloop, hcase⟩ :=
          caseLoop_taken ct (actions (pos + 1) items) curAction c pos d (chars items)
        have ih := caseLoop_actions items curAction' (pos + 1)
        have hpos : pos + (chars (.caseAction c :: .char d :: items)).length
            = pos + 1 + (chars items).length := by
          rw [chars, chars, length_cons]
          omega
        rw [hpos, separate_caseAction_char, hcase]
        simp only [chars, actions, hloop]
        exact ⟨ih.1, fun h => congrArg (e :: ·) (ih.2 h)⟩
      | .caseAction d :: items, hnil =>
        refine ⟨⟨fun h => ?_, fun h => absurd h (not_separate hnil)⟩,
          fun h => absurd h (not_separate hnil)⟩
        obtain ⟨e, l, hchars⟩ : ∃ e l, chars items = e :: l :=
          exists_cons_of_ne_nil hnil
        obtain ⟨_, curAction', hloop, -⟩ :=
          caseLoop_taken ct ((pos, d) :: actions pos items) curAction c pos e l
        have hpending := h (pos, d) (by
          simp only [chars, actions, hchars, hloop]
          rw [caseLoop_stuck ct (Nat.lt_succ_self pos)]
          exact mem_cons_self)
        simp only [chars, hchars, length_cons] at hpending
        omega

end Case

/-! ## Tokens -/

theorem escape_eq (numRegs : ℕ) (c : Emchar) :
    escape numRegs c =
      match token c with
      | .whole => .whole
      | .register n => if n ≤ numRegs then .register n else .plain
      | .caseAction _ => .caseAction
      | .literal _ => .quoted
      | .other _ => .plain := by
  by_cases hwhole : c = ampersand
  · rw [escape, token, if_pos hwhole, if_pos hwhole]
  rw [escape, token, if_neg hwhole, if_neg hwhole]
  by_cases hdigit : digitZero + 1 ≤ c ∧ c ≤ digitZero + 9
  · have hcodes : ∀ d ∈ backslash :: caseActions,
        ¬ (digitZero + 1 ≤ d ∧ d ≤ digitZero + 9) := by decide
    have haction : c ∉ caseActions := fun h => hcodes c (mem_cons_of_mem _ h) hdigit
    have hquoted : c ≠ backslash := fun h => hcodes c (h ▸ mem_cons_self) hdigit
    rw [if_pos hdigit]
    by_cases hle : c ≤ numRegs + digitZero
    · rw [if_pos ⟨hdigit.1, hdigit.2, hle⟩]
      exact (if_pos (Nat.sub_le_iff_le_add.mpr hle)).symm
    · rw [if_neg (fun h => hle h.2.2), if_neg haction, if_neg hquoted]
      exact (if_neg (fun h => hle (Nat.sub_le_iff_le_add.mp h))).symm
  · rw [if_neg (fun h => hdigit ⟨h.1, h.2.1⟩), if_neg hdigit]
    split_ifs <;> rfl

theorem token_spec (c : Emchar) :
    match token c with
    | .whole => True
    | .register n => c = digitZero + n
    | .caseAction d => d = c
    | .literal d => d = c ∧ c = backslash
    | .other d => d = c := by
  rw [token]
  split_ifs with hwhole hdigit haction hquoted
  · trivial
  · exact (Nat.add_sub_of_le (Nat.le_of_succ_le hdigit.1)).symm
  · rfl
  · exact ⟨rfl, hquoted⟩
  · rfl

section Interpreters

variable {text : List Emchar} (m : MatchOn text)

/-- The registers that are read for a token. -/
def tokenReads : Token → List ℕ
  | .whole => [0]
  | .register n => if n ≤ m.groups.length then [n] else []
  | _ => []

/-- What the loop for a string makes of a token. -/
def stringItems : Token → List Item
  | .literal c => [.char c]
  | .whole => m.matched.map .char
  | .register n =>
    match m.group n with
    | some l => l.map .char
    | none => [.char backslash, .char (digitZero + n)]
  | .caseAction c => [.caseAction c]
  | .other c => [.char backslash, .char c]

/-- What the loop for a buffer makes of a token. -/
def bufferItems (current : Bool) : Token → List Item
  | .literal c => [.char c]
  | .whole => if current then m.matched.map .char else []
  | .register n =>
    match m.group n with
    | some l => if current then l.map .char else []
    | none => if n ≤ m.groups.length then [] else [.char (digitZero + n)]
  | .caseAction c => [.caseAction c]
  | .other c => [.char c]

/-- No register is named that is just behind the last one. -/
def NoneBehind (replacement : List Emchar) : Prop :=
  ∀ n, .register n ∈ tokens replacement → n ≠ m.groups.length

variable {m}

theorem reg_of_matched {n a b : ℕ} (h : m.groups[n]? = some (some (a, b))) (base : ℕ)
    (memory : ℕ → Register) :
    (m.regs base memory).reg n = ⟨(a + base : ℕ), (b + base : ℕ)⟩ := by
  simp only [MatchOn.regs, h]

theorem reg_of_unmatched {n : ℕ} (h : m.groups[n]? = some none) (base : ℕ)
    (memory : ℕ → Register) : (m.regs base memory).reg n = ⟨-1, -1⟩ := by
  simp only [MatchOn.regs, h]

theorem group_of_matched {n a b : ℕ} (h : m.groups[n]? = some (some (a, b))) :
    m.group n = some ((text.drop a).take (b - a)) := by
  simp only [MatchOn.group, h]

theorem group_of_unmatched {n : ℕ} (h : m.groups[n]? = some none) : m.group n = none := by
  simp only [MatchOn.group, h]

theorem group_of_length_le {n : ℕ} (h : m.groups.length ≤ n) : m.group n = none := by
  simp only [MatchOn.group, getElem?_eq_none h]

theorem group_cases (m : MatchOn text) {n : ℕ} (hn : n ≠ m.groups.length) :
    (∃ a b, m.groups[n]? = some (some (a, b))) ∨ m.groups[n]? = some none ∨
      m.groups.length < n := by
  cases h : m.groups[n]? with
  | none => exact .inr (.inr (Nat.lt_of_le_of_ne (List.getElem?_eq_none_iff.mp h) hn.symm))
  | some g =>
    cases g with
    | none => exact .inr (.inl rfl)
    | some p => exact .inl ⟨p.1, p.2, rfl⟩

/-! ### The loop for a string -/

section StringLoop

theorem substring_eq {l : List Emchar} {a b : ℕ} (hab : a ≤ b) (hb : b ≤ l.length) :
    substring l a b = some ((l.drop a).take (b - a)) := by
  have ha : stringPos l.length a = some (a : ℤ) := by
    rw [stringPos, if_neg (by omega), if_neg (by omega)]
  have hb' : stringPos l.length b = some (b : ℤ) := by
    rw [stringPos, if_neg (by omega), if_neg (by omega)]
  rw [substring, ha, hb']
  simp only [bind, Option.bind, pure, min_eq_left (Int.ofNat_le.mpr hab),
    max_eq_right (Int.ofNat_le.mpr hab), Int.toNat_natCast]
  rw [show ((b : ℤ) - a).toNat = b - a by omega]

variable {replacement string : List Emchar}

/-- The items `done` are behind: they are in `accum`, or in the literal text before
`strpos`. -/
structure StringDone (replacement : List Emchar) (strpos : ℕ) (done : List Item) (s : Accum) :
    Prop where
  le : s.literalStart ≤ strpos
  text : s.accum.getD [] ++ (replacement.drop s.literalStart).take (strpos - s.literalStart)
    = chars done
  ul : s.ul = actions 0 done

variable {strpos : ℕ} {done : List Item} {s : Accum}

theorem StringDone.length (h : StringDone replacement strpos done s)
    (hle : strpos ≤ replacement.length) :
    (s.accum.getD []).length + (strpos - s.literalStart) = (chars done).length := by
  rw [← h.text, length_append, length_take, length_drop,
    Nat.min_eq_left (by omega)]

theorem StringDone.literal (h : StringDone replacement strpos done s) {c : Emchar}
    (hc : replacement[strpos]? = some c) :
    StringDone replacement (strpos + 1) (done ++ [.char c]) s where
  le := Nat.le_succ_of_le h.le
  text := by
    have hget : (replacement.drop s.literalStart)[strpos - s.literalStart]? = some c := by
      rw [getElem?_drop, Nat.add_sub_of_le h.le]
      exact hc
    rw [Nat.succ_sub h.le, take_add_one, hget, chars_append, ← h.text,
      append_assoc]
    rfl
  ul := by rw [h.ul, actions_append]; exact (append_nil _).symm

/-- The end of a round in which the literal text ends at `le`. -/
theorem StringDone.join {le : ℕ} {p : Piece} (string : List Emchar) (strpos : ℕ)
    (items : List Item) (h : StringDone replacement le done s) (hle : le ≤ replacement.length)
    (hend : p.literalEnd = le)
    (hsub : if 0 ≤ p.substart ∧ p.subend ≠ p.substart then
        substring string p.substart p.subend = some (chars items) else chars items = [])
    (ul : List (ℕ × Emchar)) (hul : ul = s.ul ++ actions (chars done).length items)
    (reads : List ℕ) :
    ∃ s', Accum.join replacement string strpos p { s with ul := ul, reads := reads } = some s' ∧
      StringDone replacement (strpos + 1) (done ++ items) s' := by
  obtain ⟨literalText, hliteral, htext⟩ : ∃ o : Option (List Emchar),
      (if p.literalEnd ≠ s.literalStart then
        (substring replacement s.literalStart p.literalEnd).map some
      else some none) = some o ∧
        o.getD [] = (replacement.drop s.literalStart).take (le - s.literalStart) := by
    by_cases heq : p.literalEnd ≠ s.literalStart
    · refine ⟨some _, ?_, rfl⟩
      rw [if_pos heq, hend, substring_eq h.le hle]
      rfl
    · refine ⟨none, if_neg heq, ?_⟩
      rw [show le - s.literalStart = 0 by omega, take_zero]
      rfl
  obtain ⟨sub, hsub, hchars⟩ : ∃ o : Option (List Emchar),
      (if 0 ≤ p.substart ∧ p.subend ≠ p.substart then
        (substring string p.substart p.subend).map some
      else some none) = some o ∧ o.getD [] = chars items := by
    by_cases heq : 0 ≤ p.substart ∧ p.subend ≠ p.substart
    · rw [if_pos heq] at hsub
      refine ⟨some _, ?_, rfl⟩
      rw [if_pos heq, hsub]
      rfl
    · rw [if_neg heq] at hsub
      exact ⟨none, if_neg heq, hsub.symm⟩
  have haccum : (if literalText.isSome ∨ sub.isSome then some (concat3 s.accum literalText sub)
      else s.accum).getD [] = s.accum.getD [] ++ (literalText.getD [] ++ sub.getD []) := by
    cases literalText with
    | some l => rfl
    | none =>
      cases sub with
      | some l => rfl
      | none => exact (append_nil _).symm
  refine ⟨⟨strpos + 1, if literalText.isSome ∨ sub.isSome then
      some (concat3 s.accum literalText sub) else s.accum, ul, reads⟩, ?_, ?_⟩
  · rw [Accum.join, if_pos (by omega)]
    simp only [hliteral, hsub, bind, Option.bind]
    rfl
  · refine ⟨Nat.le_refl _, ?_, ?_⟩
    · rw [Nat.sub_self, take_zero, append_nil, haccum, htext, hchars,
        ← append_assoc, h.text, chars_append]
    · rw [actions_append, Nat.zero_add, ← h.ul]
      exact hul

/-- A round at a backslash. -/
theorem stringEscape_done (h : StringDone replacement strpos done s) {c : Emchar}
    (hquote : replacement[strpos]? = some backslash) (hc : replacement[strpos + 1]? = some c)
    (hbehind : ∀ n, token c = .register n → n ≠ m.groups.length) (memory : ℕ → Register) :
    ∃ s', (stringEscape (m.regs 0 memory) (strpos + 1) c s).2.join replacement text (strpos + 1)
        (stringEscape (m.regs 0 memory) (strpos + 1) c s).1 = some s' ∧
      StringDone replacement (strpos + 2) (done ++ stringItems m (token c)) s' := by
  have hlt := (List.getElem?_eq_some_iff.mp hc).1
  have hend : ((strpos + 1 : ℕ) : ℤ) - 1 = strpos := by omega
  have hunset : ¬ ((0 : ℤ) ≤ -1) := by decide
  -- what is left as it is
  have hkept : ∀ reads, ∃ s', Accum.join replacement text (strpos + 1) {}
        { s with reads := reads } = some s' ∧
      StringDone replacement (strpos + 2) (done ++ [.char backslash, .char c]) s' := by
    intro reads
    refine ⟨_, if_neg (by decide), ?_⟩
    have hboth := (h.literal hquote).literal hc
    rw [append_assoc] at hboth
    exact ⟨hboth.le, hboth.text, hboth.ul⟩
  -- what a group matched
  have hgroup : ∀ n a b : ℕ, m.groups[n]? = some (some (a, b)) → ∀ reads,
      ∃ s', Accum.join replacement text (strpos + 1)
          { literalEnd := ((strpos + 1 : ℕ) : ℤ) - 1, substart := (a + 0 : ℕ),
            subend := (b + 0 : ℕ) }
          { s with reads := reads } = some s' ∧
        StringDone replacement (strpos + 2)
          (done ++ ((text.drop a).take (b - a)).map .char) s' := by
    intro n a b hab reads
    obtain ⟨-, hle, hb⟩ := m.inMatch hab
    refine h.join text _ _ (by omega) hend ?_ _ ?_ reads
    · rw [chars_map_char]
      split_ifs with hne
      · exact substring_eq hle hb
      · rw [show b - a = 0 by simp only at hne; omega, take_zero]
    · rw [actions_map_char, append_nil]
  have hspec := token_spec c
  have hescape := escape_eq (m.regs 0 memory).numRegs c
  rw [stringEscape, hescape]
  cases htoken : token c with
  | whole =>
    have hreg := reg_of_matched m.whole 0 memory
    simp only [hreg]
    exact hgroup 0 _ _ m.whole _
  | register n =>
    rw [htoken] at hspec
    obtain ⟨a, b, hab⟩ | hnone | hbeyond := group_cases m (hbehind n htoken)
    · have hn : n ≤ (m.regs 0 memory).numRegs :=
        Nat.le_of_lt (List.getElem?_eq_some_iff.mp hab).1
      have hreg := reg_of_matched hab 0 memory
      simp only [if_pos hn, hreg, stringItems, group_of_matched hab]
      rw [if_pos (by omega)]
      exact hgroup n a b hab _
    · have hn : n ≤ (m.regs 0 memory).numRegs :=
        Nat.le_of_lt (List.getElem?_eq_some_iff.mp hnone).1
      have hreg := reg_of_unmatched hnone 0 memory
      simp only [if_pos hn, hreg, stringItems, group_of_unmatched hnone]
      rw [if_neg (by decide), ← hspec]
      exact hkept _
    · have hn : ¬ n ≤ (m.regs 0 memory).numRegs := Nat.not_le.mpr hbeyond
      simp only [if_neg hn, stringItems, group_of_length_le (Nat.le_of_lt hbeyond)]
      rw [← hspec]
      exact hkept _
  | caseAction d =>
    rw [htoken] at hspec
    have hlength := h.length (by omega)
    refine h.join text _ [.caseAction d] (by omega) hend ?_ _ ?_ _
    · rw [if_neg (fun hsub => hunset hsub.1)]
      rfl
    · rw [actions, actions, ← hlength, hspec]
      rfl
  | literal d =>
    rw [htoken] at hspec
    obtain ⟨rfl, hd⟩ := hspec
    have hfirst := h.literal hquote
    have hjoin := hfirst.join text (strpos + 1) [] (p := { literalEnd := (strpos + 1 : ℕ) })
      (by omega) rfl (by rw [if_neg (fun hsub => hunset hsub.1)]; rfl) s.ul
      (append_nil _).symm s.reads
    rw [append_nil, ← hd] at hjoin
    exact hjoin
  | other d =>
    rw [htoken] at hspec
    rw [show d = c from hspec]
    exact hkept s.reads

theorem stringEscape_reads (m : MatchOn text) (memory : ℕ → Register) (strpos : ℕ) (c : Emchar)
    (s : Accum) : (stringEscape (m.regs 0 memory) strpos c s).2.reads
      = s.reads ++ tokenReads m (token c) := by
  rw [stringEscape, escape_eq]
  cases token c with
  | whole => rfl
  | register n =>
    by_cases hn : n ≤ m.groups.length
    · have hn' : n ≤ (m.regs 0 memory).numRegs := hn
      simp only [tokenReads, if_pos hn, if_pos hn']
    · have hn' : ¬ n ≤ (m.regs 0 memory).numRegs := hn
      simp only [tokenReads, if_neg hn, if_neg hn', append_nil]
  | caseAction d => exact (append_nil _).symm
  | literal d => exact (append_nil _).symm
  | other d => exact (append_nil _).symm

theorem join_reads {p : Piece} {s' : Accum} (h : s.join replacement string strpos p = some s') :
    s'.reads = s.reads := by
  rw [Accum.join] at h
  by_cases hend : 0 ≤ p.literalEnd
  · rw [if_pos hend] at h
    obtain ⟨_, -, h⟩ := Option.bind_eq_some_iff.mp h
    obtain ⟨_, -, h⟩ := Option.bind_eq_some_iff.mp h
    cases h
    rfl
  · rw [if_neg hend] at h
    cases h
    rfl

theorem stringLoop_escape (regs : SearchRegs) (c : Emchar) (rest : List Emchar) :
    stringLoop regs replacement string (backslash :: c :: rest) strpos s
      = ((stringEscape regs (strpos + 1) c s).2.join replacement string (strpos + 1)
          (stringEscape regs (strpos + 1) c s).1).bind
            (stringLoop regs replacement string rest (strpos + 2)) := rfl

theorem stringLoop_reads {memory : ℕ → Register} {rest : List Emchar} {s' : Accum}
    (h : stringLoop (m.regs 0 memory) replacement string rest strpos s = some s') :
    s'.reads = s.reads ++ (tokens rest).flatMap (tokenReads m) := by
  induction rest using tokens.induct generalizing strpos s with
  | case1 =>
    cases h
    exact (append_nil _).symm
  | case2 c =>
    cases h
    exact (append_nil _).symm
  | case3 c' rest ih =>
    rw [stringLoop_escape] at h
    obtain ⟨s₁, hjoin, hloop⟩ := Option.bind_eq_some_iff.mp h
    rw [ih hloop, join_reads hjoin, stringEscape_reads, tokens, if_pos rfl,
      flatMap_cons, append_assoc]
  | case4 c c' rest hc ih =>
    rw [stringLoop, if_neg hc] at h
    rw [ih h, tokens, if_neg hc]
    rfl

theorem getElem?_of_drop_eq_cons {l rest : List Emchar} {i : ℕ} {c : Emchar}
    (h : l.drop i = c :: rest) : l[i]? = some c ∧ l.drop (i + 1) = rest := by
  constructor
  · have hget := congrArg (·[0]?) h
    rwa [getElem?_drop] at hget
  · rw [← drop_drop, h]
    rfl

theorem stringLoop_done {rest : List Emchar} (h : StringDone replacement strpos done s)
    (hle : strpos ≤ replacement.length) (hrest : replacement.drop strpos = rest)
    (hbehind : ∀ n, .register n ∈ tokens rest → n ≠ m.groups.length) (memory : ℕ → Register) :
    ∃ s', stringLoop (m.regs 0 memory) replacement text rest strpos s = some s' ∧
      StringDone replacement replacement.length (done ++ (tokens rest).flatMap (stringItems m))
        s' := by
  induction rest using tokens.induct generalizing strpos done s with
  | case1 =>
    refine ⟨s, rfl, ?_⟩
    rw [tokens, flatMap_nil, append_nil,
      Nat.le_antisymm (List.drop_eq_nil_iff.mp hrest) hle]
    exact h
  | case2 c =>
    obtain ⟨hc, hnil⟩ := getElem?_of_drop_eq_cons hrest
    refine ⟨s, rfl, ?_⟩
    rw [Nat.le_antisymm (List.drop_eq_nil_iff.mp hnil) (List.getElem?_eq_some_iff.mp hc).1]
    exact h.literal hc
  | case3 c' rest ih =>
    obtain ⟨hquote, hrest⟩ := getElem?_of_drop_eq_cons hrest
    obtain ⟨hc', hrest⟩ := getElem?_of_drop_eq_cons hrest
    rw [tokens, if_pos rfl] at hbehind ⊢
    have htoken : ∀ n, token c' = .register n → n ≠ m.groups.length := fun n hn =>
      hbehind n (hn ▸ mem_cons_self)
    obtain ⟨s₁, hjoin, hdone⟩ := stringEscape_done h hquote hc' htoken memory
    obtain ⟨s', hloop, hdone'⟩ := ih hdone (List.getElem?_eq_some_iff.mp hc').1 hrest
      fun n hn => hbehind n (mem_cons_of_mem _ hn)
    refine ⟨s', ?_, ?_⟩
    · rw [stringLoop_escape, hjoin]
      exact hloop
    · rw [flatMap_cons, ← append_assoc]
      exact hdone'
  | case4 c c' rest hc ih =>
    obtain ⟨hget, hrest⟩ := getElem?_of_drop_eq_cons hrest
    rw [tokens, if_neg hc] at hbehind ⊢
    obtain ⟨s', hloop, hdone⟩ := ih (h.literal hget) (List.getElem?_eq_some_iff.mp hget).1 hrest
      fun n hn => hbehind n (mem_cons_of_mem _ hn)
    refine ⟨s', ?_, ?_⟩
    · rw [stringLoop, if_neg hc]
      exact hloop
    · rw [flatMap_cons, ← append_assoc]
      exact hdone

theorem replaceInString_eq (m : MatchOn text) (ct : CaseTable) (memory : ℕ → Register)
    (hbehind : NoneBehind m replacement) :
    replaceInString ct (m.regs 0 memory) replacement text =
      (let items := (tokens replacement).flatMap (stringItems m)
        let cased := caseLoop ct (actions 0 items) endCase 0 (chars items)
        some ⟨text.take m.start ++ (cased.1 ++ text.drop m.stop),
          (tokens replacement).flatMap (tokenReads m), cased.2, (chars items).length⟩) := by
  obtain ⟨-, hle, hstop⟩ := m.inMatch m.whole
  have hreg := reg_of_matched m.whole 0 memory
  have hnum : (m.regs 0 memory).numRegs ≠ 0 :=
    Nat.ne_of_gt (Nat.zero_lt_of_lt (List.getElem?_eq_some_iff.mp m.whole).1)
  have hstart : StringDone replacement 0 [] ⟨0, none, [], []⟩ := by
    exact ⟨Nat.le_refl 0, rfl, rfl⟩
  obtain ⟨s', hloop, hdone⟩ := stringLoop_done hstart (Nat.zero_le _) drop_zero hbehind memory
  rw [nil_append] at hdone
  have hrest : (if replacement.length ≠ s'.literalStart then
        (substring replacement s'.literalStart replacement.length).map fun text =>
          concat3 s'.accum (some text) none
      else some (s'.accum.getD [])) =
        some (chars ((tokens replacement).flatMap (stringItems m))) := by
    rw [← hdone.text]
    by_cases heq : replacement.length = s'.literalStart
    · rw [if_neg (not_not.mpr heq), heq, Nat.sub_self, take_zero, append_nil]
    · rw [if_pos heq, substring_eq hdone.le (Nat.le_refl _)]
      exact congrArg some (congrArg (_ ++ ·) (append_nil _))
  have hbefore : substring text 0 m.start = some (text.take m.start) := by
    have := substring_eq (l := text) (Nat.zero_le m.start) (by omega)
    exact this
  have hafter : substring text m.stop text.length = some (text.drop m.stop) := by
    rw [substring_eq hstop (Nat.le_refl _), take_of_length_le (by rw [length_drop])]
  have hreads := stringLoop_reads hloop
  rw [replaceInString, hreg, if_neg (by simp only; omega)]
  simp only [Nat.add_zero, hbefore, hafter, hloop, bind, Option.bind, hrest, hdone.ul, hreads]
  rfl

end StringLoop

/-! ### The loop for a buffer -/

section BufferLoop

/-- The items `done` have been inserted before the match. -/
structure BufferDone (m : MatchOn text) (done : List Item) (s : Inserting) : Prop where
  text : s.text = text.take m.start ++ (chars done ++ text.drop m.start)
  pt : s.pt = m.start + 1 + (chars done).length
  ul : s.ul = actions (m.start + 1) done

variable {done : List Item} {s : Inserting}

theorem start_le (m : MatchOn text) : m.start ≤ text.length := by
  have := m.inMatch m.whole
  omega

theorem BufferDone.before (h : BufferDone m done s) :
    s.text.take (s.pt - 1) = text.take m.start ++ chars done ∧
      s.text.drop (s.pt - 1) = text.drop m.start := by
  have hlen : s.pt - 1 = (text.take m.start ++ chars done).length := by
    rw [length_append, length_take, h.pt, Nat.min_eq_left (start_le m)]
    omega
  rw [hlen, h.text, ← append_assoc]
  exact ⟨take_left, drop_left⟩

theorem BufferDone.insert (h : BufferDone m done s) (items : List Item)
    (ul : List (ℕ × Emchar)) (hul : ul = s.ul ++ actions s.pt items) (reads : List ℕ) :
    BufferDone m (done ++ items)
      { s.insert (chars items) with ul := ul, reads := reads } where
  text := by
    obtain ⟨htake, hdrop⟩ := h.before
    show insertAt s.text s.pt (chars items) = _
    rw [insertAt, htake, hdrop, chars_append]
    simp only [append_assoc]
  pt := by
    show s.pt + (chars items).length = _
    rw [h.pt, chars_append, length_append, Nat.add_assoc]
  ul := by rw [hul, actions_append, ← h.ul, ← h.pt]

theorem insert_nil (s : Inserting) : s.insert [] = s := by
  rw [Inserting.insert, insertAt_nil]
  rfl

theorem insertBufferSubstring_eq (h : BufferDone m done s) {a b : ℕ} (ha : m.start ≤ a)
    (hab : a ≤ b) (hb : b ≤ text.length) (current : Bool) :
    insertBufferSubstring current ((a + 1 : ℕ) + (chars done).length)
        ((b + 1 : ℕ) + (chars done).length) s
      = some (if current then s.insert ((text.drop a).take (b - a)) else s) := by
  have hlength : s.text.length = text.length + (chars done).length := by
    have := start_le m
    rw [h.text]
    simp only [length_append, length_take, length_drop]
    omega
  have hbetween : between s.text (a + 1 + (chars done).length) (b + 1 + (chars done).length)
      = (text.drop a).take (b - a) := by
    have hdrop : a + 1 + (chars done).length - 1 = (s.pt - 1) + (a - m.start) := by
      rw [h.pt]
      omega
    rw [between, hdrop, ← drop_drop, h.before.2, drop_drop,
      Nat.add_sub_of_le ha, show b + 1 + (chars done).length - (a + 1 + (chars done).length)
        = b - a by omega]
  rw [insertBufferSubstring, if_neg (by omega), min_eq_left (by omega), max_eq_right (by omega)]
  have hnat : ∀ c : ℕ, (((c + 1 : ℕ) : ℤ) + (chars done).length).toNat
      = c + 1 + (chars done).length := fun c => by omega
  simp only [hnat, hbetween]
  cases current with
  | false => rw [if_neg (by simp)]; rfl
  | true =>
    by_cases hlt : a < b
    · rw [if_pos ⟨by omega, rfl⟩]
      rfl
    · rw [if_neg (by omega), show b - a = 0 by omega, take_zero, if_pos rfl, insert_nil]

/-- A round at a backslash. -/
theorem bufferEscape_done (h : BufferDone m done s) {c : Emchar}
    (hbehind : ∀ n, token c = .register n → n ≠ m.groups.length) (memory : ℕ → Register)
    (current : Bool) :
    ∃ s', bufferEscape (m.regs 1 memory) current c s = some s' ∧
      BufferDone m (done ++ bufferItems m current (token c)) s' ∧
      s'.reads = s.reads ++ tokenReads m (token c) := by
  have hoffset : (s.pt : ℤ) - ((m.start + 1 : ℕ) : ℤ) = (chars done).length := by
    rw [h.pt]
    omega
  have hkept : ∀ reads, BufferDone m (done ++ []) { s with reads := reads } := fun reads => by
    rw [append_nil]
    exact ⟨h.text, h.pt, h.ul⟩
  have hchar : ∀ reads, BufferDone m (done ++ [.char c]) { s.insert [c] with reads := reads } :=
    h.insert [.char c] s.ul (append_nil _).symm
  -- what a group matched
  have hgroup : ∀ n a b : ℕ, m.groups[n]? = some (some (a, b)) → ∀ reads,
      ∃ s', insertBufferSubstring current ((a + 1 : ℕ) + (chars done).length)
          ((b + 1 : ℕ) + (chars done).length) { s with reads := reads } = some s' ∧
        BufferDone m
          (done ++ if current then ((text.drop a).take (b - a)).map .char else []) s' ∧
        s'.reads = reads := by
    intro n a b hab reads
    obtain ⟨ha, hle, hb⟩ := m.inMatch hab
    refine ⟨_, insertBufferSubstring_eq (s := { s with reads := reads }) ⟨h.text, h.pt, h.ul⟩
      ha hle hb current, ?_⟩
    cases current with
    | false => exact ⟨hkept reads, rfl⟩
    | true =>
      have hinsert := h.insert (((text.drop a).take (b - a)).map .char) s.ul
        (by rw [actions_map_char, append_nil]) reads
      rw [chars_map_char] at hinsert
      exact ⟨hinsert, rfl⟩
  have hreg := reg_of_matched m.whole 1 memory
  have hspec := token_spec c
  rw [bufferEscape, escape_eq]
  cases htoken : token c with
  | whole =>
    simp only [hreg, hoffset]
    exact hgroup 0 _ _ m.whole _
  | register n =>
    rw [htoken] at hspec
    obtain ⟨a, b, hab⟩ | hnone | hbeyond := group_cases m (hbehind n htoken)
    · have hn : n ≤ m.groups.length := Nat.le_of_lt (List.getElem?_eq_some_iff.mp hab).1
      have hn' : n ≤ (m.regs 1 memory).numRegs := hn
      have hreg' := reg_of_matched hab 1 memory
      simp only [if_pos hn', hreg, hreg', hoffset, bufferItems, group_of_matched hab, tokenReads,
        if_pos hn]
      rw [if_pos (by omega)]
      exact hgroup n a b hab _
    · have hn : n ≤ m.groups.length := Nat.le_of_lt (List.getElem?_eq_some_iff.mp hnone).1
      have hn' : n ≤ (m.regs 1 memory).numRegs := hn
      have hreg' := reg_of_unmatched hnone 1 memory
      simp only [if_pos hn', hreg', bufferItems, group_of_unmatched hnone, tokenReads, if_pos hn]
      rw [if_neg (by decide)]
      exact ⟨_, rfl, hkept _, rfl⟩
    · have hn : ¬ n ≤ m.groups.length := Nat.not_le.mpr hbeyond
      have hn' : ¬ n ≤ (m.regs 1 memory).numRegs := hn
      simp only [if_neg hn', bufferItems, group_of_length_le (Nat.le_of_lt hbeyond), tokenReads,
        if_neg hn]
      rw [← hspec]
      exact ⟨_, rfl, hchar _, (append_nil _).symm⟩
  | caseAction d =>
    rw [htoken] at hspec
    have hinsert := h.insert [.caseAction d] (s.ul ++ [(s.pt, d)]) rfl s.reads
    rw [chars, chars, insert_nil] at hinsert
    refine ⟨_, rfl, ?_, (append_nil _).symm⟩
    rw [← show d = c from hspec]
    exact hinsert
  | literal d =>
    rw [htoken] at hspec
    rw [show d = c from hspec.1]
    exact ⟨_, rfl, hchar _, (append_nil _).symm⟩
  | other d =>
    rw [htoken] at hspec
    rw [show d = c from hspec]
    exact ⟨_, rfl, hchar _, (append_nil _).symm⟩

theorem bufferLoop_done {rest : List Emchar} (h : BufferDone m done s)
    (hbehind : ∀ n, .register n ∈ tokens rest → n ≠ m.groups.length) (memory : ℕ → Register)
    (current : Bool) :
    ∃ s', bufferLoop (m.regs 1 memory) current rest s = some s' ∧
      BufferDone m (done ++ (tokens rest).flatMap (bufferItems m current)) s' ∧
      s'.reads = s.reads ++ (tokens rest).flatMap (tokenReads m) := by
  have hchar : ∀ {done s} c, BufferDone m done s → BufferDone m (done ++ [.char c]) (s.insert [c]) :=
    fun c h => h.insert [.char c] _ (append_nil _).symm _
  induction rest using tokens.induct generalizing done s with
  | case1 => exact ⟨s, rfl, (append_nil done).symm ▸ h, (append_nil _).symm⟩
  | case2 c => exact ⟨_, rfl, hchar c h, (append_nil _).symm⟩
  | case3 c' rest ih =>
    rw [tokens, if_pos rfl] at hbehind ⊢
    have htoken : ∀ n, token c' = .register n → n ≠ m.groups.length := fun n hn =>
      hbehind n (hn ▸ mem_cons_self)
    obtain ⟨s₁, hescape, hdone, hreads⟩ := bufferEscape_done h htoken memory current
    obtain ⟨s', hloop, hdone', hreads'⟩ := ih hdone fun n hn => hbehind n (mem_cons_of_mem _ hn)
    refine ⟨s', ?_, ?_, ?_⟩
    · rw [bufferLoop, if_pos rfl, hescape]
      exact hloop
    · rw [flatMap_cons, ← append_assoc]
      exact hdone'
    · rw [hreads', hreads, flatMap_cons, append_assoc]
  | case4 c c' rest hc ih =>
    rw [tokens, if_neg hc] at hbehind ⊢
    obtain ⟨s', hloop, hdone, hreads⟩ := ih (hchar c h)
      fun n hn => hbehind n (mem_cons_of_mem _ hn)
    refine ⟨s', ?_, ?_, hreads⟩
    · rw [bufferLoop, if_neg hc]
      exact hloop
    · rw [flatMap_cons, ← append_assoc]
      exact hdone

/-- What the replacement in a buffer comes to. -/
theorem replaceInBuffer_eq (m : MatchOn text) (ct : CaseTable) (memory : ℕ → Register)
    (current : Bool) {replacement : List Emchar} (hbehind : NoneBehind m replacement) :
    replaceInBuffer ct (m.regs 1 memory) current replacement text =
      (let items := (tokens replacement).flatMap (bufferItems m current)
        let cased := caseLoop ct (actions (m.start + 1) items) endCase (m.start + 1) (chars items)
        some ⟨text.take m.start ++ (cased.1 ++ text.drop m.stop),
          (tokens replacement).flatMap (tokenReads m), cased.2,
          m.start + 1 + (chars items).length⟩) := by
  obtain ⟨-, hle, hstop⟩ := m.inMatch m.whole
  have hreg := reg_of_matched m.whole 1 memory
  have hnum : (m.regs 1 memory).numRegs ≠ 0 :=
    Nat.ne_of_gt (Nat.zero_lt_of_lt (List.getElem?_eq_some_iff.mp m.whole).1)
  have hstart : BufferDone m [] ⟨text, m.start + 1, [], []⟩ :=
    ⟨(take_append_drop _ _).symm, rfl, rfl⟩
  obtain ⟨s', hloop, hdone, hreads⟩ := bufferLoop_done hstart hbehind memory current
  rw [nil_append] at hdone hreads
  obtain ⟨items, hitems⟩ : ∃ items, items = (tokens replacement).flatMap (bufferItems m current) :=
    ⟨_, rfl⟩
  rw [← hitems] at hdone
  have hinslen : s'.pt - (m.start + 1) = (chars items).length := by
    rw [hdone.pt]
    omega
  have htaken : (text.take m.start).length = m.start := by
    rw [length_take, Nat.min_eq_left (start_le m)]
  have hdeleted : deleteRange s'.text (m.start + 1 + (chars items).length)
      (m.stop + 1 + (chars items).length)
        = text.take m.start ++ (chars items ++ text.drop m.stop) := by
    have hdrop : m.stop + 1 + (chars items).length - 1 = (s'.pt - 1) + (m.stop - m.start) := by
      rw [hdone.pt]
      omega
    rw [deleteRange, ← hdone.pt, hdrop, ← drop_drop, hdone.before.1, hdone.before.2,
      drop_drop, Nat.add_sub_of_le hle, append_assoc]
  have hbetween : between (text.take m.start ++ (chars items ++ text.drop m.stop)) (m.start + 1)
      (m.start + 1 + (chars items).length) = chars items := by
    rw [between, Nat.add_sub_cancel_left, Nat.add_sub_cancel, drop_left' htaken,
      take_left]
  have hbefore : (text.take m.start ++ (chars items ++ text.drop m.stop)).take m.start
      = text.take m.start := take_left' htaken
  have hafter : (text.take m.start ++ (chars items ++ text.drop m.stop)).drop
      (m.start + 1 + (chars items).length - 1) = text.drop m.stop := by
    rw [← append_assoc]
    refine drop_left' ?_
    rw [length_append, htaken]
    omega
  rw [replaceInBuffer, hreg, if_neg (by simp only; omega)]
  simp only [Int.toNat_natCast, hloop, bind, Option.bind, hinslen, hdeleted]
  simp only [hdone.pt, Nat.add_sub_cancel, hbetween, hbefore, hafter, hdone.ul, hreads, ← hitems]
  rfl

end BufferLoop

/-! ### Agreement -/

theorem replaceInString_reads {ct : CaseTable} {memory : ℕ → Register} {replacement : List Emchar}
    {r : Replaced} (h : replaceInString ct (m.regs 0 memory) replacement text = some r) :
    r.reads = (tokens replacement).flatMap (tokenReads m) := by
  rw [replaceInString] at h
  split_ifs at h
  obtain ⟨_, -, h⟩ := Option.bind_eq_some_iff.mp h
  obtain ⟨_, -, h⟩ := Option.bind_eq_some_iff.mp h
  obtain ⟨s', hloop, h⟩ := Option.bind_eq_some_iff.mp h
  obtain ⟨_, -, h⟩ := Option.bind_eq_some_iff.mp h
  cases h
  exact stringLoop_reads hloop

theorem noneBehind_iff {replacement : List Emchar} :
    (∀ n ∈ (tokens replacement).flatMap (tokenReads m), n < m.groups.length) ↔
      NoneBehind m replacement := by
  constructor
  · rintro h n hn rfl
    refine Nat.lt_irrefl _ (h m.groups.length (List.mem_flatMap.mpr ⟨_, hn, ?_⟩))
    rw [tokenReads, if_pos (Nat.le_refl _)]
    exact mem_singleton_self _
  · intro h n hn
    obtain ⟨t, ht, hread⟩ := List.mem_flatMap.mp hn
    cases t with
    | whole =>
      rw [List.mem_singleton.mp hread]
      exact Nat.zero_lt_of_lt (List.getElem?_eq_some_iff.mp m.whole).1
    | register k =>
      rw [tokenReads] at hread
      split_ifs at hread with hk
      · rw [List.mem_singleton.mp hread]
        exact Nat.lt_of_le_of_ne hk (h k ht)
      · cases hread
    | literal c => cases hread
    | caseAction c => cases hread
    | other c => cases hread

theorem items_of_supported {current : Bool} {t : Token} (h : t.Supported m current)
    (other : Emchar → List Emchar) :
    stringItems m t = documentedItems m other t ∧
      bufferItems m current t = documentedItems m other t := by
  cases t with
  | literal c => exact ⟨rfl, rfl⟩
  | whole =>
    refine ⟨rfl, ?_⟩
    obtain rfl | hnil := h
    · rfl
    · rw [bufferItems, documentedItems, hnil]
      exact ite_self _
  | register n =>
    obtain ⟨l, hl, hcurrent⟩ := h
    rw [stringItems, bufferItems, documentedItems, hl]
    refine ⟨rfl, ?_⟩
    obtain rfl | rfl := hcurrent
    · rfl
    · exact ite_self _
  | caseAction c => exact ⟨rfl, rfl⟩
  | other c => exact h.elim

theorem length_bufferItems_le (m : MatchOn text) (current : Bool) (t : Token) :
    (chars (bufferItems m current t)).length ≤ (chars (stringItems m t)).length ∧
      ((chars (bufferItems m current t)).length = (chars (stringItems m t)).length →
        t.Supported m current) := by
  have hmatched : ∀ l : List Emchar,
      (chars (if current then l.map .char else [])).length ≤ l.length ∧
        ((chars (if current then l.map .char else [])).length = l.length →
          current = true ∨ l = []) := by
    intro l
    cases current with
    | true => exact ⟨by rw [if_pos rfl, chars_map_char], fun _ => .inl rfl⟩
    | false => exact ⟨Nat.zero_le _, fun h => .inr (List.length_eq_zero_iff.mp h.symm)⟩
  cases t with
  | literal c => exact ⟨Nat.le_refl _, fun _ => trivial⟩
  | whole =>
    rw [stringItems, chars_map_char]
    exact hmatched m.matched
  | register n =>
    rw [stringItems, bufferItems]
    cases hgroup : m.group n with
    | some l =>
      simp only [chars_map_char]
      exact ⟨(hmatched l).1, fun h => ⟨l, hgroup, (hmatched l).2 h⟩⟩
    | none =>
      have hle : (chars (if n ≤ m.groups.length then [] else
          [.char (digitZero + n)])).length ≤ 1 := by
        split_ifs
        · exact Nat.zero_le _
        · exact Nat.le_refl 1
      exact ⟨Nat.le_succ_of_le hle, fun h => absurd h (Nat.ne_of_lt (Nat.lt_succ_of_le hle))⟩
  | caseAction c => exact ⟨Nat.le_refl _, fun _ => trivial⟩
  | other c => exact ⟨Nat.le_succ 1, fun h => absurd h (Nat.ne_of_lt (Nat.lt_succ_self 1))⟩

theorem supported_of_length {current : Bool} {ts : List Token}
    (h : (chars (ts.flatMap (bufferItems m current))).length
      = (chars (ts.flatMap (stringItems m))).length) : ∀ t ∈ ts, t.Supported m current := by
  have hle : ∀ ts : List Token, (chars (ts.flatMap (bufferItems m current))).length
      ≤ (chars (ts.flatMap (stringItems m))).length := by
    intro ts
    induction ts with
    | nil => exact Nat.le_refl 0
    | cons t ts ih =>
      rw [flatMap_cons, flatMap_cons, chars_append, chars_append, length_append,
        length_append]
      exact Nat.add_le_add (length_bufferItems_le m current t).1 ih
  induction ts with
  | nil => exact fun t ht => by cases ht
  | cons t ts ih =>
    rw [flatMap_cons, flatMap_cons, chars_append, chars_append, length_append,
      length_append] at h
    have ht := length_bufferItems_le m current t
    have hts := hle ts
    intro t' ht'
    obtain rfl | ht' := List.mem_cons.mp ht'
    · exact ht.2 (by omega)
    · exact ih (by omega) t' ht'

theorem flatMap_items_of_supported {current : Bool} {ts : List Token}
    (h : ∀ t ∈ ts, t.Supported m current) (other : Emchar → List Emchar) :
    ts.flatMap (stringItems m) = ts.flatMap (documentedItems m other) ∧
      ts.flatMap (bufferItems m current) = ts.flatMap (documentedItems m other) :=
  ⟨flatMap_congr fun t ht => (items_of_supported (h t ht) other).1,
    flatMap_congr fun t ht => (items_of_supported (h t ht) other).2⟩

end Interpreters

/-- A match of a letter, with a group that did not match. -/
def letterMatch : MatchOn [0x61] where
  groups := [some (0, 1), none]
  start := 0
  stop := 1
  whole := rfl
  inMatch := by
    intro n a b h
    match n with
    | 0 =>
      cases h
      decide
    | 1 => cases h
    | _ + 2 => cases h

end XEmacs.Search
