import XEmacs.Buffer.Sound
import XEmacs.Lib.Runs

/-!
# The known region over whole runs

A buffer that is edited through itself converts exactly, as long as no insertion converts the
endpoint of an extent while `PT` is out of step with the changed text (`conversions_exact`).
-/

namespace XEmacs.Buffer

open BytePositions Runs

variable {n : Nat}

/-- A step of a run through a member. -/
def BufferOp.step (i : Fin n) (f : Family n) (op : BufferOp n) : Option (Family n) :=
  some (op.run i f)

/-- Both conversions give the positions counted from the start of the text. -/
def ConvertsExactly (i : Fin n) (f : Family n) : Prop :=
  ∀ x, 1 ≤ x → x ≤ f.text.text.length + 1 →
    (f.bufposToBytind i x).1 = bytind f.text.text x ∧
      (f.bytindToBufpos i (bytind f.text.text x)).1 = x

theorem Family.SoundAt.convertsExactly {f : Family n} {i : Fin n} (h : f.SoundAt i) :
    ConvertsExactly i f := by
  intro x hx hx'
  obtain ⟨t, hconv, -⟩ := h.trueAt.bufposToBytind hx hx'
  obtain ⟨t', hconv', -⟩ := h.trueAt.bytindToBufpos hx hx'
  rw [hconv, hconv']
  exact ⟨rfl, rfl⟩

/-- **Conversion is exact under caching**: in a run of operations on a new buffer whose
insertions do not convert extent endpoints out of step, both conversions are exact in
every state, for every position of the text. -/
theorem conversions_exact (i : Fin n) (l : List (BufferOp n))
    (hl : StepsMeet (BufferOp.step i) (BufferOp.InStep i) (initBufferText n) l) :
    Always (BufferOp.step i) (ConvertsExactly i) (initBufferText n) l := by
  have hstep : ∀ (f : Family n) (op : BufferOp n), f.SoundAt i → op.InStep i f →
      ∃ f', BufferOp.step i f op = some f' ∧ f'.SoundAt i :=
    fun f op h hop => ⟨op.run i f, rfl, op.run_sound h hop⟩
  exact (Always.of_step hstep (initBufferText_sound i) hl).imp
    fun _ h => h.convertsExactly

/-- A run of insertions, point motion and a conversion. -/
theorem conversions_exact_hiragana :
    Always (BufferOp.step 0) (ConvertsExactly 0) (initBufferText 1)
      [.insert none [hiraganaA, letterA] [], .gotoChar 2, .insert (some 1) [letterA] [],
        .bytindToBufpos 3] :=
  conversions_exact 0 _ (by decide)

/-- Hiragana A is inserted before point where a start-open extent starts. -/
def outOfStep : List (BufferOp 1) :=
  [.insert none (List.replicate 7 letterA) [], .gotoChar 7,
    .insert (some 5) [hiraganaA] [(⟨0, Nat.one_pos⟩, 5)]]

/-- Then the position of the inserted character is converted wrongly. -/
theorem outOfStep_not_exact :
    ¬ Always (BufferOp.step 0) (ConvertsExactly 0) (initBufferText 1) outOfStep := by
  intro h
  rw [← List.append_nil outOfStep] at h
  obtain ⟨f, hrun, hexact⟩ := h.exists_after
  have hwrong : ((after (BufferOp.step 0) (initBufferText 1) outOfStep).map fun f =>
      (f.text.text.length, bytind f.text.text 5, (f.bytindToBufpos 0 5).1)) =
      some (8, 5, 6) := by decide
  rw [hrun, Option.map_some, Option.some.injEq, Prod.mk.injEq, Prod.mk.injEq] at hwrong
  obtain ⟨hlen, hbyt, hpos⟩ := hwrong
  have hexact := (hexact 5 (by decide) (by omega)).2
  rw [hbyt, hpos] at hexact
  exact absurd hexact (by decide)

/-! ## The table -/

/-- A single change or conversion. An insertion at point is an insertion at that
position and a conversion. -/
inductive EditOp (n : Nat) where
  | insert (pos : Nat) (c : List Emchar) (ends : List (Fin n × Nat))
  | delete (start stop : Nat)
  | bufposToBytind (x : Nat)
  | bytindToBufpos (x : Nat)

namespace EditOp

/-- The operation it is. -/
def op : EditOp n → BufferOp n
  | insert pos c ends => .insert (some pos) c ends
  | delete start stop => .delete start stop
  | bufposToBytind x => .bufposToBytind x
  | bytindToBufpos x => .bytindToBufpos x

def step (i : Fin n) (f : Family n) (o : EditOp n) : Option (Family n) :=
  some (o.op.run i f)

/-- An insertion converts no extent endpoints out of step, and does not make a known
region of three-byte characters longer than the table allows. -/
def StaysInTable (i : Fin n) (f : Family n) : EditOp n → Prop
  | insert pos c ends =>
    EndsTrue f ((f.members i).clip pos) c ends ∧
      (f.text.mule.threeP = true →
        f.text.mule.grownLength ((f.members i).clip pos) c ≤ maxBufposGapSize3)
  | _ => True

/-- An insertion converts no extent endpoints. -/
def NoEnds : EditOp n → Prop
  | insert _ _ ends => ends = []
  | _ => True

end EditOp

/-- Every lookup of `real_bytind_to_bufpos` is inside `three_to_one_table`. -/
def LookupsInTable (f : Family n) : Prop :=
  f.text.mule.threeP = true →
    f.text.mule.max.byt - f.text.mule.min.byt ≤ maxBytindGapSize3 ∧
      ∀ x, x ≥ f.text.mule.min.byt → x ≤ f.text.mule.max.byt →
        x - f.text.mule.min.byt < 1 + maxBytindGapSize3

theorem lookupsInTable_iff (f : Family n) : LookupsInTable f ↔ f.text.mule.InTable := by
  refine forall_congr' fun _ => ⟨fun h => h.1, fun h => ⟨h, fun x _ _ => ?_⟩⟩
  omega

/-- The invariant of a run whose lookups are in the table. -/
structure TableAt (i : Fin n) (f : Family n) : Prop where
  sound : f.SoundAt i
  inTable : f.text.mule.InTable

section TableAt

variable {i : Fin n} {f : Family n}

theorem TableAt.run (h : TableAt i f) (o : EditOp n) (ho : o.StaysInTable i f) :
    TableAt i (o.op.run i f) := by
  cases o with
  | insert pos c ends =>
    obtain ⟨hlo, hhi⟩ := h.sound.member.clip pos
    obtain ⟨f', heq, -, hsound, -, htable, -⟩ := insertString_spec h.sound hlo hhi c ho.1
    have hrun : (EditOp.insert pos c ends).op.run i f = f' := by
      show (insertString f i ((f.members i).clip pos) c ends).2 = f'
      rw [heq]
    rw [hrun]
    exact ⟨hsound, htable h.inTable ho.2⟩
  | delete start stop =>
    refine ⟨bufferDeleteRange_sound h.sound start stop, ?_⟩
    show (bufferDeleteRange f i start stop).text.mule.InTable
    rcases bufferDeleteRange_clip f i start stop with ⟨-, heq⟩ | ⟨hab, heq⟩
    · rw [heq]
      exact h.inTable
    · rw [heq]
      exact (bufferDeleteRange_spec h.sound hab (Nat.le_max_right ..)
        (Nat.min_le_right ..)).2.2.2 h.inTable
  | bufposToBytind x =>
    refine ⟨(BufferOp.bufposToBytind x).run_sound h.sound trivial, ?_⟩
    simp only [EditOp.op, BufferOp.run]
    split
    case isTrue hx =>
      obtain ⟨t, hconv, hkeeps, -⟩ := h.sound.trueAt.bufposToBytind hx.1 hx.2
      rw [hconv]
      exact hkeeps.inTable h.inTable
    case isFalse => exact h.inTable
  | bytindToBufpos x =>
    refine ⟨(BufferOp.bytindToBufpos x).run_sound h.sound trivial, ?_⟩
    simp only [EditOp.op, BufferOp.run]
    split
    case isTrue hx =>
      obtain ⟨t, hconv, hkeeps⟩ := h.sound.trueAt.bytindToBufpos hx.1 hx.2
      rw [hconv]
      exact hkeeps.inTable h.inTable
    case isFalse => exact h.inTable

theorem TableAt.run_overrun (h : TableAt i f) {o : EditOp n} (hends : o.NoEnds)
    (ho : ¬ o.StaysInTable i f) : ¬ (o.op.run i f).text.mule.InTable := by
  cases o with
  | insert pos c ends =>
    have hends : ends = [] := hends
    subst hends
    have htrue : EndsTrue f ((f.members i).clip pos) c [] :=
      fun _ he => absurd he List.not_mem_nil
    obtain ⟨hlo, hhi⟩ := h.sound.member.clip pos
    obtain ⟨f', heq, -, -, -, -, htable⟩ := insertString_spec h.sound hlo hhi c htrue
    have hrun : (EditOp.insert pos c []).op.run i f = f' := by
      show (insertString f i ((f.members i).clip pos) c []).2 = f'
      rw [heq]
    rw [hrun]
    exact fun hin => ho ⟨htrue, htable h.inTable rfl hin⟩
  | delete start stop => exact absurd trivial ho
  | bufposToBytind x => exact absurd trivial ho
  | bytindToBufpos x => exact absurd trivial ho

theorem TableAt.always (h : TableAt i f) {l : List (EditOp n)}
    (hl : StepsMeet (EditOp.step i) (EditOp.StaysInTable i) f l) :
    Always (EditOp.step i) LookupsInTable f l :=
  (Always.of_step (fun f o (hf : TableAt i f) ho => ⟨o.op.run i f, rfl, hf.run o ho⟩)
    h hl).imp fun f h => (lookupsInTable_iff f).mpr h.inTable

theorem TableAt.stepsMeet (h : TableAt i f) {l : List (EditOp n)}
    (hends : ∀ o ∈ l, o.NoEnds) (hl : Always (EditOp.step i) LookupsInTable f l) :
    StepsMeet (EditOp.step i) (EditOp.StaysInTable i) f l := by
  refine StepsMeet.of_always
    (fun f o (hf : TableAt i f) ho => ⟨o.op.run i f, rfl, hf.run o ho⟩)
    (fun f o f' hf hends ho hstep => ?_) h hends hl
  have hstep : o.op.run i f = f' := Option.some.inj hstep
  rw [lookupsInTable_iff, ← hstep]
  exact hf.run_overrun hends ho

end TableAt

theorem initBufferText_tableAt (i : Fin n) : TableAt i (initBufferText n) :=
  ⟨initBufferText_sound i, fun h => (Bool.false_ne_true h).elim⟩

/-- **When the table is overrun**: in a run of insertions, deletions and conversions on
a new buffer, every lookup is inside `three_to_one_table` in every state if no insertion
strictly inside a known region of three-byte characters makes it longer than 21845
characters, and, in a run whose insertions convert no extent endpoints, only if. -/
theorem lookupsInTable_of_stays (i : Fin n) (l : List (EditOp n)) :
    (StepsMeet (EditOp.step i) (EditOp.StaysInTable i) (initBufferText n) l →
      Always (EditOp.step i) LookupsInTable (initBufferText n) l) ∧
    ((∀ o ∈ l, o.NoEnds) →
      Always (EditOp.step i) LookupsInTable (initBufferText n) l →
      StepsMeet (EditOp.step i) (EditOp.StaysInTable i) (initBufferText n) l) :=
  ⟨(initBufferText_tableAt i).always, (initBufferText_tableAt i).stepsMeet⟩

theorem leading_replicate (c : Emchar) (k : Nat) :
    leading c.width (List.replicate k c) = k := by
  induction k with
  | zero => rfl
  | succ k ih => rw [List.replicate_succ, leading_cons, if_pos rfl, ih]

/-- The known region is moved over two of four three-byte characters; then 21845 more
are inserted between the two. -/
def overrun : List (EditOp 1) :=
  [.insert 1 [hiraganaA, hiraganaA, hiraganaA, hiraganaA] [], .bufposToBytind 3,
    .insert 2 (List.replicate 21845 hiraganaA) []]

/-- The last insertion makes a known region of 21847 characters. -/
theorem overrun_not_inTable :
    ¬ Always (EditOp.step 0) LookupsInTable (initBufferText 1) overrun := by
  intro h
  have hends : ∀ o ∈ overrun, o.NoEnds :=
    List.forall_mem_cons.mpr ⟨rfl, List.forall_mem_cons.mpr ⟨trivial,
      List.forall_mem_singleton.mpr rfl⟩⟩
  have hmeet := (initBufferText_tableAt 0).stepsMeet hends h
  obtain ⟨-, hmeet⟩ := hmeet
  obtain ⟨-, hmeet⟩ := hmeet _ rfl
  obtain ⟨⟨-, hstays⟩, -⟩ := hmeet _ rfl
  -- the state before the last insertion
  generalize hf : BufferOp.run 0 (BufferOp.run 0 (initBufferText 1)
    (EditOp.insert 1 [hiraganaA, hiraganaA, hiraganaA, hiraganaA] []).op)
    (EditOp.bufposToBytind 3).op = f at hstays
  have hmule : f.text.mule.min = ⟨1, 1⟩ ∧ f.text.mule.max = ⟨3, 7⟩ ∧
      f.text.mule.threeP = true ∧ f.text.mule.size = hiraganaA.width ∧
      (f.members 0).clip 2 = 2 := by
    rw [← hf]
    decide
  obtain ⟨hmin, hmax, hthree, hsize, hclip⟩ := hmule
  have hlong := hstays hthree
  rw [hclip, MuleData.grownLength, hmin, hmax, hsize, leading_replicate,
    List.length_replicate] at hlong
  exact absurd hlong (by decide)

end XEmacs.Buffer
