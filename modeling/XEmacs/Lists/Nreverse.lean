import XEmacs.Lists.Loop

/-!
# Reversing a list in place (fns.c)

`nreverse` does not look for circles, and needs not: on a circular list it comes back to the circle
and goes down the way it came, which restores that (`nreverse_spec`).
-/

namespace XEmacs.Lists

open ConsLists List Function

variable {α : Type} [DecidableEq α]

/-- The loop of `nreverse`, with its rounds counted: the reversed list, or an error. -/
def nreverseLoop (nil : α) : Nat → Cells α → Ref α → Ref α →
    Option (Except (ListError α) (Ref α) × Cells α)
  | 0, _, _, _ => none
  | _ + 1, c, prev, .atom a =>
    if a = nil then some (.ok prev, c)
    else some (.error (.wrongTypeArgument "consp" (.atom a)), c)
  | rounds + 1, c, prev, .cell p => nreverseLoop nil rounds (c.setCdr p prev) (.cell p) (c.cdr p)

def nreverse (nil : α) (rounds : Nat) (c : Cells α) (list : Ref α) :
    Option (Except (ListError α) (Ref α) × Cells α) :=
  nreverseLoop nil rounds c (.atom nil) list

/-- The cdrs lead from `r` through the cells to `s`. -/
inductive Path (c : Cells α) : Ref α → List Nat → Ref α → Prop
  | nil {r : Ref α} : Path c r [] r
  | cons {p : Nat} {ps : List Nat} {s : Ref α} (h : Path c (c.cdr p) ps s) :
      Path c (.cell p) (p :: ps) s

variable {c c' : Cells α} {r s s' prev : Ref α} {ps qs : List Nat}

namespace Path

omit [DecidableEq α]

theorem append (h : Path c r ps s) (h' : Path c s qs s') : Path c r (ps ++ qs) s' := by
  induction h with
  | nil => exact h'
  | cons _ ih => exact .cons (ih h')

theorem congr (h : Path c r ps s) (hc : ∀ p ∈ ps, c'.cdr p = c.cdr p) : Path c' r ps s := by
  induction h with
  | nil => exact .nil
  | @cons p ps s _ ih =>
    refine .cons ?_
    rw [hc p (mem_cons_self ..)]
    exact ih fun q hq => hc q (mem_cons_of_mem p hq)

theorem split {p : Nat} (h : Path c r (ps ++ p :: qs) s) :
    Path c r ps (.cell p) ∧ Path c (.cell p) (p :: qs) s := by
  induction ps generalizing r with
  | nil =>
    cases h with
    | cons htail => exact ⟨.nil, .cons htail⟩
  | cons q ps ih =>
    cases h with
    | cons htail => exact ⟨.cons (ih htail).1, (ih htail).2⟩

end Path

/-- What the loop changes: the path is turned round, and leads to what was behind it. -/
structure Turned (c c' : Cells α) (ps : List Nat) (head prev : Ref α) : Prop where
  path : Path c' head ps.reverse prev
  others : ∀ p ∉ ps, c'.cdr p = c.cdr p
  car : c'.car = c.car

/-- **The loop along a path** turns it round. The induction goes along the path, each cell of which
becomes the end of the way back. -/
theorem nreverseLoop_path (nil : α) (h : Path c r ps s) (hps : ps.Nodup) (prev : Ref α) :
    ∃ c' head, Turned c c' ps head prev ∧
      ∀ rounds, nreverseLoop nil (rounds + ps.length) c prev r =
        nreverseLoop nil rounds c' head s := by
  induction ps generalizing c r prev with
  | nil =>
    cases h
    exact ⟨c, prev, ⟨.nil, fun _ _ => rfl, rfl⟩, fun _ => rfl⟩
  | cons p ps ih =>
    cases h with
    | cons htail =>
      obtain ⟨hp, hps⟩ := List.nodup_cons.mp hps
      have hset : ∀ q, q ≠ p → (c.setCdr p prev).cdr q = c.cdr q := fun q hq => update_of_ne hq ..
      have htail' : Path (c.setCdr p prev) (c.cdr p) ps s :=
        htail.congr fun q hq => hset q fun heq => hp (heq ▸ hq)
      obtain ⟨c', head, hturned, hloop⟩ := ih htail' hps (.cell p)
      refine ⟨c', head, ⟨?_, fun q hq => ?_, hturned.car⟩, hloop⟩
      · have hlast : c'.cdr p = prev := (hturned.others p hp).trans (update_self ..)
        rw [reverse_cons]
        refine hturned.path.append (.cons ?_)
        rw [hlast]
        exact .nil
      · obtain ⟨hqp, hq⟩ := not_or.mp (List.mem_cons.not.mp hq)
        exact (hturned.others q hq).trans (hset q hqp)

/-- What `nreverse` makes of the list that goes through the cells `ps` to `s`, the first atom or
the first cell for the second time. -/
structure Nreversed (nil : α) (c : Cells α) (r : Ref α) (ps : List Nat) (s : Ref α) : Prop where
  /-- A list is reversed. -/
  list : s = .atom nil → ∃ c' head, nreverse nil (ps.length + 1) c r = some (.ok head, c') ∧
    Turned c c' ps head (.atom nil)
  /-- An atom at the end is an error, when all has been turned round. -/
  dotted : ∀ a, a ≠ nil → s = .atom a → ∃ c' head, nreverse nil (ps.length + 1) c r =
      some (.error (.wrongTypeArgument "consp" (.atom a)), c') ∧ Turned c c' ps head (.atom nil)
  /-- Of a circular list the circle is turned round, and what leads to it stays. -/
  circular : ∀ stem q loop, ps = stem ++ q :: loop → s = .cell q →
    ∃ c', nreverse nil (ps.length + stem.length + 2) c r = some (.ok r, c') ∧
      Path c' r stem (.cell q) ∧ Path c' (.cell q) (q :: loop.reverse) (.cell q) ∧
      (∀ p ∉ ps, c'.cdr p = c.cdr p) ∧ c'.car = c.car

/-- **`nreverse` ends on every list**, and reverses it, or its circle. -/
theorem nreverse_spec (nil : α) (h : Path c r ps s) (hps : ps.Nodup) : Nreversed nil c r ps s := by
  obtain ⟨c', head, hturned, hloop⟩ := nreverseLoop_path nil h hps (.atom nil)
  refine ⟨?_, ?_, ?_⟩
  · rintro rfl
    refine ⟨c', head, ?_, hturned⟩
    rw [nreverse, Nat.add_comm, hloop]
    exact if_pos rfl
  · rintro a ha rfl
    refine ⟨c', head, ?_, hturned⟩
    rw [nreverse, Nat.add_comm, hloop]
    exact if_neg ha
  · rintro stem q loop rfl rfl
    -- the way back from the circle leads through the stem to its beginning
    have hback := hturned.path
    rw [reverse_append, reverse_cons, List.append_assoc, List.singleton_append] at hback
    obtain ⟨hcircle, hstem⟩ := hback.split
    have hnodup : (q :: stem.reverse).Nodup := by
      have hsub : (stem ++ [q]).Sublist (stem ++ q :: loop) :=
        (List.Sublist.refl stem).append (.cons_cons q (nil_sublist loop))
      have hrev := List.nodup_reverse.mpr (hps.sublist hsub)
      rwa [reverse_append] at hrev
    obtain ⟨c'', first, hturned', hloop'⟩ := nreverseLoop_path nil hstem hnodup head
    have hpath := hturned'.path
    rw [reverse_cons, reverse_reverse] at hpath
    obtain ⟨hstem', hq⟩ := hpath.split
    have hkept : ∀ p ∈ loop.reverse, c''.cdr p = c'.cdr p := by
      intro p hp
      obtain ⟨-, hloopNodup, hdisjoint⟩ := List.nodup_append.mp hps
      refine hturned'.others p fun hmem => ?_
      rw [List.mem_reverse] at hp
      rcases List.mem_cons.mp hmem with rfl | hmem
      · exact (List.nodup_cons.mp hloopNodup).1 hp
      · exact hdisjoint p (List.mem_reverse.mp hmem) p (mem_cons_of_mem q hp) rfl
    have hfirst : first = r := by
      cases stem with
      | nil =>
        cases hstem'
        cases h
        rfl
      | cons p stem =>
        cases hstem'
        cases h
        rfl
    refine ⟨c'', ?_, hfirst ▸ hstem', hq.append (hcircle.congr hkept), fun p hp => ?_,
      hturned'.car.trans hturned.car⟩
    · have hrounds : (stem ++ q :: loop).length + stem.length + 2 =
          1 + (q :: stem.reverse).length + (stem ++ q :: loop).length := by
        rw [length_cons, length_reverse]
        omega
      rw [nreverse, hrounds, hloop, hloop', ← hfirst]
      exact if_pos rfl
    · have hother : p ∉ q :: stem.reverse := by
        intro hmem
        refine hp ?_
        rcases List.mem_cons.mp hmem with rfl | hmem
        · exact mem_append_right _ (mem_cons_self ..)
        · exact mem_append_left _ (List.mem_reverse.mp hmem)
      exact (hturned'.others p hother).trans (hturned.others p hp)

/-- Three cells, of which the last leads to the second. -/
def circularCells : Cells ℕ where
  car p := p
  cdr p := if p = 2 then .cell 1 else .cell (p + 1)
  next := 3

/-- The circle of two cells is turned round. -/
theorem nreverse_circularCells : Nreversed 0 circularCells (.cell 0) [0, 1, 2] (.cell 1) :=
  nreverse_spec 0 (.cons (.cons (.cons .nil))) (by decide)

end XEmacs.Lists
