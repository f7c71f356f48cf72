import Mathlib.Data.List.Nodup

/-!
# Lists of entries of which the first one counts

A list of entries with keys is a map: the value of a key is its first entry. `firsts` keeps these
entries and drops the ones behind them.
-/

namespace FirstEntries

open List

variable {ε κ : Type*} [DecidableEq κ] (key : ε → κ)

/-- The first entry with a key. -/
def first (es : List ε) (k : κ) : Option ε := es.find? fun e => key e = k

/-- The entries that have another key. -/
def without (es : List ε) (k : κ) : List ε := es.filter fun e => !decide (key e = k)

/-- The first entry of each key. -/
def firsts : List ε → List ε
  | [] => []
  | e :: es => e :: firsts (without key es (key e))
termination_by es => es.length
decreasing_by exact Nat.lt_succ_of_le (length_filter_le _ _)

variable {key} {es : List ε} {e : ε} {k k' : κ}

theorem first_cons_self : first key (e :: es) (key e) = some e := by
  have hself : decide (key e = key e) = true := decide_eq_true rfl
  exact find?_cons_of_pos hself

theorem first_cons_of_ne (h : key e ≠ k) : first key (e :: es) k = first key es k := by
  rw [first, find?_cons_of_neg (by rwa [decide_eq_true_eq])]
  rfl

theorem first_without (h : k ≠ k') : first key (without key es k') k = first key es k := by
  rw [first, without, find?_filter]
  congr 1
  funext e
  by_cases he : key e = k
  · simp [he, h]
  · simp [he]

theorem first_eq_none_iff : first key es k = none ↔ ∀ e ∈ es, key e ≠ k := by
  rw [first, find?_eq_none]
  simp only [decide_eq_true_eq, ne_eq]

theorem key_of_first (h : first key es k = some e) : key e = k ∧ e ∈ es :=
  ⟨of_decide_eq_true (find?_some h :), mem_of_find?_eq_some h⟩

variable (key) in
theorem exists_first (h : e ∈ es) : ∃ e', first key es (key e) = some e' := by
  cases hfirst : first key es (key e) with
  | none => exact absurd rfl (first_eq_none_iff.mp hfirst e h)
  | some e' => exact ⟨e', rfl⟩

theorem first_append (es es' : List ε) (k : κ) :
    first key (es ++ es') k = (first key es k).or (first key es' k) := find?_append

theorem mem_without : e ∈ without key es k ↔ e ∈ es ∧ key e ≠ k := by
  rw [without, mem_filter]
  simp

theorem mem_of_mem_firsts (h : e ∈ firsts key es) : e ∈ es := by
  induction es using firsts.induct key with
  | case1 =>
    rw [firsts] at h
    exact h
  | case2 e' es ih =>
    rw [firsts] at h
    obtain rfl | h := List.mem_cons.mp h
    · exact mem_cons_self ..
    · exact mem_cons_of_mem e' (mem_without.mp (ih h)).1

theorem first_of_mem_firsts (h : e ∈ firsts key es) : first key es (key e) = some e := by
  induction es using firsts.induct key with
  | case1 =>
    rw [firsts] at h
    exact absurd h not_mem_nil
  | case2 e' es ih =>
    rw [firsts] at h
    obtain rfl | h := List.mem_cons.mp h
    · exact first_cons_self
    · have hne := (mem_without.mp (mem_of_mem_firsts h)).2
      rw [first_cons_of_ne fun heq => hne heq.symm, ← first_without hne, ih h]

theorem firsts_nodup (es : List ε) : ((firsts key es).map key).Nodup := by
  induction es using firsts.induct key with
  | case1 =>
    rw [firsts]
    exact nodup_nil
  | case2 e es ih =>
    rw [firsts, map_cons, nodup_cons]
    refine ⟨fun hmem => ?_, ih⟩
    obtain ⟨e', he', heq⟩ := List.mem_map.mp hmem
    exact (mem_without.mp (mem_of_mem_firsts he')).2 heq

end FirstEntries
