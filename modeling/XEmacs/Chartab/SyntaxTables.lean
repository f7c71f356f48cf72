import XEmacs.Lib.Chains
import Mathlib.Data.List.DropRight
import Mathlib.Data.Fintype.Card
import Mathlib.Data.Fin.VecNotation

/-!
# The chain of syntax tables

The syntax tables are on a chain (`Vall_syntax_tables`, `next_table`) through which no object is
marked. When an object can be collected, `prune_syntax_tables` is to cut it out of the chain.
-/

namespace XEmacs.Chartab

open Chains List

/-- The syntax tables: `Vall_syntax_tables` and the field `next_table` of each table. -/
structure SyntaxTables (ι : Type*) where
  allSyntaxTables : Option ι
  nextTable : ι → Option ι

namespace SyntaxTables

variable {ι : Type*} [DecidableEq ι]

/-- The tables `l` are what the chain leads through. -/
def Tables (tables : SyntaxTables ι) (l : List ι) : Prop :=
  Chain tables.nextTable tables.allSyntaxTables l

/-- The loop of `prune_syntax_tables`. `fuel` bounds the number of tables. -/
def pruneLoop (markedP : ι → Bool) (prev : Option ι) :
    Nat → Option ι → SyntaxTables ι → SyntaxTables ι
  | 0, _, tables => tables
  | _ + 1, none, tables => tables
  | fuel + 1, some rest, tables =>
    let tables' :=
      if !markedP rest then
        match prev with
        | none => { tables with allSyntaxTables := tables.nextTable rest }
        | some prev =>
          { tables with
            nextTable := Function.update tables.nextTable prev (tables.nextTable rest) }
      else tables
    pruneLoop markedP prev fuel (tables'.nextTable rest) tables'

def pruneSyntaxTables [Fintype ι] (markedP : ι → Bool) (tables : SyntaxTables ι) :
    SyntaxTables ι :=
  pruneLoop markedP none (Fintype.card ι + 1) tables.allSyntaxTables tables

section Loop

variable {markedP : ι → Bool} {tables : SyntaxTables ι} {rest : ι} {fuel : Nat}

theorem pruneLoop_marked (hrest : markedP rest = true) :
    pruneLoop markedP none (fuel + 1) (some rest) tables =
      pruneLoop markedP none fuel (tables.nextTable rest) tables := by
  simp only [pruneLoop, hrest, Bool.not_true, Bool.false_eq_true, if_false]

theorem pruneLoop_unmarked (hrest : markedP rest = false) :
    pruneLoop markedP none (fuel + 1) (some rest) tables =
      pruneLoop markedP none fuel (tables.nextTable rest)
        { tables with allSyntaxTables := tables.nextTable rest } := by
  simp only [pruneLoop, hrest, Bool.not_false, if_true]

omit [DecidableEq ι] in
theorem rtakeWhile_after {l₁ l₂ : List ι} (hrest : markedP rest = false) :
    (l₁ ++ rest :: l₂).rtakeWhile markedP = l₂.rtakeWhile markedP := by
  induction l₂ using List.reverseRecOn with
  | nil =>
    rw [rtakeWhile_concat_neg markedP l₁ rest (by simp [hrest]), rtakeWhile_nil]
  | append_singleton l₂ last ih =>
    have hassoc : l₁ ++ rest :: (l₂ ++ [last]) = (l₁ ++ rest :: l₂) ++ [last] := by
      rw [append_assoc, cons_append]
    rw [hassoc, rtakeWhile_concat, rtakeWhile_concat, ih]

theorem pruneLoop_tables {since l : List ι} {next : Option ι}
    (hnext : Chain tables.nextTable next l) (hall : tables.Tables (since ++ l))
    (hsince : ∀ table ∈ since, markedP table = true) (hfuel : l.length < fuel) :
    (pruneLoop markedP none fuel next tables).Tables ((since ++ l).rtakeWhile markedP) := by
  induction l generalizing since next tables fuel with
  | nil =>
    obtain ⟨fuel, rfl⟩ := Nat.exists_eq_add_of_lt hfuel
    cases hnext
    rw [append_nil] at hall ⊢
    rw [List.rtakeWhile_eq_self_iff.mpr hsince, pruneLoop]
    exact hall
  | cons rest l ih =>
    obtain ⟨fuel, rfl⟩ := Nat.exists_eq_add_of_lt hfuel
    rw [length_cons]
    cases hnext with
    | cons htail =>
      cases hrest : markedP rest with
      | true =>
        have happend : since ++ rest :: l = (since ++ [rest]) ++ l := by
          rw [append_assoc, singleton_append]
        rw [pruneLoop_marked hrest, happend]
        refine ih htail (happend ▸ hall) ?_ (by omega)
        intro table htable
        obtain htable | htable := List.mem_append.mp htable
        · exact hsince table htable
        · exact List.mem_singleton.mp htable ▸ hrest
      | false =>
        rw [pruneLoop_unmarked hrest, rtakeWhile_after hrest]
        let tables' : SyntaxTables ι := { tables with allSyntaxTables := tables.nextTable rest }
        have hnext' : Chain tables'.nextTable (tables.nextTable rest) l := htail
        have hall' : tables'.Tables ([] ++ l) := htail
        have hnone : ∀ table ∈ ([] : List ι), markedP table = true :=
          fun _ hmem => absurd hmem not_mem_nil
        exact ih hnext' hall' hnone (by omega)

end Loop

variable [Fintype ι] {tables : SyntaxTables ι} {l : List ι}

theorem pruneSyntaxTables_tables (markedP : ι → Bool) (hl : tables.Tables l) :
    (pruneSyntaxTables markedP tables).Tables (l.rtakeWhile markedP) := by
  have hlength : l.length ≤ Fintype.card ι := hl.nodup.length_le_card
  have hnone : ∀ table ∈ ([] : List ι), markedP table = true :=
    fun _ hmem => absurd hmem not_mem_nil
  have hall : tables.Tables ([] ++ l) := hl
  exact pruneLoop_tables hl hall hnone (Nat.lt_succ_of_le hlength)

omit [DecidableEq ι] [Fintype ι] in
theorem rtakeWhile_eq_filter_iff {markedP : ι → Bool} :
    l.rtakeWhile markedP = l.filter markedP ↔
      l.Pairwise fun before after => markedP before = true → markedP after = true := by
  induction l using List.reverseRecOn with
  | nil => simp
  | append_singleton l last ih =>
    rw [rtakeWhile_concat, List.filter_append, pairwise_append]
    cases hlast : markedP last with
    | true => simp [hlast, ih]
    | false =>
      have hnone : [] = l.filter markedP ↔ ∀ before ∈ l, markedP before = false := by
        rw [eq_comm, filter_eq_nil_iff]
        simp
      simp only [hlast, Bool.false_eq_true, if_false, filter_cons_of_neg, not_false_eq_true,
        filter_nil, append_nil, hnone, mem_singleton, forall_eq]
      constructor
      · intro hdead
        have hvacuous : ∀ a ∈ l, ∀ P : Prop, markedP a = true → P := fun a ha P hmark => by
          rw [hdead a ha] at hmark
          cases hmark
        refine ⟨?_, pairwise_singleton _ _, fun a ha => hvacuous a ha _⟩
        exact pairwise_of_forall_mem_list fun a ha b _ => hvacuous a ha _
      · rintro ⟨-, -, hcross⟩ a ha
        exact Bool.eq_false_iff.mpr (hcross a ha)

/-- The chain is left with the marked tables, in their order, just when no table that is
not marked comes after one that is. -/
theorem pruneSyntaxTables_keepsMarked_iff (markedP : ι → Bool) (hl : tables.Tables l) :
    (pruneSyntaxTables markedP tables).Tables (l.filter markedP) ↔
      l.Pairwise fun before after => markedP before = true → markedP after = true := by
  rw [← rtakeWhile_eq_filter_iff]
  have hleft := pruneSyntaxTables_tables markedP hl
  constructor
  · intro hfilter
    exact hleft.unique hfilter
  · intro heq
    rw [← heq]
    exact hleft

theorem pruneSyntaxTables_keepsMarked_firstDead :
    (pruneSyntaxTables (fun table : Fin 2 => table = 1) ⟨some 0, ![some 1, none]⟩).Tables
      ([0, 1].filter fun table : Fin 2 => table = 1) :=
  have hl : Tables ⟨some 0, ![some 1, none]⟩ [0, 1] := .cons (.cons .nil)
  (pruneSyntaxTables_keepsMarked_iff _ hl).mpr (by decide)

/-- Of a table that stays and one that goes, neither is left. -/
theorem pruneSyntaxTables_lastDead :
    ¬ (pruneSyntaxTables (fun table : Fin 2 => table = 0) ⟨some 0, ![some 1, none]⟩).Tables
      ([0, 1].filter fun table : Fin 2 => table = 0) := by
  intro hkept
  have hall : (pruneSyntaxTables (fun table : Fin 2 => table = 0)
      ⟨some 0, ![some 1, none]⟩).allSyntaxTables = none := by decide
  rw [Tables, hall] at hkept
  cases hkept

end SyntaxTables

end XEmacs.Chartab
