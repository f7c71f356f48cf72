import Mathlib.Data.List.Chain
import Mathlib.Data.List.Sort
import Mathlib.Order.Lex

/-!
# Tag sets

A tag set of a specifier (`specifier.c`) is a list of symbols. `canonicalize_tag_set` sorts it by
the names of the symbols and takes out a tag that is the same as the one before it.
-/

namespace XEmacs.Specifier

open List

variable {Tag : Type*} (symbolName : Tag → List ℕ)

/-! ## The source's functions -/

/-- The name of a symbol as `strcmp` reads it, up to the first zero byte. -/
def cString (tag : Tag) : List ℕ := (symbolName tag).takeWhile (· ≠ 0)

/-- The inner loop of the sort: a tag changes places with the ones before it, nearest first, while
`strcmp` finds them greater. -/
def sinkTag (tag : Tag) : List Tag → List Tag
  | [] => [tag]
  | t :: before =>
    if cString symbolName tag < cString symbolName t then t :: sinkTag tag before
    else tag :: t :: before

/-- The sort; the loop has the sorted tags before it, which are listed last one first. -/
def sortTags (tags : List Tag) : List Tag :=
  (tags.foldl (fun before tag => sinkTag symbolName tag before) []).reverse

section

variable [DecidableEq Tag]

/-- The tags after `prev` that are not the same as the one before them. -/
def withoutRepeats (prev : Tag) : List Tag → List Tag
  | [] => []
  | t :: rest => if t = prev then withoutRepeats t rest else t :: withoutRepeats t rest

/-- The elimination of duplicates. -/
def eliminateDuplicates : List Tag → List Tag
  | [] => []
  | t :: rest => t :: withoutRepeats t rest

def canonicalizeTagSet (tagSet : List Tag) : List Tag :=
  if tagSet.length ≤ 1 then tagSet
  else eliminateDuplicates (sortTags symbolName tagSet)

/-- `tag_sets_match_p` without EXACT_P: the loop that looks for the tags of `a` in `b`. -/
def tagSetIncluded : List Tag → List Tag → Bool
  | [], _ => true
  | _ :: _, [] => false
  | x :: a, y :: b => if x = y then tagSetIncluded a b else tagSetIncluded (x :: a) b

def tagSetsMatchP (a b : List Tag) (exactP : Bool) : Bool :=
  if exactP then a = b else tagSetIncluded a b

@[simp]
theorem tagSetsMatchP_nil (b : List Tag) : tagSetsMatchP [] b false = true := by
  cases b <;> rfl

end

/-! ## The order of the sort -/

/-- Sorted by the names of the symbols. -/
def SortedByName (tags : List Tag) : Prop :=
  tags.Pairwise fun a b => cString symbolName a ≤ cString symbolName b

variable {symbolName}

theorem sinkTag_eq (tag : Tag) (before : List Tag) :
    sinkTag symbolName tag before =
      before.orderedInsert (fun a b => cString symbolName b ≤ cString symbolName a) tag := by
  induction before with
  | nil => rfl
  | cons t before ih =>
    rw [sinkTag, orderedInsert_cons, ih]
    split_ifs with hlt hle hle
    · exact absurd hlt (not_lt.mpr hle)
    · rfl
    · rfl
    · exact absurd (not_le.mp hle) hlt

theorem sortTags_eq (tags : List Tag) :
    sortTags symbolName tags = (tags.reverse.insertionSort
      fun a b => cString symbolName b ≤ cString symbolName a).reverse := by
  have hsink : sinkTag symbolName =
      List.orderedInsert fun a b => cString symbolName b ≤ cString symbolName a :=
    funext fun tag => funext (sinkTag_eq tag)
  rw [sortTags, ← foldr_reverse, hsink, List.insertionSort]

theorem sortTags_sorted (tags : List Tag) : SortedByName symbolName (sortTags symbolName tags) := by
  rw [sortTags_eq, SortedByName, pairwise_reverse]
  have htotal : Std.Total fun a b : Tag => cString symbolName b ≤ cString symbolName a :=
    ⟨fun a b => le_total _ _⟩
  have htrans : IsTrans Tag fun a b => cString symbolName b ≤ cString symbolName a :=
    ⟨fun a b c hab hbc => hbc.trans hab⟩
  exact pairwise_insertionSort _ _

theorem filter_sinkTag (name : List ℕ) (tag : Tag) (before : List Tag) :
    (sinkTag symbolName tag before).filter (cString symbolName · = name) =
      (tag :: before).filter (cString symbolName · = name) := by
  induction before with
  | nil => rfl
  | cons t before ih =>
    rw [sinkTag]
    split_ifs with hlt
    · rw [filter_cons, ih]
      by_cases ht : cString symbolName t = name
      · have htag : cString symbolName tag ≠ name := ht ▸ hlt.ne
        simp [ht, htag]
      · simp [filter_cons, ht]
    · rfl

theorem filter_sortTags (name : List ℕ) (tags : List Tag) :
    (sortTags symbolName tags).filter (cString symbolName · = name) =
      tags.filter (cString symbolName · = name) := by
  rw [sortTags, ← foldr_reverse, filter_reverse, reverse_eq_iff,
    ← filter_reverse]
  induction tags.reverse with
  | nil => rfl
  | cons tag tags ih => rw [foldr_cons, filter_sinkTag, filter_cons, ih, filter_cons]

theorem sublist_sortTags_iff {name : List ℕ} {part tags : List Tag}
    (hpart : ∀ t ∈ part, cString symbolName t = name) :
    part.Sublist (sortTags symbolName tags) ↔ part.Sublist tags := by
  have hfilter : part.filter (cString symbolName · = name) = part :=
    List.filter_eq_self.mpr fun t ht => decide_eq_true (hpart t ht)
  constructor
  · intro h
    have h' := h.filter (cString symbolName · = name)
    rw [hfilter, filter_sortTags] at h'
    exact h'.trans filter_sublist
  · intro h
    have h' := h.filter (cString symbolName · = name)
    rw [hfilter, ← filter_sortTags] at h'
    exact h'.trans filter_sublist

/-! ## The elimination of duplicates -/

variable [DecidableEq Tag]

theorem withoutRepeats_sublist (prev : Tag) (tags : List Tag) :
    (withoutRepeats prev tags).Sublist tags := by
  induction tags generalizing prev with
  | nil => exact List.Sublist.slnil
  | cons t tags ih =>
    rw [withoutRepeats]
    split_ifs
    · exact (ih t).cons t
    · exact (ih t).cons_cons t

theorem isChain_withoutRepeats (prev : Tag) (tags : List Tag) :
    (prev :: withoutRepeats prev tags).IsChain (· ≠ ·) := by
  induction tags generalizing prev with
  | nil => exact isChain_singleton prev
  | cons t tags ih =>
    rw [withoutRepeats]
    split_ifs with ht
    · rw [← ht]
      exact ih t
    · exact List.isChain_cons_cons.mpr ⟨Ne.symm ht, ih t⟩

theorem sublist_withoutRepeats {part tags : List Tag} {prev : Tag}
    (h : (prev :: part).IsChain (· ≠ ·)) (hpart : part.Sublist tags) :
    part.Sublist (withoutRepeats prev tags) := by
  induction tags generalizing prev part with
  | nil => exact hpart
  | cons t tags ih =>
    rw [withoutRepeats]
    cases hpart with
    | cons _ hpart =>
      split_ifs with ht
      · exact ih (ht ▸ h) hpart
      · cases part with
        | nil => exact nil_sublist _
        | cons a part =>
          by_cases hta : t = a
          · subst hta
            exact (ih (List.IsChain.tail h) ((sublist_cons_self _ _).trans hpart)).cons_cons t
          · have hchain : (t :: a :: part).IsChain (· ≠ ·) :=
              List.isChain_cons_cons.mpr ⟨hta, h.tail⟩
            exact (ih hchain hpart).cons t
    | cons_cons _ hpart =>
      obtain ⟨hne, htail⟩ := List.isChain_cons_cons.mp h
      rw [if_neg (Ne.symm hne)]
      exact (ih htail hpart).cons_cons t

/-! ## Canonical tag sets -/

variable (symbolName) in
/-- What `canonicalize_tag_set` makes: sorted by name, no tag the same as the one before it. -/
structure Canonical (tags : List Tag) : Prop where
  sorted : SortedByName symbolName tags
  chain : tags.IsChain (· ≠ ·)

omit [DecidableEq Tag] in
theorem canonical_of_length_le_one {tags : List Tag} (h : tags.length ≤ 1) :
    Canonical symbolName tags := by
  obtain _ | ⟨t, _ | ⟨_, _⟩⟩ := tags
  · exact ⟨List.Pairwise.nil, isChain_nil⟩
  · exact ⟨pairwise_singleton _ t, isChain_singleton t⟩
  · simp at h

theorem eliminateDuplicates_sublist (tags : List Tag) : (eliminateDuplicates tags).Sublist tags := by
  cases tags with
  | nil => exact List.Sublist.slnil
  | cons t tags => exact (withoutRepeats_sublist t tags).cons_cons t

theorem canonical_canonicalizeTagSet (tags : List Tag) :
    Canonical symbolName (canonicalizeTagSet symbolName tags) := by
  rw [canonicalizeTagSet]
  split_ifs with hlen
  · exact canonical_of_length_le_one hlen
  · refine ⟨(sortTags_sorted tags).sublist (eliminateDuplicates_sublist _), ?_⟩
    cases sortTags symbolName tags with
    | nil => exact isChain_nil
    | cons t rest => exact isChain_withoutRepeats t rest

variable (symbolName) in
/-- No tag stands on both sides of another one that `strcmp` takes for the same. -/
def Distinguished (tags : List Tag) : Prop :=
  ∀ a b, a ≠ b → cString symbolName a = cString symbolName b → ¬ [a, b, a].Sublist tags

omit [DecidableEq Tag] in
theorem Distinguished.of_injective (h : Function.Injective (cString symbolName))
    (tags : List Tag) : Distinguished symbolName tags :=
  fun _ _ hne hname => absurd (h hname) hne

omit [DecidableEq Tag] in
theorem exists_between {a : Tag} {tags : List Tag} (h : tags.IsChain (· ≠ ·))
    (hdup : [a, a].Sublist tags) : ∃ b, a ≠ b ∧ [a, b, a].Sublist tags := by
  induction tags with
  | nil => cases hdup
  | cons t tags ih =>
    cases hdup with
    | cons _ hdup =>
      obtain ⟨b, hne, hsub⟩ := ih h.tail hdup
      exact ⟨b, hne, hsub.cons t⟩
    | cons_cons _ hdup =>
      cases tags with
      | nil => cases hdup
      | cons b tags =>
        have hne : a ≠ b := (List.isChain_cons_cons.mp h).1
        have hmem : a ∈ tags := mem_of_ne_of_mem hne (List.singleton_sublist.mp hdup)
        exact ⟨b, hne, ((List.singleton_sublist.mpr hmem).cons_cons b).cons_cons a⟩

omit [DecidableEq Tag] in
theorem Canonical.nodup_iff {tags : List Tag} (h : Canonical symbolName tags) :
    tags.Nodup ↔ Distinguished symbolName tags := by
  constructor
  · intro hnodup a b _ _ hsub
    have := hnodup.sublist hsub
    simp at this
  · intro hdist
    rw [nodup_iff_sublist]
    intro a hdup
    obtain ⟨b, hne, hsub⟩ := exists_between h.chain hdup
    have hsorted : [a, b, a].Pairwise fun a b => cString symbolName a ≤ cString symbolName b :=
      h.sorted.sublist hsub
    simp only [pairwise_cons, mem_cons, not_mem_nil] at hsorted
    refine hdist a b hne (le_antisymm (hsorted.1 b (by simp)) (hsorted.2.1 a (by simp))) hsub

theorem distinguished_canonicalizeTagSet {tags : List Tag} (h : Distinguished symbolName tags) :
    Distinguished symbolName (canonicalizeTagSet symbolName tags) := by
  intro a b hne hname hsub
  refine h a b hne hname ?_
  rw [canonicalizeTagSet] at hsub
  split_ifs at hsub
  · exact hsub
  · have hnames : ∀ t ∈ [a, b, a], cString symbolName t = cString symbolName a := by
      simp [hname]
    exact (sublist_sortTags_iff hnames).mp (hsub.trans (eliminateDuplicates_sublist _))

/-- **Canonicalizing** leaves no duplicates exactly if no other tag with the same name keeps two
equal ones apart. -/
theorem nodup_canonicalizeTagSet_iff (tags : List Tag) :
    (canonicalizeTagSet symbolName tags).Nodup ↔ Distinguished symbolName tags := by
  rw [(canonical_canonicalizeTagSet tags).nodup_iff]
  refine ⟨fun h a b hne hname hsub => h a b hne hname ?_, distinguished_canonicalizeTagSet⟩
  have hnames : ∀ t ∈ [a, b, a], cString symbolName t = cString symbolName a := by
    simp [hname]
  rw [canonicalizeTagSet]
  split_ifs
  · exact hsub
  · have hsub' := (sublist_sortTags_iff hnames).mpr hsub
    cases hsort : sortTags symbolName tags with
    | nil =>
      rw [hsort] at hsub'
      cases hsub'
    | cons t rest =>
      rw [hsort] at hsub'
      have hchain : [a, b, a].IsChain (· ≠ ·) := by simp [hne, hne.symm]
      rw [eliminateDuplicates]
      cases hsub' with
      | cons _ hsub' =>
        by_cases ht : t = a
        · subst ht
          exact ((sublist_withoutRepeats hchain
            ((sublist_cons_self _ _).trans hsub'))).cons_cons t
        · have hchain' : [t, a, b, a].IsChain (· ≠ ·) := List.isChain_cons_cons.mpr ⟨ht, hchain⟩
          exact (sublist_withoutRepeats hchain' hsub').cons t
      | cons_cons _ hsub' => exact (sublist_withoutRepeats hchain hsub').cons_cons a

end XEmacs.Specifier
