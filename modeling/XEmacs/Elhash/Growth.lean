import XEmacs.Elhash.Operations
import XEmacs.Lib.Runs
import Mathlib.Tactic.IntervalCases
import Mathlib.Tactic.NormNum

/-!
# Growth of hash tables

When a table made by `make-hash-table` fills up. The table is enlarged by the `puthash` that
brings `count` up to `rehash_count`, to `hash_table_size` of the product of its size and
`rehash_size`.
-/

namespace XEmacs.Elhash

open LinearProbing Runs

variable {K V : Type} [DecidableEq K]

/-! ## The table of primes -/

/-- The index of the last prime. -/
def lastPrime : Nat := 70

theorem primes_length : primes.length = lastPrime + 1 := by decide

theorem prime_lt_succ : ∀ k < lastPrime, prime k < prime (k + 1) := by decide

theorem prime_lt {i j : Nat} (hij : i < j) (hj : j ≤ lastPrime) : prime i < prime j := by
  induction j with
  | zero => omega
  | succ j ih =>
    have hstep := prime_lt_succ j (by omega)
    rcases Nat.lt_succ_iff_lt_or_eq.mp hij with hlt | rfl
    · exact (ih hlt (by omega)).trans hstep
    · exact hstep

theorem lt_of_prime_lt {i j : Nat} (hi : i ≤ lastPrime) (h : prime i < prime j) :
    i < j := by
  by_contra hle
  rcases Nat.lt_or_eq_of_le (not_lt.mp hle) with hlt | rfl
  · exact absurd (prime_lt hlt hi) (by omega)
  · exact lt_irrefl _ h

theorem prime_succ_ge : ∀ k < lastPrime, 11 * prime k ≤ 10 * prime (k + 1) := by decide

theorem searchPrimes_spec (requestedSize : Nat) : ∀ fuel low high : Nat,
    high - low ≤ fuel → low < high → high ≤ lastPrime →
    (low = 0 ∨ prime low < requestedSize) →
    (high = lastPrime ∨ requestedSize ≤ prime high) →
    ∃ k, searchPrimes requestedSize fuel low high = k ∧ 1 ≤ k ∧ k ≤ lastPrime ∧
      (k = 1 ∨ prime (k - 1) < requestedSize) ∧
      (k = lastPrime ∨ requestedSize ≤ prime k) := by
  intro fuel
  induction fuel with
  | zero => intro low high hfuel hlt; omega
  | succ fuel ih =>
    intro low high hfuel hlt hhigh hlow htop
    unfold searchPrimes
    by_cases hgap : high - low > 1
    · rw [if_pos hgap]
      simp only
      split
      case isTrue hmid =>
        exact ih _ high (by omega) (by omega) hhigh (Or.inr hmid) htop
      case isFalse hmid =>
        exact ih low _ (by omega) (by omega) (by omega) hlow (Or.inr (by omega))
    · rw [if_neg hgap]
      refine ⟨high, rfl, by omega, hhigh, ?_, htop⟩
      have : high - 1 = low := by omega
      rw [this]
      rcases hlow with rfl | hlow
      · exact Or.inl (by omega)
      · exact Or.inr hlow

theorem hashTableSize_spec (requestedSize : Nat) :
    ∃ k, hashTableSize requestedSize = prime k ∧ 1 ≤ k ∧ k ≤ lastPrime ∧
      (k = 1 ∨ prime (k - 1) < requestedSize) ∧
      (k = lastPrime ∨ requestedSize ≤ prime k) := by
  have hlen : primes.length - 1 = lastPrime := by rw [primes_length]; rfl
  obtain ⟨k, hk, h⟩ := searchPrimes_spec requestedSize primes.length 0 (primes.length - 1)
    (by omega) (by rw [hlen]; decide) (by rw [hlen]) (Or.inl rfl) (Or.inl hlen)
  exact ⟨k, by rw [hashTableSize, hk], h⟩

theorem hashTableSize_prime {k : Nat} (hk : 1 ≤ k) (hk' : k ≤ lastPrime) :
    hashTableSize (prime k) = prime k := by
  obtain ⟨j, hj, hj1, hj', hbelow, habove⟩ := hashTableSize_spec (prime k)
  have hle : j ≤ k := by
    rcases hbelow with rfl | hbelow
    · exact hk
    · have := lt_of_prime_lt (by omega) hbelow
      omega
  have hge : k ≤ j := by
    rcases habove with rfl | habove
    · exact hk'
    · by_contra hlt
      exact absurd (prime_lt (not_le.mp hlt) hk') (by omega)
  rw [hj, le_antisymm hle hge]

theorem hashTableSize_of_prime_lt {k r : Nat} (hk : k < lastPrime) (hr : prime k < r) :
    prime (k + 1) ≤ hashTableSize r := by
  obtain ⟨j, hj, -, hj', -, habove⟩ := hashTableSize_spec r
  have hlt : k < j := by
    rcases habove with rfl | habove
    · exact hk
    · exact lt_of_prime_lt hk.le (hr.trans_le habove)
  rw [hj]
  rcases Nat.lt_or_eq_of_le (Nat.succ_le_of_lt hlt) with h | rfl
  · exact (prime_lt h hj').le
  · exact le_refl _

theorem hashTableSize_of_lastPrime_le {r : Nat} (hr : prime lastPrime ≤ r) :
    hashTableSize r = prime lastPrime := by
  obtain ⟨j, hj, -, hj', -, habove⟩ := hashTableSize_spec r
  rcases habove with rfl | habove
  · exact hj
  · rcases Nat.lt_or_eq_of_le hj' with hlt | rfl
    · exact absurd (prime_lt hlt (le_refl _)) (by omega)
    · exact hj

/-! ## Truncated products -/

theorem sizeOfDouble_le {x : ℚ} (hx : 0 ≤ x) : (sizeOfDouble x : ℚ) ≤ x := by
  have hfloor : 0 ≤ ⌊x⌋ := Int.floor_nonneg.mpr hx
  have h := Int.floor_le x
  rw [← Int.toNat_of_nonneg hfloor] at h
  exact_mod_cast h

theorem le_sizeOfDouble {x : ℚ} {n : Nat} (h : (n : ℚ) ≤ x) : n ≤ sizeOfDouble x := by
  have hfloor : (n : Int) ≤ ⌊x⌋ := Int.le_floor.mpr (by exact_mod_cast h)
  show n ≤ Int.toNat ⌊x⌋
  omega

theorem lt_sizeOfDouble_add_one (x : ℚ) : x < (sizeOfDouble x : ℚ) + 1 := by
  have h := Int.lt_floor_add_one x
  have hle : ⌊x⌋ ≤ ((sizeOfDouble x : Nat) : Int) := Int.self_le_toNat _
  have hcast : (⌊x⌋ : ℚ) ≤ ((sizeOfDouble x : Nat) : ℚ) := by exact_mod_cast hle
  linarith

/-! ## The sizes of a table -/

/-- What holds of the sizes of a table made by `make-hash-table`, however often it
was enlarged. -/
structure Sized (ht : LispHashTable K V) : Prop where
  size_prime : ∃ k, 1 ≤ k ∧ k ≤ lastPrime ∧ ht.size = prime k
  rehashCount_eq : ht.rehashCount = sizeOfDouble (ht.size * ht.rehashThreshold)
  one_lt_rehashSize : 1 < ht.rehashSize
  threshold_pos : 0 < ht.rehashThreshold
  threshold_lt : ht.rehashThreshold < 1
  ten_le : 10 ≤ ht.size * ht.rehashThreshold ∨ ht.size = prime lastPrime

/-- A table that `enlarge_hash_table` does not make larger: the largest one, or one
whose size times `rehash_size` is truncated to its size. -/
def LispHashTable.Stuck (ht : LispHashTable K V) : Prop :=
  ht.size = prime lastPrime ∨ ht.size * ht.rehashSize < ht.size + 1

section Sized

variable {ht : LispHashTable K V}

omit [DecidableEq K]

theorem Sized.size_pos (h : Sized ht) : 0 < ht.size := by
  obtain ⟨k, hk, hk', hsize⟩ := h.size_prime
  have := prime_lt hk hk'
  omega

theorem Sized.rehashCount_lt (h : Sized ht) : ht.rehashCount < ht.size := by
  have hpos : (0 : ℚ) < ht.size := by exact_mod_cast h.size_pos
  have hnonneg : 0 ≤ ht.size * ht.rehashThreshold :=
    mul_nonneg hpos.le h.threshold_pos.le
  have hle := sizeOfDouble_le hnonneg
  rw [← h.rehashCount_eq] at hle
  have hlt : (ht.size : ℚ) * ht.rehashThreshold < ht.size := by
    have := mul_lt_mul_of_pos_left h.threshold_lt hpos
    rwa [mul_one] at this
  exact_mod_cast hle.trans_lt hlt

theorem Sized.size_le_product (h : Sized ht) : (ht.size : ℚ) ≤ ht.size * ht.rehashSize := by
  have hpos : (0 : ℚ) < ht.size := by exact_mod_cast h.size_pos
  have := mul_lt_mul_of_pos_left h.one_lt_rehashSize hpos
  rw [mul_one] at this
  exact this.le

theorem Sized.enlargedSize_of_stuck (h : Sized ht) (hstuck : ht.Stuck) :
    ht.enlargedSize = ht.size := by
  obtain ⟨k, hk, hk', hsize⟩ := h.size_prime
  have hge := le_sizeOfDouble h.size_le_product
  rw [LispHashTable.enlargedSize]
  rcases hstuck with hlast | hsmall
  · rw [hashTableSize_of_lastPrime_le (hlast ▸ hge), hlast]
  · have hle := sizeOfDouble_le ((Nat.cast_nonneg _).trans h.size_le_product)
    have hlt : sizeOfDouble (ht.size * ht.rehashSize) < ht.size + 1 := by
      exact_mod_cast hle.trans_lt hsmall
    have heq : sizeOfDouble (ht.size * ht.rehashSize) = ht.size := by omega
    rw [heq, hsize, hashTableSize_prime hk hk']

theorem Sized.enlargedSize_of_not_stuck (h : Sized ht) (hstuck : ¬ ht.Stuck) :
    (ht.size : ℚ) * ht.rehashThreshold + 1 ≤ ht.enlargedSize * ht.rehashThreshold := by
  obtain ⟨k, hk, hk', hsize⟩ := h.size_prime
  obtain ⟨hlast, hlarge⟩ := not_or.mp hstuck
  have hklt : k < lastPrime := by
    rcases Nat.lt_or_eq_of_le hk' with hlt | rfl
    · exact hlt
    · exact absurd hsize hlast
  have hproduct : prime k < sizeOfDouble (ht.size * ht.rehashSize) := by
    have hle : ((ht.size + 1 : Nat) : ℚ) ≤ ht.size * ht.rehashSize := by
      push_cast
      exact not_lt.mp hlarge
    have := le_sizeOfDouble hle
    omega
  have hnext : 11 * ht.size ≤ 10 * ht.enlargedSize := by
    have hle := hashTableSize_of_prime_lt hklt hproduct
    have hgrow := prime_succ_ge k hklt
    rw [← hsize] at hgrow
    rw [LispHashTable.enlargedSize]
    omega
  have hten := h.ten_le.resolve_right hlast
  have hnext' : (11 : ℚ) * ht.size ≤ 10 * ht.enlargedSize := by exact_mod_cast hnext
  have := mul_le_mul_of_nonneg_right hnext' h.threshold_pos.le
  linarith

theorem Sized.enlarge (h : Sized ht) {ht' : LispHashTable K V}
    (hsize : ht'.size = ht.enlargedSize) (hrs : ht'.rehashSize = ht.rehashSize)
    (hrt : ht'.rehashThreshold = ht.rehashThreshold)
    (hrc : ht'.rehashCount = sizeOfDouble (ht.enlargedSize * ht.rehashThreshold)) :
    Sized ht' := by
  obtain ⟨k, hk, hk1, hk', -⟩ :=
    hashTableSize_spec (sizeOfDouble (ht.size * ht.rehashSize))
  refine ⟨⟨k, hk1, hk', hsize.trans hk⟩, by rw [hrc, hsize, hrt], by
    rw [hrs]; exact h.one_lt_rehashSize, by rw [hrt]; exact h.threshold_pos, by
    rw [hrt]; exact h.threshold_lt, ?_⟩
  rw [hsize, hrt]
  by_cases hstuck : ht.Stuck
  · rw [h.enlargedSize_of_stuck hstuck]
    exact h.ten_le
  · left
    have hlast : ht.size ≠ prime lastPrime := fun hlast => hstuck (Or.inl hlast)
    have := h.ten_le.resolve_right hlast
    have := h.enlargedSize_of_not_stuck hstuck
    linarith

theorem sized_makeGeneral (hashFunction : Option (K → Nat))
    (testFunction : Option (K → K → Bool)) (size : Nat) (rehashSize rehashThreshold : ℚ)
    (hlt : rehashThreshold < 1) :
    Sized (makeGeneralLispHashTable hashFunction testFunction size rehashSize
      rehashThreshold : LispHashTable K V) := by
  unfold makeGeneralLispHashTable
  -- the size and the threshold after their defaults are filled in
  generalize hrs : (if rehashSize > 1 then rehashSize else (13 : ℚ) / 10) = rs
  generalize ht : (if rehashThreshold > 0 then rehashThreshold
    else if (decide (size > 4096) && testFunction.isNone) = true then (7 : ℚ) / 10
      else 6 / 10) = t
  generalize hs : (if size < hashTableMinSize then hashTableMinSize else size) = n
  have hrs1 : 1 < rs := by
    rw [← hrs]
    split
    · assumption
    · norm_num
  have ht0 : 0 < t := by
    rw [← ht]
    split
    · assumption
    · split <;> norm_num
  have ht1 : t < 1 := by
    rw [← ht]
    split
    · assumption
    · split <;> norm_num
  have hn : 10 ≤ n := by
    rw [← hs, hashTableMinSize]
    split <;> omega
  obtain ⟨k, hk, hk1, hk', -, habove⟩ := hashTableSize_spec (sizeOfDouble ((n : ℚ) / t + 1))
  refine ⟨⟨k, hk1, hk', hk⟩, rfl, hrs1, ht0, ht1, ?_⟩
  show (10 : ℚ) ≤ (hashTableSize (sizeOfDouble ((n : ℚ) / t + 1)) : ℚ) * t ∨
    hashTableSize (sizeOfDouble ((n : ℚ) / t + 1)) = prime lastPrime
  rw [hk]
  rcases habove with rfl | habove
  · exact Or.inr rfl
  · left
    have hlt := lt_sizeOfDouble_add_one ((n : ℚ) / t + 1)
    have habove' : (sizeOfDouble ((n : ℚ) / t + 1) : ℚ) ≤ prime k := by exact_mod_cast habove
    have hdiv : (n : ℚ) / t ≤ prime k := by linarith
    rw [div_le_iff₀ ht0] at hdiv
    have hn' : (10 : ℚ) ≤ n := by exact_mod_cast hn
    linarith

end Sized

/-! ## Runs -/

/-- What a Lisp program does to a table. -/
inductive ProgramOp (K V : Type) where
  | puthash (key : K) (value : V)
  | remhash (key : K)
  | clrhash

/-- An operation of a program, run. -/
def ProgramOp.run (ops : LispOps K) (ht : LispHashTable K V) :
    ProgramOp K V → Option (LispHashTable K V)
  | .puthash key value => Elhash.puthash ops key value ht
  | .remhash key => (Elhash.remhash ops key ht).map Prod.snd
  | .clrhash => some (Elhash.clrhash ht)

/-- The table is not full: `check_hash_table_invariants`, and every probing loop
ends. -/
def NotFull (ops : LispOps K) (ht : LispHashTable K V) : Prop :=
  ht.count < ht.size ∧ ht.count ≤ ht.rehashCount ∧
    ∀ key, (findHentry ops key ht).isSome = true

/-- The table has no entry for a key. -/
def Absent (ops : LispOps K) (ht : LispHashTable K V) (key : K) : Prop :=
  ∃ e, findHentry ops key ht = some e ∧ ht.hentries e = none

/-- An operation does not put a new key into a stuck table that has reached
`rehash_count`. -/
def ProgramOp.Grows (ops : LispOps K) (ht : LispHashTable K V) : ProgramOp K V → Prop
  | .puthash key _ => ¬ (Absent ops ht key ∧ ht.count = ht.rehashCount ∧ ht.Stuck)
  | _ => True

/-- The invariant of a table that is not full. -/
structure Grown (ops : LispOps K) (ht : LispHashTable K V) : Prop where
  placed : Placed ops ht
  sized : Sized ht
  count_le : ht.count ≤ ht.rehashCount

section Grown

variable {ops : LispOps K} {ht : LispHashTable K V}

theorem Grown.notFull (h : Grown ops ht) : NotFull ops ht := by
  refine ⟨h.placed.count_lt, h.count_le, fun key => ?_⟩
  obtain ⟨e, he, -⟩ := h.placed.find key
  rw [he]
  rfl

/-- `puthash` of a new key, when the table is not stuck at `rehash_count`. -/
theorem Grown.puthash_absent (h : Grown ops ht) {key : K} {e : Nat}
    (hfind : findHentry ops key ht = some e)
    (hstop : StopsAt (occupied ht.hentries) (ht.atKey key) ht.size (ht.hashCode ops key) e)
    (he : ht.hentries e = none) (value : V)
    (hgrows : ¬ (ht.count = ht.rehashCount ∧ ht.Stuck)) :
    ∃ ht', puthash ops key value ht = some ht' ∧ Grown ops ht' := by
  rw [puthash_new hfind he]
  have hlt := h.sized.rehashCount_lt
  have hle := h.count_le
  split
  case isFalse hsmall =>
    refine ⟨_, rfl, h.placed.withEntry value hstop he (by omega), ?_, ?_⟩
    · exact ⟨h.sized.size_prime, h.sized.rehashCount_eq, h.sized.one_lt_rehashSize,
        h.sized.threshold_pos, h.sized.threshold_lt, h.sized.ten_le⟩
    · show ht.count + 1 ≤ ht.rehashCount
      omega
  case isTrue hbig =>
    -- the new count is within the new threshold, enlarged or not
    have hcount : ht.count + 1 ≤ sizeOfDouble (ht.enlargedSize * ht.rehashThreshold) := by
      by_cases hstuck : ht.Stuck
      · have hne : ht.count ≠ ht.rehashCount := fun heq => hgrows ⟨heq, hstuck⟩
        rw [h.sized.enlargedSize_of_stuck hstuck, ← h.sized.rehashCount_eq]
        omega
      · refine le_sizeOfDouble ?_
        have hroom := h.sized.enlargedSize_of_not_stuck hstuck
        have hnonneg : 0 ≤ (ht.size : ℚ) * ht.rehashThreshold :=
          mul_nonneg (Nat.cast_nonneg _) h.sized.threshold_pos.le
        have hfloor := sizeOfDouble_le hnonneg
        rw [← h.sized.rehashCount_eq] at hfloor
        have hle' : (ht.count : ℚ) ≤ ht.rehashCount := by exact_mod_cast hle
        push_cast
        linarith
    have hsized : ∀ ht' : LispHashTable K V, ht'.size = ht.enlargedSize →
        ht'.rehashSize = ht.rehashSize → ht'.rehashThreshold = ht.rehashThreshold →
        ht'.rehashCount = sizeOfDouble (ht.enlargedSize * ht.rehashThreshold) → Sized ht' :=
      fun ht' => h.sized.enlarge
    have hroom : ht.count + 1 < ht.enlargedSize := by
      have := (hsized { ht with
        size := ht.enlargedSize
        rehashCount := sizeOfDouble (ht.enlargedSize * ht.rehashThreshold) }
        rfl rfl rfl rfl).rehashCount_lt
      exact lt_of_le_of_lt hcount this
    obtain ⟨ht', hres, hplaced, hsize, hcnt, hrs, hrt, hrc⟩ :=
      Placed.resize ops ht.enlargedSize
        (h.placed.count_withEntry value hstop.lt he key)
        (h.placed.eqApart_withEntry value hstop he) hroom
    refine ⟨ht', hres, hplaced, hsized ht' hsize hrs hrt hrc, ?_⟩
    rw [hcnt, hrc]
    exact hcount

theorem Grown.run (h : Grown ops ht) (op : ProgramOp K V) (hgrows : op.Grows ops ht) :
    ∃ ht', op.run ops ht = some ht' ∧ Grown ops ht' := by
  cases op with
  | puthash key value =>
    obtain ⟨e, hfind, hstop⟩ := h.placed.find key
    cases he : ht.hentries e with
    | some a =>
      refine ⟨_, puthash_existing hfind he value, h.placed.overwrite hstop.lt he value, ?_,
        h.count_le⟩
      exact ⟨h.sized.size_prime, h.sized.rehashCount_eq, h.sized.one_lt_rehashSize,
        h.sized.threshold_pos, h.sized.threshold_lt, h.sized.ten_le⟩
    | none =>
      exact h.puthash_absent hfind hstop he value
        fun hstuck => hgrows ⟨⟨e, hfind, he⟩, hstuck⟩
  | remhash key =>
    obtain ⟨e, hfind, hstop⟩ := h.placed.find key
    cases he : ht.hentries e with
    | none => exact ⟨ht, by simp [ProgramOp.run, remhash, hfind, he], h⟩
    | some a =>
      obtain ⟨entries, hrem, hplaced, -⟩ := h.placed.remhash1 hstop.lt he
      refine ⟨_, by simp [ProgramOp.run, remhash, hfind, he, hrem], hplaced, ?_, ?_⟩
      · exact ⟨h.sized.size_prime, h.sized.rehashCount_eq, h.sized.one_lt_rehashSize,
          h.sized.threshold_pos, h.sized.threshold_lt, h.sized.ten_le⟩
      · exact (Nat.sub_le _ _).trans h.count_le
  | clrhash =>
    refine ⟨clrhash ht, rfl, h.placed.clrhash, ?_, Nat.zero_le _⟩
    exact ⟨h.sized.size_prime, h.sized.rehashCount_eq, h.sized.one_lt_rehashSize,
      h.sized.threshold_pos, h.sized.threshold_lt, h.sized.ten_le⟩

theorem Grown.run_overfull (h : Grown ops ht) {op : ProgramOp K V}
    (hgrows : ¬ op.Grows ops ht) {ht' : LispHashTable K V}
    (hrun : op.run ops ht = some ht') : ¬ NotFull ops ht' := by
  cases op with
  | remhash key => exact absurd trivial hgrows
  | clrhash => exact absurd trivial hgrows
  | puthash key value =>
    obtain ⟨⟨e, hfind, he⟩, hcount, hstuck⟩ := not_not.mp hgrows
    rw [ProgramOp.run, puthash_new hfind he, if_pos (by omega), enlargeHashTable,
      resizeHashTable, Option.map_eq_some_iff] at hrun
    obtain ⟨entries, -, rfl⟩ := hrun
    rintro ⟨-, hle, -⟩
    have hle : ht.count + 1 ≤ sizeOfDouble (ht.enlargedSize * ht.rehashThreshold) := hle
    rw [h.sized.enlargedSize_of_stuck hstuck, ← h.sized.rehashCount_eq] at hle
    omega

end Grown

theorem decodeHashTableRehashThreshold_lt {v : KeywordValue} {t : ℚ}
    (h : decodeHashTableRehashThreshold v = .ok t) : t < 1 := by
  unfold decodeHashTableRehashThreshold at h
  split at h
  · cases h
    norm_num
  · split at h
    · cases h
    · cases h
      exact not_le.mp (not_or.mp ‹_›).2
  · cases h

omit [DecidableEq K] in
theorem grown_empty {ops : LispOps K} {ht : LispHashTable K V} (h : Sized ht)
    (hcount : ht.count = 0) (hempty : ht.hentries = fun _ => none) : Grown ops ht := by
  refine ⟨⟨fun y _ a ha => ?_, fun i _ j _ a b ha => ?_, ?_, ?_, ?_⟩, h, ?_⟩
  · rw [hempty] at ha
    cases ha
  · rw [hempty] at ha
    cases ha
  · rw [hcount, hempty]
    exact (Finset.card_eq_zero.mpr
      (Finset.filter_eq_empty_iff.mpr fun j _ hocc => occupied_iff.mp hocc rfl)).symm
  · rw [hcount]
    exact h.size_pos
  · rw [hempty]
  · rw [hcount]
    exact Nat.zero_le _

theorem grown_makeHashTable {ops : LispOps K} {test : HashTableTest}
    {size rehashSize rehashThreshold : KeywordValue} {ht : LispHashTable K V}
    (hmake : makeHashTable ops test size rehashSize rehashThreshold = .ok ht) :
    Grown ops ht := by
  unfold makeHashTable at hmake
  cases hsize : decodeHashTableSize size with
  | error msg => rw [hsize] at hmake; cases hmake
  | ok n =>
    cases hrs : decodeHashTableRehashSize rehashSize with
    | error msg => rw [hsize, hrs] at hmake; cases hmake
    | ok rs =>
      cases hrt : decodeHashTableRehashThreshold rehashThreshold with
      | error msg => rw [hsize, hrs, hrt] at hmake; cases hmake
      | ok t =>
        rw [hsize, hrs, hrt] at hmake
        have hlt := decodeHashTableRehashThreshold_lt hrt
        cases hmake
        cases test with
        | eq => exact grown_empty (sized_makeGeneral _ _ _ _ _ hlt) rfl rfl
        | eql => exact grown_empty (sized_makeGeneral _ _ _ _ _ hlt) rfl rfl
        | equal => exact grown_empty (sized_makeGeneral _ _ _ _ _ hlt) rfl rfl

/-- **When a hash table fills up**: in a run of `puthash`, `remhash` and `clrhash` on
a table made by `make-hash-table`, every probing loop ends and `count` stays below
`size` and within `rehash_count`, if and only if no `puthash` of a new key finds the
table stuck at `rehash_count`. -/
theorem notFull_iff_grows (ops : LispOps K) (test : HashTableTest)
    (size rehashSize rehashThreshold : KeywordValue) (ht : LispHashTable K V)
    (hmake : makeHashTable ops test size rehashSize rehashThreshold = .ok ht)
    (l : List (ProgramOp K V)) :
    Always (ProgramOp.run ops) (NotFull ops) ht l ↔
      StepsMeet (ProgramOp.run ops) (ProgramOp.Grows ops) ht l :=
  always_iff_stepsMeet (fun _ h => h.notFull) (fun _ op h hop => h.run op hop)
    (fun _ _ _ h hop hrun => h.run_overfull hop hrun) (grown_makeHashTable hmake)

/-- `(make-hash-table :rehash-size 1.01)`. -/
def slowTable : LispHashTable Nat Unit :=
  makeStandardLispHashTable fixnumObjects .eq 16 (101 / 100) (-1)

theorem make_slowTable : makeHashTable fixnumObjects .eq (.fixnum 16) (.flonum (101 / 100))
    .qnil = .ok slowTable := by
  have h : ¬ (101 / 100 : ℚ) ≤ 1 := by norm_num
  simp [makeHashTable, decodeHashTableSize, decodeHashTableRehashSize, h,
    decodeHashTableRehashThreshold, slowTable]
  rfl

/-- The criterion for 18 fixnums put into the slow table. -/
theorem slowTable_notFull_iff :
    Always (ProgramOp.run fixnumObjects) (NotFull fixnumObjects) slowTable
        ((List.range 18).map fun n => .puthash n ()) ↔
      StepsMeet (ProgramOp.run fixnumObjects) (ProgramOp.Grows fixnumObjects) slowTable
        ((List.range 18).map fun n => .puthash n ()) :=
  notFull_iff_grows fixnumObjects .eq (.fixnum 16) (.flonum (101 / 100)) .qnil slowTable
    make_slowTable _

/-- The eighteenth fixnum takes `count` past `rehash_count`. -/
theorem slowTable_overfull :
    makeHashTable fixnumObjects .eq (.fixnum 16) (.flonum (101 / 100)) .qnil
      = .ok slowTable ∧
    ¬ Always (ProgramOp.run fixnumObjects) (NotFull fixnumObjects) slowTable
      ((List.range 18).map fun n => .puthash n ()) := by
  refine ⟨make_slowTable, fun h => ?_⟩
  rw [← List.append_nil ((List.range 18).map _)] at h
  obtain ⟨ht', hrun, -, hle, -⟩ := h.exists_after
  have hsizes : (after (ProgramOp.run fixnumObjects) slowTable
      ((List.range 18).map fun n => .puthash n ())).map (fun ht => (ht.count, ht.rehashCount))
      = some (18, 17) := by decide +kernel
  rw [hrun, Option.map_some, Option.some.injEq, Prod.mk.injEq] at hsizes
  omega

end XEmacs.Elhash
