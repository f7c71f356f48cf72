import XEmacs.Sxhash.Alike
import Mathlib.Order.Basic

/-!
# `sxhash` respects `equal`

Only compiled functions can be equal and have different hashes: the one has been called, and the
hash takes in its program; the other has not, and the hash takes in the string.
-/

namespace XEmacs.Sxhash

open Fallible

variable {h : Heap} {hash : Obj → Hashcode} {fuel depth : Nat}

/-! ### The comparison of operands -/

theorem internalEqual_succ {o o' : Operand} :
    internalEqual h hash (fuel + 1) o o' depth = .ok true ↔ depth ≤ 200 ∧ (o.eq o' = true ∨
      ∃ r r', h.operandRecord o = some r ∧ h.operandRecord o' = some r' ∧
        recordEqual h (internalEqual h hash fuel) hash fuel r r' depth = .ok true) := by
  rw [internalEqual]
  constructor
  · intro heq
    split at heq
    · cases heq
    · rename_i hdepth
      refine ⟨Nat.le_of_not_lt hdepth, ?_⟩
      split at heq
      · rename_i hsame
        exact .inl hsame
      · split at heq
        · rename_i r r' hr hr'
          exact .inr ⟨r, r', hr, hr', heq⟩
        · cases heq
  · rintro ⟨hdepth, heq⟩
    rw [if_neg (Nat.not_lt.mpr hdepth)]
    split
    · rfl
    · rename_i hsame
      obtain heq | ⟨r, r', hr, hr', heq⟩ := heq
      · exact absurd heq hsame
      · rw [hr, hr']
        exact heq

theorem internalEqual_newString {b : List Nat} {o : Operand}
    (heq : internalEqual h hash fuel (.newString b) o depth = .ok true) :
    h.operandRecord o = some (.string b) := by
  cases fuel with
  | zero => cases heq
  | succ fuel =>
    obtain ⟨-, hsame | ⟨r, r', hr, hr', heq⟩⟩ := internalEqual_succ.mp heq
    · cases hsame
    · cases hr
      cases r' with
      | string b' => rw [hr', of_decide_eq_true (pure_eq_true.mp heq)]
      | _ => cases heq

theorem internalEqual_newString_right {b : List Nat} {o : Operand}
    (heq : internalEqual h hash fuel o (.newString b) depth = .ok true) :
    h.operandRecord o = some (.string b) := by
  cases fuel with
  | zero => cases heq
  | succ fuel =>
    obtain ⟨-, hsame | ⟨r, r', hr, hr', heq⟩⟩ := internalEqual_succ.mp heq
    · cases o with
      | object o => cases hsame
      | newString b => cases hsame
    · cases hr'
      cases r with
      | string b' => rw [hr, of_decide_eq_true (pure_eq_true.mp heq)]
      | _ => cases heq

/-- What `compiled_function_equal` has compared. -/
structure CompiledEqual (h : Heap) (equal : Operand → Operand → Nat → EqualResult Bool)
    (depth : Nat) (f f' : CompiledFunction) : Prop where
  documentationp : f.documentationp = f'.documentationp
  interactivep : f.interactivep = f'.interactivep
  domainp : f.domainp = f'.domainp
  instructions : ∃ i i', h.compiledFunctionInstructions f = .ok i ∧
    h.compiledFunctionInstructions f' = .ok i' ∧ equal i i' (depth + 1) = .ok true
  constants : objEqual equal f.constants f'.constants (depth + 1) = .ok true
  arglist : objEqual equal f.arglist f'.arglist (depth + 1) = .ok true
  docAndInteractive :
    objEqual equal f.docAndInteractive f'.docAndInteractive (depth + 1) = .ok true

theorem compiledFunctionEqual_iff {equal : Operand → Operand → Nat → EqualResult Bool}
    {f f' : CompiledFunction} :
    compiledFunctionEqual h equal f f' depth = .ok true ↔ CompiledEqual h equal depth f f' := by
  constructor
  · intro heq
    obtain ⟨hflags, heq⟩ := unless_eq_true.mp heq
    simp only [ne_eq, not_or, not_not] at hflags
    obtain ⟨i, hi, heq⟩ := bind_eq_ok.mp heq
    obtain ⟨i', hi', heq⟩ := bind_eq_ok.mp heq
    obtain ⟨hinstructions, heq⟩ := both_eq_true.mp heq
    obtain ⟨hconstants, heq⟩ := both_eq_true.mp heq
    obtain ⟨harglist, hdoc⟩ := both_eq_true.mp heq
    exact ⟨hflags.1, hflags.2.1, hflags.2.2, ⟨i, i', hi, hi', hinstructions⟩, hconstants, harglist,
      hdoc⟩
  · intro heq
    obtain ⟨i, i', hi, hi', hinstructions⟩ := heq.instructions
    refine unless_eq_true.mpr ⟨?_, ?_⟩
    · simp only [ne_eq, not_or, not_not]
      exact ⟨heq.documentationp, heq.interactivep, heq.domainp⟩
    · refine bind_eq_ok.mpr ⟨i, hi, bind_eq_ok.mpr ⟨i', hi', ?_⟩⟩
      exact both_eq_true.mpr ⟨hinstructions, both_eq_true.mpr ⟨heq.constants,
        both_eq_true.mpr ⟨heq.arglist, heq.docAndInteractive⟩⟩⟩

/-! ### Hashes of functions -/

theorem hash3_inj {a b b' c : Hashcode} (heq : hash3 a b c = hash3 a b' c) : b = b' := by
  have hinv : (16079000890114764735 : UInt64) * 65599 = 1 := by decide
  have hmul : 65599 * hash2 a b = 65599 * hash2 a b' := (UInt64.add_left_inj c).mp heq
  have hhash : hash2 a b = hash2 a b' := by
    rw [← UInt64.one_mul (hash2 a b), ← UInt64.one_mul (hash2 a b'), ← hinv, UInt64.mul_assoc,
      UInt64.mul_assoc, hmul]
  exact (UInt64.add_right_inj _).mp hhash

/-- The first of two functions has been called; the second has not, and has a string. -/
def Mixed (h : Heap) (f f' : CompiledFunction) (program : List UInt8) (bytes : List Nat) : Prop :=
  f.instructions = .program program ∧
    ∃ a, f'.instructions = .object (.ref a) ∧ h.record a = .string bytes

/-- The hashes of the instructions of two functions agree at every level. -/
def AlikeInstructions (h : Heap) (f f' : CompiledFunction) : Prop :=
  ∀ levels, (h.deeper levels).instructions f.instructions
    = (h.deeper levels).instructions f'.instructions

theorem instructions_string {a levels : Nat} {bytes : List Nat} (ha : h.record a = .string bytes) :
    (h.deeper (levels + 1)).instructions (.object (.ref a)) = hashString bytes := by
  rw [Deeper.instructions, deeper_next, internalHashWithin_succ, objHash, ha, recordHash]

theorem alikeInstructions_of_mixed {f f' : CompiledFunction} {program : List UInt8}
    {bytes : List Nat} (hmixed : Mixed h f f' program bytes)
    (hagree : hashProgram program = hashString bytes) : AlikeInstructions h f f' := by
  obtain ⟨hf, a, hf', ha⟩ := hmixed
  intro levels
  rw [hf, hf']
  cases levels with
  | zero => rfl
  | succ levels =>
    rw [instructions_string ha]
    exact hagree

theorem operandRecord_string {o : Obj} {bytes : List Nat}
    (ho : h.operandRecord (.object o) = some (.string bytes)) :
    ∃ a, o = .ref a ∧ h.record a = .string bytes := by
  cases o with
  | int n => cases ho
  | char c => cases ho
  | ref a => exact ⟨a, rfl, Option.some.inj ho⟩

theorem compiledFunctionInstructions_program {f : CompiledFunction} {program : List UInt8}
    {i : Operand} (hf : f.instructions = .program program)
    (hi : h.compiledFunctionInstructions f = .ok i) :
    ∃ s, Bytecode.instructionsString h.charsets program = some s ∧ i = .newString s := by
  rw [Heap.compiledFunctionInstructions, hf] at hi
  simp only at hi
  split at hi
  · rename_i s hs
    cases hi
    exact ⟨s, hs, rfl⟩
  · cases hi

/-- **Functions with equal instructions** have equal hashes of them, unless only one of the two
has been called. -/
theorem alikeInstructions {f f' : CompiledFunction}
    (hsound : ∀ o o' depth,
      objEqual (internalEqual h hash fuel) o o' depth = .ok true → Alike h o o')
    (hagree : ∀ program bytes, Mixed h f f' program bytes ∨ Mixed h f' f program bytes →
      hashProgram program = hashString bytes)
    (heq : CompiledEqual h (internalEqual h hash fuel) depth f f') :
    AlikeInstructions h f f' := by
  obtain ⟨i, i', hi, hi', heq⟩ := heq.instructions
  cases hf : f.instructions with
  | object o =>
    obtain rfl : i = .object o := by
      rw [Heap.compiledFunctionInstructions, hf] at hi
      exact (Except.ok.inj hi).symm
    cases hf' : f'.instructions with
    | object o' =>
      obtain rfl : i' = .object o' := by
        rw [Heap.compiledFunctionInstructions, hf'] at hi'
        exact (Except.ok.inj hi').symm
      intro levels
      rw [hf, hf', Deeper.instructions, Deeper.instructions, deeper_next]
      exact hsound _ _ _ heq levels
    | program bytes' =>
      obtain ⟨s, -, rfl⟩ := compiledFunctionInstructions_program hf' hi'
      obtain ⟨a, rfl, ha⟩ := operandRecord_string (internalEqual_newString_right heq)
      have hmixed : Mixed h f' f bytes' s := ⟨hf', a, hf, ha⟩
      intro levels
      exact (alikeInstructions_of_mixed hmixed (hagree _ _ (.inr hmixed)) levels).symm
  | program bytes =>
    obtain ⟨s, hs, rfl⟩ := compiledFunctionInstructions_program hf hi
    cases hf' : f'.instructions with
    | object o' =>
      obtain rfl : i' = .object o' := by
        rw [Heap.compiledFunctionInstructions, hf'] at hi'
        exact (Except.ok.inj hi').symm
      obtain ⟨a, rfl, ha⟩ := operandRecord_string (internalEqual_newString heq)
      have hmixed : Mixed h f f' bytes s := ⟨hf, a, hf', ha⟩
      exact alikeInstructions_of_mixed hmixed (hagree _ _ (.inl hmixed))
    | program bytes' =>
      obtain ⟨s', hs', rfl⟩ := compiledFunctionInstructions_program hf' hi'
      obtain rfl := Record.string.inj (Option.some.inj (internalEqual_newString heq))
      intro levels
      rw [hf, hf', Bytecode.instructionsString_inj h.charsets hs hs']

/-! ### The depth only stops a comparison -/

section depth

-- what is found equal at some depth is found equal at a smaller depth
variable {equal : Operand → Operand → Nat → EqualResult Bool}
  (hmono : ∀ o o' d d', d' ≤ d → equal o o' d = .ok true → equal o o' d' = .ok true)
include hmono

theorem consEqual_mono {d d' rounds : Nat} {c c' : Obj × Obj} (hd : d' ≤ d)
    (heq : consEqual h equal d rounds c c' = .ok true) :
    consEqual h equal d' rounds c c' = .ok true := by
  induction rounds generalizing c c' with
  | zero => cases heq
  | succ rounds ih =>
    obtain ⟨car, cdr⟩ := c
    obtain ⟨car', cdr'⟩ := c'
    obtain ⟨hcar, hrest⟩ := both_eq_true.mp heq
    refine both_eq_true.mpr ⟨hmono _ _ _ _ hd hcar, ?_⟩
    split at hrest
    · exact ih hrest
    · exact hmono _ _ _ _ hd hrest

theorem arrayEqual_mono {d d' : Nat} {l l' : List Obj} (hd : d' ≤ d)
    (heq : arrayEqual equal d l l' = .ok true) : arrayEqual equal d' l l' = .ok true := by
  induction l generalizing l' with
  | nil => rfl
  | cons o l ih =>
    cases l' with
    | nil => rfl
    | cons o' l' =>
      obtain ⟨hfirst, hrest⟩ := both_eq_true.mp heq
      exact both_eq_true.mpr ⟨hmono _ _ _ _ hd hfirst, ih hrest⟩

theorem entriesEqual_mono {d d' : Nat} {l l' : List RangeTableEntry} (hd : d' ≤ d)
    (heq : entriesEqual equal d l l' = .ok true) : entriesEqual equal d' l l' = .ok true := by
  induction l generalizing l' with
  | nil => rfl
  | cons e l ih =>
    cases l' with
    | nil => rfl
    | cons e' l' =>
      obtain ⟨hends, hrest⟩ := unless_eq_true.mp heq
      obtain ⟨hval, hrest⟩ := both_eq_true.mp hrest
      exact unless_eq_true.mpr ⟨hends,
        both_eq_true.mpr ⟨hmono _ _ _ _ (Nat.succ_le_succ hd) hval, ih hrest⟩⟩

theorem inOther_mono {d d' : Nat} {ht : HashTable} {l : List (Obj × Obj)} (hd : d' ≤ d)
    (heq : inOther equal hash ht d l = .ok true) : inOther equal hash ht d' l = .ok true := by
  induction l with
  | nil => rfl
  | cons e l ih =>
    obtain ⟨key, value⟩ := e
    obtain ⟨found, hfound, heq⟩ := bind_eq_ok.mp heq
    refine bind_eq_ok.mpr ⟨found, hfound, ?_⟩
    cases found with
    | none => cases heq
    | some value' =>
      obtain ⟨hvalue, hrest⟩ := both_eq_true.mp heq
      exact both_eq_true.mpr ⟨hmono _ _ _ _ hd hvalue, ih hrest⟩

theorem recordEqual_mono {d d' rounds : Nat} {r r' : Record} (hd : d' ≤ d)
    (heq : recordEqual h equal hash rounds r r' d = .ok true) :
    recordEqual h equal hash rounds r r' d' = .ok true := by
  have hsucc := Nat.succ_le_succ hd
  cases r with
  | cons car cdr =>
    cases r' with
    | cons car' cdr' => exact consEqual_mono hmono hsucc heq
    | _ => cases heq
  | vector v =>
    cases r' with
    | vector v' =>
      obtain ⟨hlength, heq⟩ := unless_eq_true.mp heq
      exact unless_eq_true.mpr ⟨hlength, arrayEqual_mono hmono hsucc heq⟩
    | _ => cases heq
  | bitVector v =>
    cases r' with
    | bitVector v' => exact heq
    | _ => cases heq
  | string s =>
    cases r' with
    | string s' => exact heq
    | _ => cases heq
  | symbol kind =>
    cases r' with
    | _ => cases heq
  | marker buffer memind =>
    cases r' with
    | marker buffer' memind' => exact heq
    | _ => cases heq
  | rangeTable l =>
    cases r' with
    | rangeTable l' =>
      obtain ⟨hlength, heq⟩ := unless_eq_true.mp heq
      exact unless_eq_true.mpr ⟨hlength, entriesEqual_mono hmono hd heq⟩
    | _ => cases heq
  | charTable ct =>
    cases r' with
    | charTable ct' =>
      obtain ⟨htype, heq⟩ := unless_eq_true.mp heq
      obtain ⟨hascii, hlevel1⟩ := both_eq_true.mp heq
      exact unless_eq_true.mpr ⟨htype, both_eq_true.mpr
        ⟨arrayEqual_mono hmono hsucc hascii, arrayEqual_mono hmono hsucc hlevel1⟩⟩
    | _ => cases heq
  | charTableEntry level2 =>
    cases r' with
    | charTableEntry level2' => exact arrayEqual_mono hmono hsucc heq
    | _ => cases heq
  | hashTable ht =>
    cases r' with
    | hashTable ht' =>
      obtain ⟨hsame, heq⟩ := unless_eq_true.mp heq
      exact unless_eq_true.mpr ⟨hsame, inOther_mono hmono hsucc heq⟩
    | _ => cases heq
  | weakList type list =>
    cases r' with
    | weakList type' list' =>
      obtain ⟨htype, heq⟩ := unless_eq_true.mp heq
      exact unless_eq_true.mpr ⟨htype, hmono _ _ _ _ hsucc heq⟩
    | _ => cases heq
  | compiledFunction f =>
    cases r' with
    | compiledFunction f' =>
      have hcompared := compiledFunctionEqual_iff.mp heq
      obtain ⟨i, i', hi, hi', hinstructions⟩ := hcompared.instructions
      exact compiledFunctionEqual_iff.mpr ⟨hcompared.documentationp, hcompared.interactivep,
        hcompared.domainp, ⟨i, i', hi, hi', hmono _ _ _ _ hsucc hinstructions⟩,
        hmono _ _ _ _ hsucc hcompared.constants, hmono _ _ _ _ hsucc hcompared.arglist,
        hmono _ _ _ _ hsucc hcompared.docAndInteractive⟩
    | _ => cases heq

end depth

theorem internalEqual_mono {o o' : Operand} {d d' : Nat} (hd : d' ≤ d)
    (heq : internalEqual h hash fuel o o' d = .ok true) :
    internalEqual h hash fuel o o' d' = .ok true := by
  induction fuel generalizing o o' d d' with
  | zero => cases heq
  | succ fuel ih =>
    obtain ⟨hdepth, heq⟩ := internalEqual_succ.mp heq
    refine internalEqual_succ.mpr ⟨hd.trans hdepth, ?_⟩
    obtain heq | ⟨r, r', hr, hr', heq⟩ := heq
    · exact .inl heq
    · have hmono : ∀ o o' d d', d' ≤ d → internalEqual h hash fuel o o' d = .ok true →
          internalEqual h hash fuel o o' d' = .ok true := fun _ _ _ _ hd heq => ih hd heq
      exact .inr ⟨r, r', hr, hr', recordEqual_mono hmono hd heq⟩

/-! ### Equal objects and their hashes -/

/-- Functions that are equal, of which one has been called, have hashes of their instructions
that agree. -/
def MixedAgree (h : Heap) (fuel : Nat) : Prop :=
  ∀ a b f f' program bytes, h.record a = .compiledFunction f → h.record b = .compiledFunction f' →
    equal h fuel (.ref a) (.ref b) 0 = .ok true →
    Mixed h f f' program bytes ∨ Mixed h f' f program bytes →
    hashProgram program = hashString bytes

theorem eq_of_operand_eq {o o' : Obj} (heq : (Operand.object o).eq (.object o') = true) : o = o' :=
  of_decide_eq_true heq

/-- **Equal objects are alike**, if equal functions are. -/
theorem alike_of_equal (hagree : ∀ n ≤ fuel, MixedAgree h n) {x y : Obj}
    (heq : equal h fuel x y depth = .ok true) : Alike h x y := by
  induction fuel generalizing x y depth with
  | zero => cases heq
  | succ fuel ih =>
    have hzero := internalEqual_mono (Nat.zero_le depth) heq
    obtain ⟨-, heq | ⟨r, r', hr, hr', heq⟩⟩ := internalEqual_succ.mp heq
    · rw [eq_of_operand_eq heq]
      exact .refl y
    · have hsound : ∀ o o' depth, objEqual (internalEqual h (internalHash h · 0) fuel) o o' depth
          = .ok true → Alike h o o' :=
        fun o o' depth heq => ih (fun n hn => hagree n (Nat.le_succ_of_le hn)) heq
      cases x with
      | int n => cases hr
      | char c => cases hr
      | ref a =>
        cases y with
        | int n => cases hr'
        | char c => cases hr'
        | ref b =>
          cases hr
          cases hr'
          refine alike_of_recordHash fun levels => recordEqual_hash hsound ?_ heq a b levels
          intro f f' hf hf' heq levels
          have hcompared := compiledFunctionEqual_iff.mp heq
          have hinstructions := alikeInstructions hsound
            (fun program bytes => hagree _ (Nat.le_refl _) a b f f' program bytes hf hf' hzero)
            hcompared
          have hflags : f.flags = f'.flags := by
            rw [CompiledFunction.flags, CompiledFunction.flags, hcompared.documentationp,
              hcompared.interactivep, hcompared.domainp]
          rw [compiledFunctionHash, compiledFunctionHash, hflags, hinstructions levels,
            deeper_next, hsound _ _ _ hcompared.constants levels]

/-- The hashes of equal objects agree. -/
def Respects (h : Heap) : Prop :=
  ∀ fuel x y, equal h fuel x y 0 = .ok true → internalHash h x 0 = internalHash h y 0

theorem mixedAgree_of_respects (hrespects : Respects h) (fuel : Nat) : MixedAgree h fuel := by
  induction fuel using Nat.strong_induction_on with
  | h fuel ih =>
    intro a b f f' program bytes hf hf' heq hmixed
    have hhash := hrespects fuel _ _ heq
    cases fuel with
    | zero => cases heq
    | succ fuel =>
      obtain ⟨-, hsame | ⟨r, r', hr, hr', heq⟩⟩ := internalEqual_succ.mp heq
      · obtain rfl := Obj.ref.inj (eq_of_operand_eq hsame)
        obtain rfl := Record.compiledFunction.inj (hf.symm.trans hf')
        obtain ⟨hprogram, _, hobject, -⟩ | ⟨hprogram, _, hobject, -⟩ := hmixed
        · rw [hprogram] at hobject
          cases hobject
        · rw [hprogram] at hobject
          cases hobject
      · obtain rfl := hf.symm.trans (Option.some.inj hr)
        obtain rfl := hf'.symm.trans (Option.some.inj hr')
        have hcompared := compiledFunctionEqual_iff.mp heq
        have hconstants := alike_of_equal (fun n hn => ih n (Nat.lt_succ_of_le hn))
          hcompared.constants
        have hflags : f.flags = f'.flags := by
          rw [CompiledFunction.flags, CompiledFunction.flags, hcompared.documentationp,
            hcompared.interactivep, hcompared.domainp]
        have hhash : compiledFunctionHash (h.deeper 5) f = compiledFunctionHash (h.deeper 5) f' := by
          rw [internalHash, internalHash, internalHashWithin_succ, internalHashWithin_succ, objHash,
            objHash, hf, hf'] at hhash
          exact hhash
        rw [compiledFunctionHash, compiledFunctionHash, hflags, deeper_next, hconstants 5] at hhash
        have hinstructions := hash3_inj hhash
        obtain ⟨hprogram, c, hobject, hc⟩ | ⟨hprogram, c, hobject, hc⟩ := hmixed
        · rw [hprogram, hobject, instructions_string hc] at hinstructions
          exact hinstructions
        · rw [hprogram, hobject, instructions_string hc] at hinstructions
          exact hinstructions.symm

/-! ### Calls -/

/-- The instructions of a function, as they are and as a program, are hashed alike, and the
program is converted back to them. -/
def InstructionsKept (h : Heap) (f : CompiledFunction) (program : List UInt8) : Prop :=
  f.instructions = .program program ∨ ∃ s bytes, f.instructions = .object (.ref s) ∧
    h.record s = .string bytes ∧ hashProgram program = hashString bytes ∧
    Bytecode.instructionsString h.charsets program = some bytes

/-- The heap after a call of the function at an address. -/
def Heap.called (h : Heap) (a : Nat) (f : CompiledFunction) (program : List UInt8) : Heap :=
  h.set a (.compiledFunction { f with instructions := .program program })

theorem optimizeCompiledFunction_eq {h' : Heap} {a : Nat}
    (hcall : h.optimizeCompiledFunction a = some h') :
    ∃ f program, h.record a = .compiledFunction f ∧ h.optimized f = some program ∧
      h' = h.called a f program := by
  rw [Heap.optimizeCompiledFunction] at hcall
  split at hcall
  · rename_i f hf
    obtain ⟨program, hprogram, rfl⟩ := Option.map_eq_some_iff.mp hcall
    exact ⟨f, program, hf, hprogram, rfl⟩
  · cases hcall

section call

variable {a s : Nat} {f : CompiledFunction} {program : List UInt8} {bytes : List Nat}

theorem instructions_called {levels : Nat} (hs : h.record s = .string bytes)
    (hhash : hashProgram program = hashString bytes) :
    (h.deeper levels).instructions (.program program)
      = (h.deeper levels).instructions (.object (.ref s)) := by
  cases levels with
  | zero => rfl
  | succ levels =>
    rw [instructions_string hs]
    exact hhash

/-- **A call keeps all hashes**, if the program is hashed as the string is. -/
theorem internalHashWithin_called (hf : h.record a = .compiledFunction f)
    (hobject : f.instructions = .object (.ref s)) (hs : h.record s = .string bytes)
    (hhash : hashProgram program = hashString bytes) (levels : Nat) :
    internalHashWithin (h.called a f program) levels = internalHashWithin h levels := by
  induction levels using Nat.strong_induction_on with
  | h levels ih =>
    cases levels with
    | zero => rfl
    | succ levels =>
      have hdeeper : (h.called a f program).deeper levels = h.deeper levels := by
        cases levels with
        | zero => rfl
        | succ levels =>
          rw [Heap.deeper, Heap.deeper, ih (levels + 1) (Nat.lt_succ_self _),
            ih levels (Nat.lt_succ_of_lt (Nat.lt_succ_self _))]
      funext o
      rw [internalHashWithin_succ, internalHashWithin_succ, hdeeper]
      cases o with
      | int n => rfl
      | char c => rfl
      | ref b =>
        rw [objHash, objHash, Heap.called]
        by_cases hb : b = a
        · rw [hb, Heap.record_set_self, hf, recordHash, recordHash, compiledFunctionHash,
            compiledFunctionHash, instructions_called hs hhash, hobject]
          rfl
        · rw [Heap.record_set_of_ne _ _ hb]

theorem consp_called (hf : h.record a = .compiledFunction f) :
    (h.called a f program).consp = h.consp := by
  funext o
  cases o with
  | int n => rfl
  | char c => rfl
  | ref b =>
    rw [Heap.consp, Heap.consp, Heap.called]
    by_cases hb : b = a
    · rw [hb, Heap.record_set_self, hf]
    · rw [Heap.record_set_of_ne _ _ hb]

theorem recordEqual_called (hf : h.record a = .compiledFunction f)
    (equal : Operand → Operand → Nat → EqualResult Bool) (rounds : Nat) (r r' : Record)
    (depth : Nat) : recordEqual (h.called a f program) equal hash rounds r r' depth
      = recordEqual h equal hash rounds r r' depth := by
  have hcons : ∀ c c', consEqual (h.called a f program) equal (depth + 1) rounds c c'
      = consEqual h equal (depth + 1) rounds c c' := by
    induction rounds with
    | zero => exact fun _ _ => rfl
    | succ rounds ih =>
      intro c c'
      obtain ⟨car, cdr⟩ := c
      obtain ⟨car', cdr'⟩ := c'
      rw [consEqual, consEqual, consp_called hf]
      simp only [ih]
  cases r with
  | cons car cdr =>
    cases r' with
    | cons car' cdr' => exact hcons _ _
    | _ => rfl
  | _ =>
    cases r' with
    | _ => rfl

theorem internalEqual_string (hs : h.record s = .string bytes) (o : Operand) :
    internalEqual h hash fuel (.newString bytes) o depth
      = internalEqual h hash fuel (.object (.ref s)) o depth := by
  have hrecord : h.operandRecord (.object (.ref s)) = some (.string bytes) := congrArg some hs
  have hnew : ¬ (Operand.newString bytes).eq o = true := by
    cases o with
    | object o => exact Bool.false_ne_true
    | newString b => exact Bool.false_ne_true
  cases fuel with
  | zero => rfl
  | succ fuel =>
    rw [internalEqual, internalEqual, if_neg hnew, hrecord]
    by_cases hsame : (Operand.object (.ref s)).eq o = true
    · cases o with
      | newString b => cases hsame
      | object o =>
        obtain rfl := eq_of_operand_eq hsame
        rw [if_pos hsame, hrecord]
        simp only [Heap.operandRecord, recordEqual, decide_true]
    · rw [if_neg hsame]
      rfl

theorem internalEqual_string_right (hs : h.record s = .string bytes) (o : Operand) :
    internalEqual h hash fuel o (.newString bytes) depth
      = internalEqual h hash fuel o (.object (.ref s)) depth := by
  have hrecord : h.operandRecord (.object (.ref s)) = some (.string bytes) := congrArg some hs
  have hnew : ¬ o.eq (.newString bytes) = true := by
    cases o with
    | object o => exact Bool.false_ne_true
    | newString b => exact Bool.false_ne_true
  cases fuel with
  | zero => rfl
  | succ fuel =>
    rw [internalEqual, internalEqual, if_neg hnew, hrecord]
    by_cases hsame : o.eq (.object (.ref s)) = true
    · cases o with
      | newString b => cases hsame
      | object o =>
        obtain rfl := eq_of_operand_eq hsame
        rw [if_pos hsame, hrecord]
        simp only [Heap.operandRecord, recordEqual, decide_true]
    · rw [if_neg hsame]
      rfl

/-- The function at the address, before the call and after it. -/
def Replaces (f : CompiledFunction) (program : List UInt8) (r r' : Record) : Prop :=
  r' = r ∨ r = .compiledFunction f ∧
    r' = .compiledFunction { f with instructions := .program program }

theorem operandRecord_called (program : List UInt8) (hf : h.record a = .compiledFunction f)
    (o : Operand) :
    (h.operandRecord o = none ∧ (h.called a f program).operandRecord o = none) ∨
      ∃ r r', h.operandRecord o = some r ∧ (h.called a f program).operandRecord o = some r' ∧
        Replaces f program r r' := by
  cases o with
  | newString b => exact .inr ⟨_, _, rfl, rfl, .inl rfl⟩
  | object o =>
    cases o with
    | int n => exact .inl ⟨rfl, rfl⟩
    | char c => exact .inl ⟨rfl, rfl⟩
    | ref b =>
      refine .inr ⟨_, _, rfl, rfl, ?_⟩
      by_cases hb : b = a
      · rw [hb]
        exact .inr ⟨hf, Heap.record_set_self ..⟩
      · exact .inl (Heap.record_set_of_ne _ _ hb)

theorem compiledFunctionEqual_called (hobject : f.instructions = .object (.ref s))
    (hs : h.record s = .string bytes)
    (hback : Bytecode.instructionsString h.charsets program = some bytes)
    {g g' : CompiledFunction} {r r' : CompiledFunction}
    (hg : r = g ∨ g = f ∧ r = { f with instructions := .program program })
    (hg' : r' = g' ∨ g' = f ∧ r' = { f with instructions := .program program }) :
    compiledFunctionEqual h (internalEqual h hash fuel) r r' depth
      = compiledFunctionEqual h (internalEqual h hash fuel) g g' depth := by
  have hprogram : h.compiledFunctionInstructions { f with instructions := .program program }
      = .ok (.newString bytes) := by
    rw [Heap.compiledFunctionInstructions]
    simp only [hback]
  have hstring : h.compiledFunctionInstructions f = .ok (.object (.ref s)) := by
    rw [Heap.compiledFunctionInstructions, hobject]
  obtain rfl | ⟨rfl, rfl⟩ := hg
  · obtain rfl | ⟨rfl, rfl⟩ := hg'
    · rfl
    · rw [compiledFunctionEqual, compiledFunctionEqual, hprogram, hstring]
      simp only [bind, Except.bind, internalEqual_string_right hs]
  · obtain rfl | ⟨rfl, rfl⟩ := hg'
    · rw [compiledFunctionEqual, compiledFunctionEqual, hprogram, hstring]
      simp only [bind, Except.bind, internalEqual_string hs]
    · rw [compiledFunctionEqual, compiledFunctionEqual, hprogram, hstring]
      simp only [bind, Except.bind, internalEqual_string hs, internalEqual_string_right hs]

theorem recordEqual_replaces (hobject : f.instructions = .object (.ref s))
    (hs : h.record s = .string bytes)
    (hback : Bytecode.instructionsString h.charsets program = some bytes) {rounds : Nat}
    {r r' q q' : Record} (hr : Replaces f program r r') (hq : Replaces f program q q') :
    recordEqual h (internalEqual h hash fuel) hash rounds r' q' depth
      = recordEqual h (internalEqual h hash fuel) hash rounds r q depth := by
  have hcompared : ∀ {g g' r r' : CompiledFunction},
      (r = g ∨ g = f ∧ r = { f with instructions := .program program }) →
      (r' = g' ∨ g' = f ∧ r' = { f with instructions := .program program }) →
      compiledFunctionEqual h (internalEqual h hash fuel) r r' depth
        = compiledFunctionEqual h (internalEqual h hash fuel) g g' depth :=
    compiledFunctionEqual_called hobject hs hback
  obtain rfl | ⟨rfl, rfl⟩ := hr
  · obtain rfl | ⟨rfl, rfl⟩ := hq
    · rfl
    · cases r' with
      | compiledFunction g => exact hcompared (.inl rfl) (.inr ⟨rfl, rfl⟩)
      | _ => rfl
  · obtain rfl | ⟨rfl, rfl⟩ := hq
    · cases q' with
      | compiledFunction g => exact hcompared (.inr ⟨rfl, rfl⟩) (.inl rfl)
      | _ => rfl
    · exact hcompared (.inr ⟨rfl, rfl⟩) (.inr ⟨rfl, rfl⟩)

/-- **A call keeps what is equal**, if the program is converted back to the string. -/
theorem internalEqual_called (hf : h.record a = .compiledFunction f)
    (hobject : f.instructions = .object (.ref s)) (hs : h.record s = .string bytes)
    (hback : Bytecode.instructionsString h.charsets program = some bytes) :
    internalEqual (h.called a f program) hash fuel = internalEqual h hash fuel := by
  induction fuel with
  | zero => rfl
  | succ fuel ih =>
    funext o o' depth
    rw [internalEqual, internalEqual]
    simp only [ih]
    obtain ⟨hr, hr'⟩ | ⟨r, r', hr, hr', hreplaces⟩ := operandRecord_called program hf o
    · rw [hr, hr']
    · obtain ⟨hq, hq'⟩ | ⟨q, q', hq, hq', hreplaces'⟩ :=
        operandRecord_called program hf o'
      · rw [hr, hr', hq, hq']
      · rw [hr, hr', hq, hq']
        simp only [recordEqual_called hf, recordEqual_replaces hobject hs hback hreplaces hreplaces']

/-- A call leaves the hash of the function and what it is equal to as they are. -/
def CallKeeps (h h' : Heap) (a : Nat) : Prop :=
  (∀ depth, internalHash h' (.ref a) depth = internalHash h (.ref a) depth) ∧
    ∀ fuel o depth, equal h' fuel (.ref a) o depth = equal h fuel (.ref a) o depth ∧
      equal h' fuel o (.ref a) depth = equal h fuel o (.ref a) depth

theorem callKeeps_of_instructionsKept (hf : h.record a = .compiledFunction f)
    (hkept : InstructionsKept h f program) : CallKeeps h (h.called a f program) a := by
  obtain hprogram | ⟨s, bytes, hobject, hs, hhash, hback⟩ := hkept
  · have hsame : h.called a f program = h := by
      rw [Heap.called, ← hprogram, Heap.set, ← hf, Function.update_eq_self]
    rw [hsame]
    exact ⟨fun _ => rfl, fun _ _ _ => ⟨rfl, rfl⟩⟩
  · have hlevels : internalHashWithin (h.called a f program) = internalHashWithin h :=
      funext fun levels => internalHashWithin_called hf hobject hs hhash levels
    have hequal : ∀ fuel o o' depth,
        equal (h.called a f program) fuel o o' depth = equal h fuel o o' depth := by
      intro fuel o o' depth
      unfold equal internalHash
      rw [hlevels, internalEqual_called hf hobject hs hback]
    refine ⟨fun depth => ?_, fun fuel o depth => ⟨hequal _ _ _ _, hequal _ _ _ _⟩⟩
    unfold internalHash
    rw [hlevels]

/-- Another function like the one at an address, and constants that do not lead back to it as far
as they are hashed. -/
structure Comparable (h h' : Heap) (a : Nat) (f : CompiledFunction) : Prop where
  twin : ∃ b ≠ a, h.record b = .compiledFunction f
  constants : internalHash h' f.constants 1 = internalHash h f.constants 1

theorem equal_twin {b : Nat} (hf : h.record a = .compiledFunction f)
    (hb : h.record b = .compiledFunction f) (hobject : f.instructions = .object (.ref s)) :
    equal h 2 (.ref a) (.ref b) 0 = .ok true := by
  refine internalEqual_succ.mpr ⟨Nat.zero_le _, .inr ⟨_, _, rfl, rfl, ?_⟩⟩
  rw [hf, hb]
  have hself : ∀ o : Obj, objEqual (internalEqual h (internalHash h · 0) 1) o o (0 + 1)
      = .ok true := fun o =>
    internalEqual_succ.mpr ⟨by decide, .inl (decide_eq_true rfl)⟩
  have hstring : h.compiledFunctionInstructions f = .ok (.object (.ref s)) := by
    rw [Heap.compiledFunctionInstructions, hobject]
  exact compiledFunctionEqual_iff.mpr ⟨rfl, rfl, rfl, ⟨_, _, hstring, hstring, hself _⟩, hself _,
    hself _, hself _⟩

theorem instructionsKept_of_callKeeps (hf : h.record a = .compiledFunction f)
    (hobject : f.instructions = .object (.ref s)) (hs : h.record s = .string bytes)
    (hcomparable : Comparable h (h.called a f program) a f)
    (hkeeps : CallKeeps h (h.called a f program) a) : InstructionsKept h f program := by
  have hcalled : (h.called a f program).record a
      = .compiledFunction { f with instructions := .program program } := Heap.record_set_self ..
  have hsa : s ≠ a := by
    rintro rfl
    rw [hs] at hf
    cases hf
  refine .inr ⟨s, bytes, hobject, hs, ?_, ?_⟩
  · have hhash := hkeeps.1 0
    have hconstants : internalHashWithin (h.called a f program) 5 f.constants
        = internalHashWithin h 5 f.constants := hcomparable.constants
    rw [internalHash, internalHash, internalHashWithin_succ, internalHashWithin_succ, objHash,
      objHash, hcalled, hf, recordHash, recordHash, compiledFunctionHash, compiledFunctionHash,
      deeper_next, deeper_next, hconstants, hobject, instructions_string hs] at hhash
    exact hash3_inj hhash
  · obtain ⟨b, hba, hb⟩ := hcomparable.twin
    have heq := (hkeeps.2 2 (.ref b) 0).1.trans (equal_twin hf hb hobject)
    obtain ⟨-, hsame | ⟨r, r', hr, hr', heq⟩⟩ := internalEqual_succ.mp heq
    · exact absurd (Obj.ref.inj (eq_of_operand_eq hsame)) hba.symm
    · obtain rfl := hcalled.symm.trans (Option.some.inj hr)
      obtain rfl := hb.symm.trans
        ((Heap.record_set_of_ne h _ hba).symm.trans (Option.some.inj hr'))
      obtain ⟨i, i', hi, hi', heq⟩ := (compiledFunctionEqual_iff.mp heq).instructions
      obtain ⟨s', hs', rfl⟩ := compiledFunctionInstructions_program rfl hi
      rw [Heap.compiledFunctionInstructions, hobject] at hi'
      cases hi'
      have hstring := internalEqual_newString heq
      have hrecord : (h.called a f program).operandRecord (.object (.ref s))
          = some (.string bytes) :=
        congrArg some ((Heap.record_set_of_ne h _ hsa).trans hs)
      rw [hrecord] at hstring
      rw [Record.string.inj (Option.some.inj hstring)]
      exact hs'

end call

/-- Functions at 8 and 16 with the same string of instructions, at 24, and without constants. -/
def twoFunctions (bytes : List Nat) : Heap where
  charsets := .initial
  record := fun address =>
    if address = 8 ∨ address = 16 then
      .compiledFunction ⟨false, false, false, .object (.ref 24), .ref 32, .ref 0, .ref 0⟩
    else if address = 24 then .string bytes
    else if address = 32 then .vector [.ref 0]
    else .symbol .nil

theorem twoFunctions_instructions {bytes : List Nat} {a : Nat} {f : CompiledFunction}
    (hf : (twoFunctions bytes).record a = .compiledFunction f) :
    f.instructions = .object (.ref 24) := by
  simp only [twoFunctions] at hf
  split at hf
  · cases hf
    rfl
  · split at hf
    · cases hf
    · split at hf
      · cases hf
      · cases hf

end XEmacs.Sxhash
