import XEmacs.Bytecode.Optimize
import Mathlib.Data.List.Forall2
import Mathlib.Algebra.GroupWithZero.Nat

/-!
# Fixing up the jumps

During the fix-up loop the program is a row of pieces (`Item`): jumps, with an operand of one or
two bytes, and the bytes between them.
-/

namespace XEmacs.Bytecode

open Fallible List

/-- A piece of a program. -/
inductive Item where
  | plain (bytes : List Nat)
  | short (condition operand : Nat)
  | long (condition lo hi : Nat)
deriving DecidableEq, Repr

namespace Item

def bytes : Item → List Nat
  | plain b => b
  | short condition operand => [BRgoto + condition, operand]
  | long condition lo hi => [Bgoto + condition, lo, hi]

/-- The jump in a piece at `base`: the place of its operand and where it leads. -/
def jumps (base : Nat) : Item → List (Nat × Int)
  | plain _ => []
  | short _ operand => [(base + 1, programFormat.short (base + 1) operand)]
  | long _ lo hi => [(base + 1, programFormat.long (base + 1) lo hi)]

def shorts : Item → Nat
  | plain _ => 0
  | short _ _ => 1
  | long _ _ _ => 0

/-- The condition of a jump is one of the five. -/
def Valid : Item → Prop
  | plain _ => True
  | short condition _ => condition < 5
  | long condition _ _ => condition < 5

/-- The same piece, but for the operand of a jump. -/
inductive Same : Item → Item → Prop where
  | plain (b : List Nat) : Same (plain b) (plain b)
  | short_short (condition a b : Nat) : Same (short condition a) (short condition b)
  | short_long (condition a lo hi : Nat) : Same (short condition a) (long condition lo hi)
  | long_long (condition lo hi lo' hi' : Nat) :
    Same (long condition lo hi) (long condition lo' hi')

theorem Same.refl (i : Item) : Same i i := by
  cases i with
  | plain b => exact .plain b
  | short condition a => exact .short_short ..
  | long condition lo hi => exact .long_long ..

theorem Same.trans {i j k : Item} (hij : Same i j) (hjk : Same j k) : Same i k := by
  cases hij with
  | plain b => exact hjk
  | short_short condition a b =>
    cases hjk with
    | short_short => exact .short_short ..
    | short_long => exact .short_long ..
  | short_long condition a lo hi =>
    cases hjk with
    | long_long => exact .short_long ..
  | long_long condition lo hi lo' hi' =>
    cases hjk with
    | long_long => exact .long_long ..

end Item

/-! ### Rows of pieces -/

/-- The bytes of a program made of pieces. -/
def bytesOf (items : List Item) : List Nat := items.flatMap Item.bytes

@[simp] theorem bytesOf_nil : bytesOf [] = [] := rfl

@[simp] theorem bytesOf_cons (i : Item) (l : List Item) :
    bytesOf (i :: l) = i.bytes ++ bytesOf l := rfl

@[simp] theorem bytesOf_append (l₁ l₂ : List Item) :
    bytesOf (l₁ ++ l₂) = bytesOf l₁ ++ bytesOf l₂ :=
  flatMap_append

/-- The place of the piece number `k`. -/
def offset (items : List Item) (k : Nat) : Nat := (bytesOf (items.take k)).length

/-- The jumps of a row of pieces from `base` on. -/
def jumpsOf : Nat → List Item → List (Nat × Int)
  | _, [] => []
  | base, i :: l => i.jumps base ++ jumpsOf (base + i.bytes.length) l

theorem jumpsOf_append (base : Nat) (l₁ l₂ : List Item) :
    jumpsOf base (l₁ ++ l₂) = jumpsOf base l₁ ++ jumpsOf (base + (bytesOf l₁).length) l₂ := by
  induction l₁ generalizing base with
  | nil => rfl
  | cons i l₁ ih =>
    rw [cons_append, jumpsOf, jumpsOf, ih, append_assoc, bytesOf_cons,
      length_append, Nat.add_assoc]

/-- The places of the operands, in a row of pieces from `base` on. -/
def originsOf (base : Nat) (items : List Item) : List Nat := (jumpsOf base items).map Prod.fst

theorem originsOf_append (base : Nat) (l₁ l₂ : List Item) :
    originsOf base (l₁ ++ l₂)
      = originsOf base l₁ ++ originsOf (base + (bytesOf l₁).length) l₂ := by
  rw [originsOf, jumpsOf_append, map_append]
  rfl

theorem originsOf_cons (base : Nat) (i : Item) (l : List Item) :
    originsOf base (i :: l)
      = (i.jumps base).map Prod.fst ++ originsOf (base + i.bytes.length) l := by
  rw [originsOf, jumpsOf, map_append]
  rfl

theorem originsOf_add (base d : Nat) (items : List Item) :
    originsOf (base + d) items = (originsOf base items).map (· + d) := by
  induction items generalizing base with
  | nil => rfl
  | cons i l ih =>
    rw [originsOf_cons, originsOf_cons, map_append, Nat.add_right_comm base, ih]
    congr 1
    cases i with
    | plain b => rfl
    | short condition a => simp [Item.jumps, Nat.add_right_comm]
    | long condition lo hi => simp [Item.jumps, Nat.add_right_comm]

theorem originsOf_bounds {base x : Nat} {items : List Item} (hx : x ∈ originsOf base items) :
    base < x ∧ x < base + (bytesOf items).length := by
  induction items generalizing base with
  | nil => exact absurd hx not_mem_nil
  | cons i l ih =>
    rw [originsOf_cons, mem_append] at hx
    rw [bytesOf_cons, length_append]
    obtain hx | hx := hx
    · cases i with
      | plain b => exact absurd hx not_mem_nil
      | short condition a =>
        obtain rfl : x = base + 1 := by simpa [Item.jumps] using hx
        simp only [Item.bytes, length_cons, length_nil]
        omega
      | long condition lo hi =>
        obtain rfl : x = base + 1 := by simpa [Item.jumps] using hx
        simp only [Item.bytes, length_cons, length_nil]
        omega
    · have hbounds := ih hx
      omega

theorem exists_split {base i : Nat} {o : Nat} {items : List Item}
    (hi : (originsOf base items)[i]? = some o) : ∃ pre item post, items = pre ++ item :: post ∧
      (item.jumps 0).length = 1 ∧ o = base + (bytesOf pre).length + 1 ∧
        (originsOf base pre).length = i := by
  induction items generalizing base i with
  | nil => cases hi
  | cons first l ih =>
    rw [originsOf_cons] at hi
    have hlater : ∀ {i}, (originsOf (base + first.bytes.length) l)[i]? = some o →
        ∃ pre item post, first :: l = pre ++ item :: post ∧ (item.jumps 0).length = 1 ∧
          o = base + (bytesOf pre).length + 1 ∧
            (originsOf base pre).length = (first.jumps base).length + i := by
      intro i hi
      obtain ⟨pre, item, post, rfl, hjump, ho, hlen⟩ := ih hi
      refine ⟨first :: pre, item, post, rfl, hjump, ?_, ?_⟩
      · rw [ho, bytesOf_cons, length_append]
        omega
      · rw [originsOf_cons, length_append, length_map, hlen]
    cases first with
    | plain b =>
      obtain ⟨pre, item, post, heq, hjump, ho, hlen⟩ := hlater hi
      exact ⟨pre, item, post, heq, hjump, ho, hlen.trans (Nat.zero_add i)⟩
    | short condition a | long condition lo hi =>
      cases i with
      | zero =>
        refine ⟨[], _, l, rfl, rfl, ?_, rfl⟩
        exact (Option.some.inj hi).symm
      | succ i =>
        obtain ⟨pre, item, post, heq, hjump, ho, hlen⟩ := hlater (i := i) hi
        exact ⟨pre, item, post, heq, hjump, ho, hlen.trans (Nat.add_comm 1 i)⟩

theorem offset_cons_succ (i : Item) (l : List Item) (k : Nat) :
    offset (i :: l) (k + 1) = i.bytes.length + offset l k := by
  rw [offset, take_succ_cons, bytesOf_cons, length_append, offset]

theorem offset_replace {i j : Item} (hsize : i.bytes.length = j.bytes.length)
    (pre post : List Item) (k : Nat) :
    offset (pre ++ i :: post) k = offset (pre ++ j :: post) k := by
  induction pre generalizing k with
  | nil =>
    cases k with
    | zero => rfl
    | succ k => rw [nil_append, nil_append, offset_cons_succ, offset_cons_succ, hsize]
  | cons first pre ih =>
    cases k with
    | zero => rfl
    | succ k => rw [cons_append, cons_append, offset_cons_succ, offset_cons_succ, ih]

theorem shift_of_le {o x : Nat} (hx : x ≤ o) : Fixups.shift o x = x :=
  if_neg (Nat.not_lt.mpr hx)

theorem shift_of_lt {o x : Nat} (hx : o < x) : Fixups.shift o x = x + 1 := if_pos hx

theorem shift_add (d o x : Nat) : Fixups.shift (d + o) (d + x) = d + Fixups.shift o x := by
  obtain hx | hx := Nat.lt_or_ge o x
  · rw [shift_of_lt hx, shift_of_lt (Nat.add_lt_add_left hx d), Nat.add_assoc]
  · rw [shift_of_le hx, shift_of_le (Nat.add_le_add_left hx d)]

theorem offset_widen (condition a lo hi : Nat) (pre post : List Item) (k : Nat) :
    offset (pre ++ .long condition lo hi :: post) k
      = Fixups.shift ((bytesOf pre).length + 1)
          (offset (pre ++ .short condition a :: post) k) := by
  induction pre generalizing k with
  | nil =>
    cases k with
    | zero => rfl
    | succ k =>
      rw [nil_append, nil_append, offset_cons_succ, offset_cons_succ]
      show 3 + offset post k = Fixups.shift 1 (2 + offset post k)
      rw [shift_of_lt (by omega)]
      omega
  | cons first pre ih =>
    cases k with
    | zero => rfl
    | succ k =>
      rw [cons_append, cons_append, offset_cons_succ, offset_cons_succ, ih,
        bytesOf_cons, length_append, Nat.add_assoc, shift_add]

theorem originsOf_widen (condition a lo hi : Nat) (pre post : List Item) :
    originsOf 0 (pre ++ .long condition lo hi :: post)
      = (originsOf 0 (pre ++ .short condition a :: post)).map
          (Fixups.shift ((bytesOf pre).length + 1)) := by
  have hpre : (originsOf 0 pre).map (Fixups.shift ((bytesOf pre).length + 1))
      = originsOf 0 pre := by
    refine map_congr_left (g := id) (fun x hx => ?_) |>.trans (map_id _)
    have hbounds := originsOf_bounds hx
    exact shift_of_le (by omega)
  have hpost : ∀ {base}, (bytesOf pre).length + 1 ≤ base →
      (originsOf base post).map (Fixups.shift ((bytesOf pre).length + 1))
        = originsOf (base + 1) post := by
    intro base hbase
    rw [originsOf_add]
    refine map_congr_left fun x hx => ?_
    have hbounds := originsOf_bounds hx
    exact shift_of_lt (by omega)
  rw [originsOf_append, originsOf_append, map_append, hpre, originsOf_cons, originsOf_cons,
    map_append]
  congr 1
  simp only [Item.jumps, Item.bytes, map_cons, map_nil, length_cons,
    length_nil]
  rw [hpost (by omega), shift_of_le (by omega)]

/-! ### The state of the loop -/

/-- What the two bytes of an operand make of a distance. -/
def wrap16 (d : Int) : Int := signed (byte (d / 256)) * 256 + byte d

theorem wrap16_eq {d : Int} (hlo : -32768 ≤ d) (hhi : d ≤ 32767) : wrap16 d = d := by
  rw [wrap16, signed, byte, byte]
  split <;> omega

theorem signed_byte {d : Int} (hlo : scharMin < d) (hhi : d ≤ scharMax) : signed (byte d) = d := by
  rw [scharMin] at hlo
  rw [scharMax] at hhi
  rw [signed, byte]
  split <;> omega

/-- Where a jump of the table will lead. -/
def resolved (j : Jump) : Nat × Int := (j.origin, j.origin + wrap16 (j.target - j.origin))

/-- The program is made of these pieces, and the table has the places of the operands. -/
structure LaidOut (s : Fixups) (items : List Item) : Prop where
  program : s.program = bytesOf items
  origins : s.jumps.map Jump.origin = originsOf 0 items
  valid : ∀ i ∈ items, i.Valid

/-- The jumps of the table lead to the pieces the marks say. -/
def Aims (items : List Item) (jumps : List Jump) (marks : List (Nat → Prop)) : Prop :=
  List.Forall₂ (fun j mark => ∀ k, mark k → j.target = offset items k) jumps marks

/-- The state with another program. -/
def Fixups.withItems (s : Fixups) (items : List Item) : Fixups :=
  { s with program := bytesOf items }

def shortsOf (items : List Item) : Nat := (items.map Item.shorts).sum

/-! ### One jump -/

section Fixup

variable {s s' : Fixups} {items pre post : List Item} {item : Item} {i : Nat}

theorem set_append_length {α : Type} {l₁ l₂ : List α} (a b : α) :
    (l₁ ++ a :: l₂).set l₁.length b = l₁ ++ b :: l₂ := by
  simp

theorem set_append_length_succ {l₁ l₂ : List Nat} (a b c : Nat) :
    (l₁ ++ a :: b :: l₂).set (l₁.length + 1) c = l₁ ++ a :: c :: l₂ := by
  simp

theorem set_append_length_succ_succ {l₁ l₂ : List Nat} (a b c d : Nat) :
    (l₁ ++ a :: b :: c :: l₂).set (l₁.length + 1 + 1) d = l₁ ++ a :: b :: d :: l₂ := by
  simp [Nat.add_assoc]

theorem makeRoom_append {l₁ l₂ : List Nat} (a b : Nat) :
    (l₁ ++ a :: b :: l₂).take (l₁.length + 1 + 1) ++ (l₁ ++ a :: b :: l₂).drop (l₁.length + 1)
      = l₁ ++ a :: b :: b :: l₂ := by
  have htake : (l₁ ++ a :: b :: l₂).take (l₁.length + 1 + 1) = l₁ ++ [a, b] := by
    rw [Nat.add_assoc, take_length_add_append]
    rfl
  have hdrop : (l₁ ++ a :: b :: l₂).drop (l₁.length + 1) = b :: l₂ := by
    rw [drop_length_add_append]
    rfl
  rw [htake, hdrop, append_assoc]
  rfl

/-- **What the loop does with a jump**: it writes the operand, or it makes a short jump that
does not reach long. -/
theorem fixup_cases (hlaid : LaidOut s items) (hrun : s.fixup i = .ok s') :
    ∃ pre item post j, items = pre ++ item :: post ∧ s.jumps[i]? = some j ∧
      j.origin = (bytesOf pre).length + 1 ∧ (originsOf 0 pre).length = i ∧
      ((∃ condition lo hi, item = .long condition lo hi ∧ condition < 5 ∧
          s' = s.withItems (pre ++ .long condition (byte (j.target - j.origin))
            (byte ((j.target - j.origin : Int) / 256)) :: post)) ∨
        ∃ condition a, item = .short condition a ∧ condition < 5 ∧
          ((scharMin < (j.target - j.origin : Int) ∧ (j.target - j.origin : Int) ≤ scharMax ∧
            s' = s.withItems (pre ++ .short condition (byte (j.target - j.origin)) :: post)) ∨
            s' = ⟨bytesOf (pre ++ .long condition (byte (j.target - j.origin))
                (byte ((j.target - j.origin : Int) / 256)) :: post),
              s.jumps.map fun jj => ⟨Fixups.shift j.origin jj.origin,
                Fixups.shift j.origin jj.target⟩, true⟩)) := by
  rw [Fixups.fixup] at hrun
  cases hj : s.jumps[i]? with
  | none =>
    rw [hj] at hrun
    cases hrun
  | some j =>
    have horigin : (originsOf 0 items)[i]? = some j.origin := by
      rw [← hlaid.origins, getElem?_map, hj]
      rfl
    obtain ⟨pre, item, post, rfl, hjump, ho, hlen⟩ := exists_split horigin
    rw [Nat.zero_add] at ho
    have hvalid : item.Valid := hlaid.valid item (by simp)
    have hprogram : s.program = bytesOf pre ++ (item.bytes ++ bytesOf post) := by
      rw [hlaid.program, bytesOf_append, bytesOf_cons]
    simp only [hj] at hrun
    obtain ⟨opcode, hopcode, hrun⟩ := bind_eq_ok.mp hrun
    obtain ⟨-, -, hrun⟩ := bind_eq_ok.mp hrun
    rw [ho, Nat.add_sub_cancel, readByte, hprogram] at hopcode
    split at hrun
    · cases hrun
    · refine ⟨pre, item, post, j, rfl, rfl, ho, hlen, ?_⟩
      cases item with
      | plain b => cases hjump
      | long condition lo hi =>
        left
        have hop : opcode = Bgoto + condition := by
          simpa [Item.bytes] using hopcode.symm
        rw [hop, classify_goto hvalid] at hrun
        refine ⟨condition, lo, hi, rfl, hvalid, ?_⟩
        cases hrun
        simp only [Fixups.withItems, Fixups.writeInt16At, Fixups.writeInt8At, hprogram, ho, Item.bytes,
          cons_append, nil_append, set_append_length_succ, set_append_length_succ_succ,
          bytesOf_append, bytesOf_cons]
      | short condition a =>
        right
        have hop : opcode = BRgoto + condition := by
          simpa [Item.bytes] using hopcode.symm
        rw [hop, classify_rgoto hvalid] at hrun
        refine ⟨condition, a, rfl, hvalid, ?_⟩
        simp only at hrun
        split at hrun
        · rename_i hfits
          left
          refine ⟨hfits.1, hfits.2, ?_⟩
          cases hrun
          simp only [Fixups.withItems, Fixups.writeInt8At, hprogram, ho, Item.bytes, cons_append,
            nil_append, set_append_length_succ, bytesOf_append, bytesOf_cons]
        · right
          rw [Fixups.widen] at hrun
          split at hrun
          · cases hrun
          · cases hrun
            have hlong : ((BRgoto + condition : Nat) + (Bgoto - BRgoto : Int)).toNat
                = Bgoto + condition := by
              simp only [BRgoto, Bgoto]
              omega
            simp only [Fixups.makeRoom, Fixups.writeInt16At, Fixups.writeInt8At, hprogram, ho,
              hlong, Item.bytes, cons_append, nil_append, Nat.add_sub_cancel,
              set_append_length, makeRoom_append, set_append_length_succ,
              set_append_length_succ_succ, bytesOf_append, bytesOf_cons]

theorem forall₂_same_trans {l₁ l₂ l₃ : List Item} (h₁₂ : List.Forall₂ Item.Same l₁ l₂)
    (h₂₃ : List.Forall₂ Item.Same l₂ l₃) : List.Forall₂ Item.Same l₁ l₃ := by
  induction h₁₂ generalizing l₃ with
  | nil => exact h₂₃
  | cons hfirst _ ih =>
    cases h₂₃ with
    | cons hfirst' hrest => exact .cons (hfirst.trans hfirst') (ih hrest)

/-- What a step of the loop keeps. -/
structure Kept (s s' : Fixups) (items items' : List Item) : Prop where
  laidOut : LaidOut s' items'
  same : List.Forall₂ Item.Same items items'
  aims (marks : List (Nat → Prop)) : Aims items s.jumps marks → Aims items' s'.jumps marks
  length : s'.jumps.length = s.jumps.length
  more : s'.moreFixupsNeeded = false → s.moreFixupsNeeded = false
  shorts : shortsOf items' ≤ shortsOf items
  fewer : s'.moreFixupsNeeded = true →
    s.moreFixupsNeeded = true ∨ shortsOf items' < shortsOf items

theorem Kept.trans {s s' s'' : Fixups} {items items' items'' : List Item}
    (h₁ : Kept s s' items items') (h₂ : Kept s' s'' items' items'') : Kept s s'' items items'' where
  laidOut := h₂.laidOut
  same := forall₂_same_trans h₁.same h₂.same
  aims marks h := h₂.aims marks (h₁.aims marks h)
  length := h₂.length.trans h₁.length
  more h := h₁.more (h₂.more h)
  shorts := Nat.le_trans h₂.shorts h₁.shorts
  fewer h := by
    obtain h | h := h₂.fewer h
    · exact (h₁.fewer h).imp_right (Nat.lt_of_le_of_lt h₂.shorts)
    · exact .inr (Nat.lt_of_lt_of_le h h₁.shorts)

theorem same_replace {a b : Item} (hab : a.Same b) (pre post : List Item) :
    List.Forall₂ Item.Same (pre ++ a :: post) (pre ++ b :: post) := by
  induction pre with
  | nil => exact .cons hab (List.forall₂_same.mpr fun i _ => .refl i)
  | cons first pre ih => exact .cons (.refl first) ih

theorem shortsOf_replace (a : Item) (pre post : List Item) :
    shortsOf (pre ++ a :: post) = shortsOf pre + a.shorts + shortsOf post := by
  simp only [shortsOf, map_append, map_cons, sum_append, sum_cons]
  omega

theorem originsOf_replace {a b : Item} (hsize : a.bytes.length = b.bytes.length)
    (hjumps : ∀ base, (a.jumps base).map Prod.fst = (b.jumps base).map Prod.fst)
    (base : Nat) (pre post : List Item) :
    originsOf base (pre ++ a :: post) = originsOf base (pre ++ b :: post) := by
  rw [originsOf_append, originsOf_append, originsOf_cons, originsOf_cons, hsize, hjumps]

theorem forall_mem_replace {a b : Item} (hb : b.Valid)
    (hall : ∀ i ∈ pre ++ a :: post, i.Valid) : ∀ i ∈ pre ++ b :: post, i.Valid := by
  intro i hi
  rw [mem_append, mem_cons] at hi
  obtain hi | rfl | hi := hi
  · exact hall i (mem_append_left _ hi)
  · exact hb
  · exact hall i (mem_append_right _ (mem_cons_of_mem a hi))

theorem kept_replace {a b : Item} (hlaid : LaidOut s (pre ++ a :: post)) (hsame : a.Same b)
    (hvalid : b.Valid) (hsize : a.bytes.length = b.bytes.length)
    (hjumps : ∀ base, (a.jumps base).map Prod.fst = (b.jumps base).map Prod.fst)
    (hshorts : a.shorts = b.shorts) :
    Kept s (s.withItems (pre ++ b :: post)) (pre ++ a :: post) (pre ++ b :: post) where
  laidOut := ⟨rfl, hlaid.origins.trans (originsOf_replace hsize hjumps 0 pre post),
    forall_mem_replace hvalid hlaid.valid⟩
  same := same_replace hsame pre post
  aims marks h := h.imp fun j mark hj k hk => (hj k hk).trans (offset_replace hsize pre post k)
  length := rfl
  more := id
  shorts := Nat.le_of_eq (by rw [shortsOf_replace, shortsOf_replace, hshorts])
  fewer := .inl

theorem kept_widen {condition a lo hi : Nat} (hcond : condition < 5)
    (hlaid : LaidOut s (pre ++ .short condition a :: post)) :
    Kept s ⟨bytesOf (pre ++ .long condition lo hi :: post),
      s.jumps.map fun jj => ⟨Fixups.shift ((bytesOf pre).length + 1) jj.origin,
        Fixups.shift ((bytesOf pre).length + 1) jj.target⟩, true⟩
      (pre ++ .short condition a :: post) (pre ++ .long condition lo hi :: post) where
  laidOut := by
    refine ⟨rfl, ?_, forall_mem_replace hcond hlaid.valid⟩
    rw [originsOf_widen condition a, ← hlaid.origins, map_map, map_map]
    rfl
  same := same_replace (.short_long ..) pre post
  aims marks h := by
    rw [Aims, forall₂_map_left_iff]
    refine h.imp fun j mark hj k hk => ?_
    rw [offset_widen condition a, ← hj k hk]
  length := length_map ..
  more := nofun
  shorts := by
    rw [shortsOf_replace, shortsOf_replace]
    exact Nat.add_le_add_right (Nat.add_le_add_left (Nat.zero_le _) _) _
  fewer _ := by
    right
    rw [shortsOf_replace, shortsOf_replace]
    exact Nat.add_lt_add_right (Nat.add_lt_add_left Nat.zero_lt_one _) _

theorem jumpsOf_replace {a b : Item} (hsize : a.bytes.length = b.bytes.length) {x y : Nat × Int}
    (ha : a.jumps (bytesOf pre).length = [x]) (hb : b.jumps (bytesOf pre).length = [y]) :
    jumpsOf 0 (pre ++ b :: post)
      = (jumpsOf 0 (pre ++ a :: post)).set (originsOf 0 pre).length y := by
  have hlen : (originsOf 0 pre).length = (jumpsOf 0 pre).length := length_map ..
  rw [jumpsOf_append, jumpsOf_append, jumpsOf, jumpsOf, Nat.zero_add, ha, hb, hsize,
    singleton_append, singleton_append, hlen, set_append_length]

theorem short_resolved {j : Jump} (hlo : scharMin < (j.target - j.origin : Int))
    (hhi : (j.target - j.origin : Int) ≤ scharMax) :
    (j.origin, programFormat.short j.origin (byte (j.target - j.origin))) = resolved j := by
  have hsigned := signed_byte hlo hhi
  rw [scharMin] at hlo
  rw [scharMax] at hhi
  rw [resolved, wrap16_eq (by omega) (by omega)]
  exact congrArg (fun d => (j.origin, (j.origin : Int) + d)) hsigned

theorem fixup_kept (hlaid : LaidOut s items) (hrun : s.fixup i = .ok s') :
    ∃ items', Kept s s' items items' ∧ (s'.moreFixupsNeeded = false → s'.jumps = s.jumps ∧
      ∃ j, s.jumps[i]? = some j ∧ jumpsOf 0 items' = (jumpsOf 0 items).set i (resolved j)) := by
  obtain ⟨pre, item, post, j, rfl, hj, ho, rfl, hcase⟩ := fixup_cases hlaid hrun
  obtain ⟨condition, lo, hi, rfl, hcond, rfl⟩ |
    ⟨condition, a, rfl, hcond, ⟨hlo, hhi, rfl⟩ | rfl⟩ := hcase
  · refine ⟨_, kept_replace hlaid (.long_long ..) hcond rfl (fun _ => rfl) rfl,
      fun _ => ⟨rfl, j, hj, ?_⟩⟩
    refine jumpsOf_replace ?_ (x := (_, _)) rfl ?_
    · rfl
    · rw [resolved, ho]
      rfl
  · refine ⟨_, kept_replace hlaid (.short_short ..) hcond rfl (fun _ => rfl) rfl,
      fun _ => ⟨rfl, j, hj, ?_⟩⟩
    refine jumpsOf_replace ?_ (x := (_, _)) rfl ?_
    · rfl
    · rw [← short_resolved hlo hhi, ho]
      rfl
  · rw [ho]
    exact ⟨_, kept_widen hcond hlaid, nofun⟩

theorem Kept.refl (hlaid : LaidOut s items) : Kept s s items items where
  laidOut := hlaid
  same := List.forall₂_same.mpr fun i _ => .refl i
  aims _ h := h
  length := rfl
  more := id
  shorts := Nat.le_refl _
  fewer := .inl

end Fixup

/-! ### The passes -/

section Passes

variable {s s' : Fixups} {items : List Item}

theorem LaidOut.length_jumpsOf (hlaid : LaidOut s items) :
    (jumpsOf 0 items).length = s.jumps.length := by
  have horigins := congrArg List.length hlaid.origins
  rw [length_map, originsOf, length_map] at horigins
  exact horigins.symm

theorem foldlM_fixup_kept (hlaid : LaidOut s items) {n : Nat}
    (hrun : (List.range n).foldlM Fixups.fixup s = .ok s') :
    ∃ items', Kept s s' items items' ∧ (s'.moreFixupsNeeded = false → s'.jumps = s.jumps ∧
      ∀ k < n, (jumpsOf 0 items')[k]? = (s.jumps[k]?).map resolved) := by
  induction n generalizing s' with
  | zero =>
    cases hrun
    exact ⟨items, .refl hlaid, fun _ => ⟨rfl, nofun⟩⟩
  | succ n ih =>
    rw [range_succ, foldlM_append] at hrun
    obtain ⟨s₁, hs₁, hrun⟩ := bind_eq_ok.mp hrun
    obtain ⟨items₁, hkept₁, hwritten₁⟩ := ih hs₁
    have hlast : s₁.fixup n = .ok s' := by
      obtain ⟨s₂, hs₂, hrun⟩ := bind_eq_ok.mp hrun
      cases hrun
      exact hs₂
    obtain ⟨items', hkept, hwritten⟩ := fixup_kept hkept₁.laidOut hlast
    refine ⟨items', hkept₁.trans hkept, fun hmore => ?_⟩
    obtain ⟨hjumps, j, hj, hset⟩ := hwritten hmore
    obtain ⟨hjumps₁, hbefore⟩ := hwritten₁ (hkept.more hmore)
    refine ⟨hjumps.trans hjumps₁, fun k hk => ?_⟩
    have hlen := hkept₁.laidOut.length_jumpsOf
    rw [hjumps₁] at hlen hj
    obtain ⟨hn, -⟩ := List.getElem?_eq_some_iff.mp hj
    rw [hset, getElem?_set]
    split
    · rename_i heq
      rw [if_pos (by omega), ← heq, hj]
      rfl
    · exact hbefore k (by omega)

/-- **A pass**: the layout is kept, and a pass that makes no jump longer leaves every operand
as the table says. -/
theorem pass_kept (hlaid : LaidOut s items) (hrun : s.pass = .ok s') :
    ∃ items', Kept { s with moreFixupsNeeded := false } s' items items' ∧
      (s'.moreFixupsNeeded = false → jumpsOf 0 items' = s'.jumps.map resolved) := by
  have hlaid₀ : LaidOut { s with moreFixupsNeeded := false } items :=
    ⟨hlaid.program, hlaid.origins, hlaid.valid⟩
  obtain ⟨items', hkept, hwritten⟩ := foldlM_fixup_kept hlaid₀ hrun
  refine ⟨items', hkept, fun hmore => ext_getElem? fun k => ?_⟩
  obtain ⟨hjumps, hbefore⟩ := hwritten hmore
  rw [getElem?_map, hjumps]
  obtain hk | hk := Nat.lt_or_ge k s.jumps.length
  · exact hbefore k hk
  · have hlen := hkept.laidOut.length_jumpsOf
    rw [hjumps] at hlen
    rw [getElem?_eq_none (hlen ▸ hk), getElem?_eq_none hk]
    rfl

/-- **All passes**: the pieces stay but for the operands of jumps, the table leads to the
same pieces, and every operand is what it says. -/
theorem passes_spec {fuel : Nat} (hlaid : LaidOut s items) (hrun : s.passes fuel = .ok s') :
    ∃ items', LaidOut s' items' ∧ List.Forall₂ Item.Same items items' ∧
      (∀ marks, Aims items s.jumps marks → Aims items' s'.jumps marks) ∧
        jumpsOf 0 items' = s'.jumps.map resolved := by
  induction fuel generalizing s items with
  | zero => cases hrun
  | succ fuel ih =>
    obtain ⟨s₁, hs₁, hrun⟩ := bind_eq_ok.mp hrun
    obtain ⟨items₁, hkept, hwritten⟩ := pass_kept hlaid hs₁
    split at hrun
    · obtain ⟨items', hlaid', hsame, haims, hjumps⟩ := ih hkept.laidOut hrun
      exact ⟨items', hlaid', forall₂_same_trans hkept.same hsame,
        fun marks h => haims marks (hkept.aims marks h), hjumps⟩
    · rename_i hmore
      cases hrun
      exact ⟨items₁, hkept.laidOut, hkept.same, fun marks h => hkept.aims marks h,
        hwritten (Bool.eq_false_iff.mpr hmore)⟩

/-! ### The passes come to an end -/

theorem ne_outOfFuel_bind {α β : Type} {x : Except BytecodeError α}
    {f : α → Except BytecodeError β} (hx : x ≠ .error .outOfFuel)
    (hf : ∀ a, f a ≠ .error .outOfFuel) : x >>= f ≠ .error .outOfFuel := by
  intro h
  obtain h | ⟨a, -, h⟩ := bind_eq_error.mp h
  · exact hx h
  · exact hf a h

theorem readByte_ne_outOfFuel (program : List Nat) (place : Nat) :
    readByte program place ≠ .error .outOfFuel := by
  rw [readByte]
  split <;> rintro ⟨⟩

theorem checkOpcode_ne_outOfFuel (opcode : Nat) : checkOpcode opcode ≠ .error .outOfFuel := by
  rw [checkOpcode]
  split <;> rintro ⟨⟩

theorem checkTarget_ne_outOfFuel (s : Fixups) (j : Jump) :
    s.checkTarget j ≠ .error .outOfFuel := by
  rw [Fixups.checkTarget]
  split
  · rintro ⟨⟩
  · exact ne_outOfFuel_bind (readByte_ne_outOfFuel _ _) checkOpcode_ne_outOfFuel

theorem widen_ne_outOfFuel (s : Fixups) (origin opcode : Nat) (jump : Int) :
    s.widen origin opcode jump ≠ .error .outOfFuel := by
  rw [Fixups.widen]
  split <;> rintro ⟨⟩

theorem fixup_ne_outOfFuel (s : Fixups) (i : Nat) : s.fixup i ≠ .error .outOfFuel := by
  rw [Fixups.fixup]
  split
  · rintro ⟨⟩
  · refine ne_outOfFuel_bind (readByte_ne_outOfFuel _ _) fun opcode => ?_
    refine ne_outOfFuel_bind (checkTarget_ne_outOfFuel _ _) fun _ => ?_
    split
    · rintro ⟨⟩
    · split
      · rintro ⟨⟩
      · split
        · rintro ⟨⟩
        · exact widen_ne_outOfFuel _ _ _ _
      · rintro ⟨⟩

theorem foldlM_ne_outOfFuel {α σ : Type} {f : σ → α → Except BytecodeError σ}
    (hf : ∀ s a, f s a ≠ .error .outOfFuel) (l : List α) (s : σ) :
    l.foldlM f s ≠ .error .outOfFuel := by
  induction l generalizing s with
  | nil => rintro ⟨⟩
  | cons a l ih => exact ne_outOfFuel_bind (hf s a) ih

theorem shorts_le_jumps (items : List Item) (base : Nat) :
    shortsOf items ≤ (jumpsOf base items).length := by
  induction items generalizing base with
  | nil => exact Nat.le_refl _
  | cons i l ih =>
    rw [shortsOf, map_cons, sum_cons, jumpsOf, length_append]
    refine Nat.add_le_add ?_ (ih _)
    cases i with
    | plain b => exact Nat.le_refl _
    | short condition a => exact Nat.le_refl _
    | long condition lo hi => exact Nat.zero_le _

theorem passes_ne_outOfFuel {fuel : Nat} (hlaid : LaidOut s items)
    (hfuel : shortsOf items < fuel) : s.passes fuel ≠ .error .outOfFuel := by
  induction fuel generalizing s items with
  | zero => exact absurd hfuel (Nat.not_lt_zero _)
  | succ fuel ih =>
    intro h
    obtain h | ⟨s₁, hs₁, h⟩ := bind_eq_error.mp h
    · exact foldlM_ne_outOfFuel fixup_ne_outOfFuel _ _ h
    · obtain ⟨items₁, hkept, -⟩ := pass_kept hlaid hs₁
      split at h
      · rename_i hmore
        obtain hfalse | hfewer := hkept.fewer hmore
        · cases hfalse
        · exact ih hkept.laidOut (by omega) h
      · cases h

end Passes

end XEmacs.Bytecode
