import XEmacs.Bytecode.Translate

/-!
# The program is the source

What `optimize_byte_code` returns has the instructions of the source, in their order and with
their operands; its jumps lead where they led (`program_preserved`).
-/

namespace XEmacs.Bytecode

open Fallible List

/-! ### The statement -/

/-- A jump to `target` in the source and one to `target'` in the program: if the first leads
to an instruction, the second leads to its translation. -/
def LeadsAlong (src out : List (Nat × Instr)) (target target' : Int) : Prop :=
  ∀ (k : Nat) (x : Nat × Instr), src[k]? = some x → (x.1 : Int) = target →
    ∃ y, out[k]? = some y ∧ (y.1 : Int) = target'

/-- The same instruction with the same operands. -/
def SameInstr (src out : List (Nat × Instr)) : Instr → Instr → Prop
  | .jump condition target, .jump condition' target' =>
    condition = condition' ∧ LeadsAlong src out target target'
  | i, i' => i = i'

/-- The same instruction, but an assignment to a keyword is ignored. -/
def Translates (constants : List Constant) (src out : List (Nat × Instr)) : Instr → Instr → Prop
  | .nargs .varset arg, i =>
    if constants[arg]? = some .keyword then i = .simple Bdiscard else i = .nargs .varset arg
  | i, i' => SameInstr src out i i'

/-- All jumps of the program are within a signed 16-bit distance. -/
def Optimized.JumpsFit (r : Optimized) : Prop :=
  ∀ j ∈ r.jumps, -32768 ≤ (j.target - j.origin : Int) ∧ (j.target - j.origin : Int) ≤ 32767

/-! ### From the table of jumps to places in the program -/

theorem icount_eq {s : Translation} {x : Int} {place : Nat} (h : s.icount x = .ok place) :
    0 ≤ x ∧ s.icounts[x.toNat]? = some place := by
  rw [Translation.icount] at h
  split at h
  · cases h
  · rename_i hnonneg
    split at h
    · cases h
    · rename_i hget
      cases h
      exact ⟨Int.not_lt.mp hnonneg, hget⟩

theorem fixUpJump_eq {s : Translation} {e : Nat × Int} {j : Jump} (h : fixUpJump s e = .ok j) :
    s.icounts[e.1]? = some j.origin ∧ 0 ≤ e.2 ∧ s.icounts[e.2.toNat]? = some j.target := by
  obtain ⟨origin, horigin, h⟩ := bind_eq_ok.mp h
  obtain ⟨target, htarget, h⟩ := bind_eq_ok.mp h
  obtain ⟨opcode, -, h⟩ := bind_eq_ok.mp h
  obtain ⟨_, -, h⟩ := bind_eq_ok.mp h
  cases h
  exact ⟨(icount_eq horigin).2, icount_eq htarget⟩

theorem mapM_eq_ok {α β : Type} {f : α → Except BytecodeError β} {l : List α} {l' : List β}
    (h : l.mapM f = .ok l') : List.Forall₂ (fun a b => f a = .ok b) l l' := by
  induction l generalizing l' with
  | nil =>
    cases h
    exact .nil
  | cons a l ih =>
    rw [mapM_cons] at h
    obtain ⟨b, hb, h⟩ := bind_eq_ok.mp h
    obtain ⟨rest, hrest, h⟩ := bind_eq_ok.mp h
    cases h
    exact .cons hb (ih hrest)

theorem map_eq_of_forall₂ {α β γ : Type} {R : α → β → Prop} {S : α → γ → Prop} {f : β → γ}
    {l : List α} {l₁ : List β} {l₂ : List γ} (h₁ : List.Forall₂ R l l₁)
    (h₂ : List.Forall₂ S l l₂) (hf : ∀ a b c, R a b → S a c → f b = c) : l₁.map f = l₂ := by
  induction h₁ generalizing l₂ with
  | nil =>
    cases h₂
    rfl
  | cons hfirst _ ih =>
    cases h₂ with
    | cons hfirst' hrest => rw [map_cons, hf _ _ _ hfirst hfirst', ih hrest]

section Places

variable {constants : List Constant} {p : Piece} {ps : List Piece}

theorem Rewrites.entry_eq_nil {i i' : Instr} (h : Rewrites constants i i') (pos : Nat) :
    i.entry pos = [] := by
  cases h with
  | same i hjump => cases i <;> first | rfl | cases hjump
  | ignored arg hkeyword => rfl

theorem getElem?_counts_zero (base : Nat) (pre post : List Nat) (p : Piece) :
    (pre ++ (p.counts base ++ post))[pre.length]? = some base := by
  rw [getElem?_append_right (Nat.le_refl _), Nat.sub_self]
  rfl

theorem getElem?_counts_one {base : Nat} (pre post : List Nat) (hsize : 2 ≤ p.size) :
    (pre ++ (p.counts base ++ post))[pre.length + 1]? = some (base + 1) := by
  obtain ⟨n, hn⟩ := Nat.exists_eq_add_of_le hsize
  have hcounts : p.counts base = base :: (base + 1) :: List.replicate n (base + 1) := by
    rw [Piece.counts, hn, Nat.add_comm 2 n]
    rfl
  rw [getElem?_append_right (Nat.le_add_right _ 1), hcounts, Nat.add_sub_cancel_left]
  rfl

theorem entries_origins (hps : ∀ p ∈ ps, p.Good constants) (pre : List Nat) (base : Nat) :
    List.Forall₂ (fun e o => (pre ++ countsOf base ps)[e.1]? = some o)
      (entriesOf pre.length ps) (originsOf base (ps.map Piece.item)) := by
  induction ps generalizing pre base with
  | nil => exact .nil
  | cons p ps ih =>
    have hp := hps p mem_cons_self
    have hlater := ih (fun q hq => hps q (mem_cons_of_mem p hq)) (pre ++ p.counts base)
      (base + p.item.bytes.length)
    rw [length_append, hp.length_counts, append_assoc] at hlater
    rw [map_cons, originsOf_cons, entriesOf, countsOf]
    refine rel_append ?_ hlater
    have hitem := hp.item
    cases hi : p.item with
    | plain bytes =>
      rw [hi] at hitem
      obtain ⟨-, i, -, -, hrewrites⟩ := hitem
      rw [hrewrites.entry_eq_nil]
      exact .nil
    | short condition a | long condition lo hi =>
      rw [hi] at hitem
      obtain ⟨hsize, target, hinstr⟩ := hitem
      rw [hinstr]
      exact .cons (getElem?_counts_one pre _ hsize) .nil

theorem counts_offset (hps : ∀ p ∈ ps, p.Good constants) (pre : List Nat) (base : Nat) {k : Nat}
    {x : Nat × Instr} (hx : (sourceOf pre.length ps)[k]? = some x) :
    (pre ++ countsOf base ps)[x.1]? = some (base + offset (ps.map Piece.item) k) := by
  induction ps generalizing pre base k with
  | nil => cases hx
  | cons p ps ih =>
    have hp := hps p mem_cons_self
    rw [countsOf]
    cases k with
    | zero =>
      cases hx
      exact getElem?_counts_zero base pre _ p
    | succ k =>
      have hlater := ih (fun q hq => hps q (mem_cons_of_mem p hq)) (pre ++ p.counts base)
        (base + p.item.bytes.length) (k := k)
      rw [length_append, hp.length_counts, append_assoc] at hlater
      rw [hlater hx, map_cons, offset_cons_succ, Nat.add_assoc]

theorem laidOut_start {s : Translation} {jumps : List Jump} (hps : ∀ p ∈ ps, p.Good constants)
    (hicounts : s.icounts = countsOf 0 ps) (hprogram : s.program = bytesOf (ps.map Piece.item))
    (hjumps : List.Forall₂ (fun e j => fixUpJump s e = .ok j) (entriesOf 0 ps) jumps) :
    LaidOut ⟨s.program, jumps, true⟩ (ps.map Piece.item) where
  program := hprogram
  origins := by
    refine map_eq_of_forall₂ hjumps (entries_origins hps [] 0) fun e j o hj ho => ?_
    have horigin := (fixUpJump_eq hj).1
    rw [hicounts] at horigin
    exact Option.some.inj (horigin.symm.trans ho)
  valid i hi := by
    obtain ⟨p, hp, rfl⟩ := List.mem_map.mp hi
    exact (hps p hp).valid

/-- The piece a jump of the source leads to. -/
def markOf (src : List (Nat × Instr)) (e : Nat × Int) : Nat → Prop :=
  fun k => ∃ x, src[k]? = some x ∧ (x.1 : Int) = e.2

theorem aims_start {s : Translation} {jumps : List Jump} (hps : ∀ p ∈ ps, p.Good constants)
    (hicounts : s.icounts = countsOf 0 ps)
    (hjumps : List.Forall₂ (fun e j => fixUpJump s e = .ok j) (entriesOf 0 ps) jumps) :
    Aims (ps.map Piece.item) jumps ((entriesOf 0 ps).map (markOf (sourceOf 0 ps))) := by
  rw [Aims, forall₂_map_right_iff]
  refine hjumps.flip.imp ?_
  rintro j e hj k ⟨x, hx, hxe⟩
  obtain ⟨-, hnonneg, htarget⟩ := fixUpJump_eq hj
  have hplace := counts_offset hps [] 0 hx
  rw [nil_append, Nat.zero_add] at hplace
  rw [← hxe, Int.toNat_natCast, hicounts, hplace] at htarget
  exact (Option.some.inj htarget).symm

/-! ### Reading the program -/

/-- What a piece is read as, where `leads` relates the targets of jumps. -/
inductive Matches (constants : List Constant) (leads : Int → Int → Prop) :
    Instr → Instr → Prop where
  | rewrites {i i' : Instr} (h : Rewrites constants i i') : Matches constants leads i i'
  | jump {condition : Nat} {target target' : Int} (h : leads target target') :
    Matches constants leads (.jump condition target) (.jump condition target')

theorem ReadsAs.ne_nil {bytes : List Nat} {i : Instr} (h : ReadsAs bytes i) : bytes ≠ [] := by
  rintro rfl
  cases h 0 []

theorem readAll_cons {bytes rest : List Nat} {pos fuel : Nat} {i : Instr}
    {out : List (Nat × Instr)} (hne : bytes ≠ [])
    (hread : readInstr programFormat pos (bytes ++ rest) = some (i, bytes.length))
    (hrest : readAll programFormat 0 fuel (pos + bytes.length) rest = some out) :
    readAll programFormat 0 (fuel + 1) pos (bytes ++ rest) = some ((pos, i) :: out) := by
  have hlen : ¬ (bytes ++ rest).length ≤ 0 := by
    rw [length_append]
    have hpos := List.length_pos_iff.mpr hne
    omega
  rw [readAll, if_neg hlen, hread, Option.bind_some]
  simp only [drop_left, hrest, Option.map_some]

theorem readInstr_short {condition : Nat} (hcond : condition < 5) (a base : Nat)
    (rest : List Nat) :
    readInstr programFormat base ((Item.short condition a).bytes ++ rest)
      = some (.jump condition (programFormat.short (base + 1) a), 2) := by
  simp only [Item.bytes, cons_append, nil_append, readInstr, classify_rgoto hcond]

theorem readInstr_long {condition : Nat} (hcond : condition < 5) (lo hi base : Nat)
    (rest : List Nat) :
    readInstr programFormat base ((Item.long condition lo hi).bytes ++ rest)
      = some (.jump condition (programFormat.long (base + 1) lo hi), 3) := by
  simp only [Item.bytes, cons_append, nil_append, readInstr, classify_goto hcond]

theorem readInstr_piece {leads : Int → Int → Prop} {item : Item} {pos base : Nat}
    {es xs : List (Nat × Int)} (hp : p.Good constants) (hsame : p.item.Same item)
    (hvalid : item.Valid)
    (hleads : List.Forall₂ (fun e x : Nat × Int => leads e.2 x.2) (p.instr.entry pos ++ es)
      (item.jumps base ++ xs)) (rest : List Nat) :
    ∃ i, item.bytes ≠ [] ∧ Matches constants leads p.instr i ∧
      readInstr programFormat base (item.bytes ++ rest) = some (i, item.bytes.length) ∧
        List.Forall₂ (fun e x : Nat × Int => leads e.2 x.2) es xs := by
  obtain ⟨instr, size, old⟩ := p
  have hitem := hp.item
  cases hsame with
  | plain b =>
    obtain ⟨-, i, hreads, -, hrewrites⟩ := hitem
    rw [hrewrites.entry_eq_nil] at hleads
    exact ⟨i, hreads.ne_nil, .rewrites hrewrites, hreads base rest, hleads⟩
  | short_short condition a b =>
    obtain ⟨-, target, rfl⟩ := hitem
    cases hleads with
    | cons hfirst hrest =>
      exact ⟨_, cons_ne_nil _ _, .jump hfirst, readInstr_short hvalid b base rest, hrest⟩
  | short_long condition a lo hi =>
    obtain ⟨-, target, rfl⟩ := hitem
    cases hleads with
    | cons hfirst hrest =>
      exact ⟨_, cons_ne_nil _ _, .jump hfirst, readInstr_long hvalid lo hi base rest, hrest⟩
  | long_long condition lo hi lo' hi' =>
    obtain ⟨-, target, rfl⟩ := hitem
    cases hleads with
    | cons hfirst hrest =>
      exact ⟨_, cons_ne_nil _ _, .jump hfirst, readInstr_long hvalid lo' hi' base rest,
        hrest⟩

/-- **Reading the program** finds the instructions, at the places of their pieces. -/
theorem readAll_pieces {leads : Int → Int → Prop} {items : List Item} {pos base fuel : Nat}
    (hps : ∀ p ∈ ps, p.Good constants)
    (hsame : List.Forall₂ Item.Same (ps.map Piece.item) items) (hvalid : ∀ i ∈ items, i.Valid)
    (hleads : List.Forall₂ (fun e x : Nat × Int => leads e.2 x.2) (entriesOf pos ps)
      (jumpsOf base items)) (hfuel : (bytesOf items).length < fuel) :
    ∃ out, readAll programFormat 0 fuel base (bytesOf items) = some out ∧
      List.Forall₂ (fun x y : Nat × Instr => Matches constants leads x.2 y.2)
        (sourceOf pos ps) out ∧
      ∀ k < ps.length, (out[k]?).map Prod.fst = some (base + offset items k) := by
  induction ps generalizing items pos base fuel with
  | nil =>
    cases hsame
    obtain ⟨fuel, rfl⟩ := Nat.exists_eq_succ_of_ne_zero (Nat.ne_of_gt hfuel)
    exact ⟨[], rfl, .nil, nofun⟩
  | cons p ps ih =>
    cases hsame with
    | @cons _ item _ items hfirst hsame =>
      obtain ⟨i, hne, hmatches, hread, hleads⟩ := readInstr_piece (hps p mem_cons_self)
        hfirst (hvalid item mem_cons_self) hleads (bytesOf items)
      have hpos := List.length_pos_iff.mpr hne
      rw [bytesOf_cons, length_append] at hfuel
      obtain ⟨fuel, rfl⟩ : ∃ n, fuel = n + 1 := ⟨fuel - 1, by omega⟩
      have hfuel' : (bytesOf items).length < fuel := by omega
      obtain ⟨out, hout, hall, hplaces⟩ := ih
        (fun q hq => hps q (mem_cons_of_mem p hq)) hsame
        (fun j hj => hvalid j (mem_cons_of_mem item hj)) hleads hfuel'
      refine ⟨(base, i) :: out, readAll_cons hne hread hout, .cons hmatches hall, ?_⟩
      rintro (_ | k) hk
      · rfl
      · rw [offset_cons_succ, ← Nat.add_assoc]
        exact hplaces k (Nat.lt_of_succ_lt_succ hk)

theorem length_bytesOf_le {items : List Item} (hps : ∀ p ∈ ps, p.Good constants)
    (hsame : List.Forall₂ Item.Same (ps.map Piece.item) items) :
    2 * (bytesOf items).length ≤ 3 * sizeOf ps := by
  induction ps generalizing items with
  | nil =>
    cases hsame
    exact Nat.le_refl 0
  | cons p ps ih =>
    cases hsame with
    | @cons _ item _ items hfirst hsame =>
      have hlater := ih (fun q hq => hps q (mem_cons_of_mem p hq)) hsame
      have hone : 2 * item.bytes.length ≤ 3 * p.size := by
        have hitem := (hps p mem_cons_self).item
        obtain ⟨instr, size, old⟩ := p
        cases hfirst with
        | plain b =>
          exact Nat.mul_le_mul (by decide) hitem.1
        | short_short | short_long | long_long =>
          have htwo : 2 ≤ size := hitem.1
          simp only [Item.bytes, length_cons, length_nil]
          omega
      rw [bytesOf_cons, length_append, sizeOf, map_cons, sum_cons, ← sizeOf]
      omega

end Places

/-! ### The translator -/

theorem optimizeByteCode_spec {constants : List Constant} {chars : List Nat} {r : Optimized}
    (h : optimizeByteCode constants chars = .ok r) :
    ∃ ps items, (∀ p ∈ ps, Piece.Good constants p) ∧ readSource chars = some (sourceOf 0 ps) ∧
      sizeOf ps ≤ chars.length + 1 ∧ r.program = bytesOf items ∧ (∀ i ∈ items, i.Valid) ∧
      List.Forall₂ Item.Same (ps.map Piece.item) items ∧
      Aims items r.jumps ((entriesOf 0 ps).map (markOf (sourceOf 0 ps))) ∧
      jumpsOf 0 items = r.jumps.map resolved := by
  obtain ⟨s, hs, h⟩ := bind_eq_ok.mp h
  obtain ⟨jumps, hjumps, h⟩ := bind_eq_ok.mp h
  obtain ⟨f, hf, h⟩ := bind_eq_ok.mp h
  cases h
  obtain ⟨ps, hps, hread, hsize, hicounts, hprogram, hentries⟩ := Translation.translate_spec hs
  rw [length_append] at hsize
  have hjumps := mapM_eq_ok hjumps
  rw [hentries] at hjumps
  obtain ⟨items, hlaid, hsame, haims, hwritten⟩ :=
    passes_spec (laidOut_start hps hicounts hprogram hjumps) hf
  exact ⟨ps, items, hps, hread, hsize, hlaid.program, hlaid.valid, hsame,
    haims _ (aims_start hps hicounts hjumps), hwritten⟩

theorem icount_ne_outOfFuel (s : Translation) (x : Int) : s.icount x ≠ .error .outOfFuel := by
  rw [Translation.icount]
  split
  · rintro ⟨⟩
  · split <;> rintro ⟨⟩

theorem fixUpJump_ne_outOfFuel (s : Translation) (e : Nat × Int) :
    fixUpJump s e ≠ .error .outOfFuel := by
  refine ne_outOfFuel_bind (icount_ne_outOfFuel s _) fun origin => ?_
  refine ne_outOfFuel_bind (icount_ne_outOfFuel s _) fun target => ?_
  refine ne_outOfFuel_bind (readByte_ne_outOfFuel _ _) fun opcode => ?_
  exact ne_outOfFuel_bind (checkOpcode_ne_outOfFuel _) fun _ => nofun

theorem mapM_ne_outOfFuel {α β : Type} {f : α → Except BytecodeError β}
    (hf : ∀ a, f a ≠ .error .outOfFuel) (l : List α) : l.mapM f ≠ .error .outOfFuel := by
  induction l with
  | nil => rintro ⟨⟩
  | cons a l ih =>
    rw [mapM_cons]
    exact ne_outOfFuel_bind (hf a) fun _ => ne_outOfFuel_bind ih fun _ => nofun

theorem optimizeByteCode_ne_outOfFuel (constants : List Constant) (chars : List Nat) :
    optimizeByteCode constants chars ≠ .error .outOfFuel := by
  intro h
  obtain h | ⟨s, hs, h⟩ := bind_eq_error.mp h
  · refine Translation.translate_ne_outOfFuel (Nat.succ_pos _) ?_ h
    rw [length_append]
    exact Nat.le_refl _
  · obtain ⟨ps, hps, -, -, hicounts, hprogram, hentries⟩ := Translation.translate_spec hs
    obtain h | ⟨jumps, hjumps, h⟩ := bind_eq_error.mp h
    · exact mapM_ne_outOfFuel (fixUpJump_ne_outOfFuel s) _ h
    · have hjumps := mapM_eq_ok hjumps
      rw [hentries] at hjumps
      have hlaid := laidOut_start hps hicounts hprogram hjumps
      obtain h | ⟨f, -, h⟩ := bind_eq_error.mp h
      · refine passes_ne_outOfFuel hlaid ?_ h
        exact Nat.lt_succ_of_le (hlaid.length_jumpsOf ▸ shorts_le_jumps _ 0)
      · cases h

theorem length_sourceOf (pos : Nat) (ps : List Piece) : (sourceOf pos ps).length = ps.length := by
  induction ps generalizing pos with
  | nil => rfl
  | cons p ps ih => exact congrArg Nat.succ (ih _)

/-- A target in the source and one in the program: if there is an instruction at the first,
its piece is at the second. -/
def Leads (ps : List Piece) (items : List Item) (target target' : Int) : Prop :=
  ∀ (k : Nat) (x : Nat × Instr), (sourceOf 0 ps)[k]? = some x → (x.1 : Int) = target →
    (offset items k : Int) = target'

theorem leads_of_aims {r : Optimized} {ps : List Piece} {items : List Item} (hfit : r.JumpsFit)
    (haims : Aims items r.jumps ((entriesOf 0 ps).map (markOf (sourceOf 0 ps))))
    (hwritten : jumpsOf 0 items = r.jumps.map resolved) :
    List.Forall₂ (fun e x : Nat × Int => Leads ps items e.2 x.2) (entriesOf 0 ps)
      (jumpsOf 0 items) := by
  have htargets : r.jumps.map resolved
      = r.jumps.map fun j => (j.origin, (j.target : Int)) := by
    refine map_congr_left fun j hj => ?_
    obtain ⟨hlo, hhi⟩ := hfit j hj
    rw [resolved, wrap16_eq hlo hhi]
    exact Prod.ext rfl (by omega)
  rw [hwritten, htargets, forall₂_map_right_iff]
  rw [Aims, forall₂_map_right_iff] at haims
  refine haims.flip.imp fun e j hj k y hy he => ?_
  exact congrArg Nat.cast (hj k ⟨y, hy, he⟩).symm

theorem Matches.translates {constants : List Constant} {src out : List (Nat × Instr)}
    {leads : Int → Int → Prop} {i i' : Instr} (h : Matches constants leads i i')
    (hleads : ∀ t t', leads t t' → LeadsAlong src out t t') :
    Translates constants src out i i' := by
  cases h with
  | rewrites h =>
    cases h with
    | same i hjump hkeyword =>
      cases i with
      | nargs group arg =>
        cases group with
        | varset => exact (if_neg (hkeyword arg rfl)).mpr rfl
        | varref | varbind | call | unbind => rfl
      | jump condition target => cases hjump
      | simple | constant | counted => rfl
    | ignored arg hkeyword => exact (if_pos hkeyword).mpr rfl
  | jump h => exact ⟨rfl, hleads _ _ h⟩

/-- **The translator preserves programs.** It comes to an end, its output fits into the space
its caller has for it, and where the jumps are within 16 bits, the output has the instructions
of the source. -/
theorem program_preserved (constants : List Constant) (chars : List Nat) :
    optimizeByteCode constants chars ≠ .error .outOfFuel ∧
      ∀ r, optimizeByteCode constants chars = .ok r →
        r.program.length ≤ 2 * chars.length + 1 ∧
        (r.JumpsFit → ∃ src out, readSource chars = some src ∧
          readProgram r.program = some out ∧
          List.Forall₂ (fun x y => Translates constants src out x.2 y.2) src out) := by
  refine ⟨optimizeByteCode_ne_outOfFuel constants chars, fun r hr => ?_⟩
  obtain ⟨ps, items, hps, hread, hsize, hprogram, hvalid, hsame, haims, hwritten⟩ :=
    optimizeByteCode_spec hr
  constructor
  · have hlen := length_bytesOf_le hps hsame
    rw [hprogram]
    omega
  · intro hfit
    obtain ⟨out, hout, hall, hplaces⟩ := readAll_pieces hps hsame hvalid
      (leads_of_aims hfit haims hwritten) (Nat.lt_succ_self _)
    refine ⟨sourceOf 0 ps, out, hread, hprogram ▸ hout, ?_⟩
    refine hall.imp fun x y hmatches => hmatches.translates fun t t' hleads k x hx hxt => ?_
    have hk : k < ps.length := by
      rw [← length_sourceOf 0 ps]
      exact (List.getElem?_eq_some_iff.mp hx).1
    obtain ⟨y, hy, hyk⟩ := Option.map_eq_some_iff.mp (hplaces k hk)
    refine ⟨y, hy, ?_⟩
    rw [hyk, Nat.zero_add]
    exact hleads k x hx hxt

/-- A jump over two instructions, which gets short. -/
theorem jump_preserved :
    ∃ r, optimizeByteCode [] [0o202, 5, 0, 0o210, 0o210, 0o207] = .ok r ∧
      ∃ src out, readSource [0o202, 5, 0, 0o210, 0o210, 0o207] = some src ∧
        readProgram r.program = some out ∧
        List.Forall₂ (fun x y => Translates [] src out x.2 y.2) src out := by
  have hrun : optimizeByteCode [] [0o202, 5, 0, 0o210, 0o210, 0o207]
      = .ok ⟨[0o252, 3, 0o210, 0o210, 0o207], 0, [⟨1, 4⟩]⟩ := by
    decide
  have hfit : (⟨[0o252, 3, 0o210, 0o210, 0o207], 0, [⟨1, 4⟩]⟩ : Optimized).JumpsFit := by
    rintro j hj
    obtain rfl := List.mem_singleton.mp hj
    decide
  exact ⟨_, hrun, ((program_preserved _ _).2 _ hrun).2 hfit⟩

/-- An assignment to a keyword is not the same instruction afterwards. -/
theorem keyword_not_preserved :
    ¬ ∀ (constants : List Constant) (chars : List Nat) (r : Optimized),
      optimizeByteCode constants chars = .ok r → r.JumpsFit →
        ∃ src out, readSource chars = some src ∧ readProgram r.program = some out ∧
          List.Forall₂ (fun x y => SameInstr src out x.2 y.2) src out := by
  intro h
  have hrun : optimizeByteCode [.keyword] [0o020, 0o207] = .ok ⟨[0o210, 0o207], 0, []⟩ := by
    decide
  obtain ⟨src, out, hsrc, hout, hall⟩ := h _ _ _ hrun nofun
  have hsource : readSource [0o020, 0o207]
      = some [(0, .nargs .varset 0), (1, .simple 0o207)] := by
    decide
  have hprogram : readProgram [0o210, 0o207]
      = some [(0, .simple 0o210), (1, .simple 0o207)] := by
    decide
  obtain rfl := Option.some.inj (hsource.symm.trans hsrc)
  obtain rfl := Option.some.inj (hprogram.symm.trans hout)
  cases hall with
  | cons hfirst _ => cases hfirst

end XEmacs.Bytecode
