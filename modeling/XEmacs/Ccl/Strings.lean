import XEmacs.Ccl.Driver

/-!
# Writing a string

`CCL_WRITE_STRING` repeats what `CCL_WRITE_CHAR` does, but for two slips.
-/

namespace XEmacs.Ccl

open XEmacs.Coding List

variable {out : Output} {prog : Program} {ic : ℤ} {len : CInt} {bytes : List ℕ} {b : ℕ}

/-- What `CCL_WRITE_CHAR` adds for the bytes one after the other. -/
def cclWriteChars (out : Output) (bytes : List ℕ) : Except Fault (List ℕ) := do
  let added ← bytes.mapM fun b => cclWriteChar out (BitVec.ofNat 32 b)
  return added.flatten

/-! ## Lists -/

theorem mapM_ok {α β ε : Type*} {l : List α} {f : α → Except ε β} {g : α → β}
    (h : ∀ a ∈ l, f a = .ok (g a)) : l.mapM f = .ok (l.map g) := by
  induction l with
  | nil => rfl
  | cons a l ih =>
    rw [forall_mem_cons] at h
    rw [mapM_cons, h.1, ih h.2]
    rfl

theorem mem_of_mapM_ok {α β ε : Type*} {l : List α} {f : α → Except ε β} {l' : List β}
    (h : l.mapM f = .ok l') : l'.length = l.length ∧ ∀ b ∈ l', ∃ a ∈ l, f a = .ok b := by
  induction l generalizing l' with
  | nil =>
    cases h
    exact ⟨rfl, fun b hb => absurd hb not_mem_nil⟩
  | cons a l ih =>
    rw [mapM_cons] at h
    cases ha : f a with
    | error e =>
      rw [ha] at h
      cases h
    | ok b =>
      rw [ha] at h
      cases hl : l.mapM f with
      | error e =>
        rw [hl] at h
        cases h
      | ok bs =>
        rw [hl] at h
        cases h
        obtain ⟨hlength, hmem⟩ := ih hl
        refine ⟨congrArg (· + 1) hlength, fun b' hb' => ?_⟩
        obtain rfl | hb' := List.mem_cons.mp hb'
        · exact ⟨a, mem_cons_self, ha⟩
        · obtain ⟨a', ha', heq⟩ := hmem b' hb'
          exact ⟨a', mem_cons_of_mem a ha', heq⟩

theorem length_eq_of_flatMap_eq {α β : Type*} {l : List α} {f g : α → List β}
    (hle : ∀ a ∈ l, (g a).length ≤ (f a).length) (h : l.flatMap f = l.flatMap g) :
    ∀ a ∈ l, (f a).length = (g a).length := by
  have hsum : ∀ l : List α, (∀ a ∈ l, (g a).length ≤ (f a).length) →
      (l.flatMap g).length ≤ (l.flatMap f).length := by
    intro l
    induction l with
    | nil => exact fun _ => le_refl _
    | cons a l ih =>
      intro hle
      rw [forall_mem_cons] at hle
      have := ih hle.2
      simp only [flatMap_cons, length_append]
      omega
  induction l with
  | nil => exact fun a ha => absurd ha not_mem_nil
  | cons a l ih =>
    rw [forall_mem_cons] at hle ⊢
    have hrest := hsum l hle.2
    have hlength := congrArg List.length h
    simp only [flatMap_cons, length_append] at hlength h
    have ha : (f a).length = (g a).length := by omega
    exact ⟨ha, ih hle.2 (append_inj h ha).2⟩

/-! ## Single bytes -/

variable (out) in
theorem nonAscii_byte (hlo : 0x80 ≤ b) (hhi : b < 256) :
    ∃ work, nonAsciiSetCharptrEmchar out (BitVec.ofNat 32 b) = .ok work ∧ work.length = 2 := by
  rw [nonAsciiSetCharptrEmchar, toNat_byte hhi]
  obtain hcontrol | hlatin := Nat.lt_or_ge b 0xA0
  · obtain ⟨ch, hch, hbytes, hemchar⟩ := exists_control1 out.charsets hlo hcontrol
    have hset := setCharptrEmchar_emchar hch
    rw [hemchar, hbytes] at hset
    rw [hset]
    exact ⟨_, rfl, rfl⟩
  · obtain ⟨ch, hch, hbytes, hemchar⟩ := exists_latin1 out.charsets hlatin hhi
    have hset := setCharptrEmchar_emchar hch
    rw [hemchar, hbytes] at hset
    rw [hset]
    exact ⟨_, rfl, rfl⟩

theorem asByte_byte (hb : b < 256) : asByte (BitVec.ofNat 32 b) = b := by
  rw [asByte, BitVec.toNat_and, BitVec.toNat_ofNat]
  have hmask := Nat.and_two_pow_sub_one_eq_mod (b % 2 ^ 32) 8
  have hmod : b % 2 ^ 32 % 2 ^ 8 = b := by omega
  rw [hmod] at hmask
  exact hmask

/-- What `CCL_WRITE_CHAR` adds for a byte. -/
def charAdded (out : Output) (b : ℕ) : List ℕ :=
  match out.mode with
  | .encoding => if b = 10 then out.eolType.bytes else [b]
  | .decoding =>
    if b < 0x80 then [b]
    else (nonAsciiSetCharptrEmchar out (BitVec.ofNat 32 b)).toOption.getD []

variable (out) in
theorem cclWriteChar_byte (hb : b < 256) :
    cclWriteChar out (BitVec.ofNat 32 b) = .ok (charAdded out b) := by
  have hnewline : BitVec.ofNat 32 b = 10 ↔ b = 10 := by
    rw [← BitVec.toNat_inj, BitVec.toNat_ofNat]
    have hten : (10 : CInt).toNat = 10 := rfl
    rw [hten]
    omega
  rw [cclWriteChar, charAdded]
  cases hmode : out.mode with
  | encoding =>
    have hlt : (BitVec.ofNat 32 b).slt 0x100 = true := by
      rw [BitVec.slt_eq_decide, toInt_byte hb]
      have : (0x100 : CInt).toInt = 256 := by decide
      exact decide_eq_true (by omega)
    simp only [hnewline, hlt, if_true, asByte_byte hb]
    split_ifs <;> rfl
  | decoding =>
    have hsle : (0x80 : CInt).sle (BitVec.ofNat 32 b) = decide (0x80 ≤ b) := by
      rw [BitVec.sle_eq_decide, toInt_byte hb]
      have : (0x80 : CInt).toInt = 128 := by decide
      exact decide_eq_decide.mpr (by omega)
    simp only [hsle, decide_eq_true_eq, not_le, asByte_byte hb]
    split_ifs with hascii
    · rfl
    · obtain ⟨work, hwork, -⟩ := nonAscii_byte out (Nat.not_lt.mp hascii) hb
      rw [hwork]
      rfl

/-- What a round of `CCL_WRITE_STRING` adds. -/
def roundAdded (out : Output) (len : CInt) (b : ℕ) : List ℕ :=
  match out.mode with
  | .encoding => (if b = 10 then out.eolType.bytes else []) ++ [b]
  | .decoding =>
    if b < 0x80 then [b]
    else addMany out ((nonAsciiSetCharptrEmchar out (BitVec.ofNat 32 b)).toOption.getD []) len

variable (out len) in
theorem cclWriteStringRound_byte (hb : b < 256) :
    cclWriteStringRound out len b = .ok (roundAdded out len b) := by
  rw [cclWriteStringRound, roundAdded]
  cases hmode : out.mode with
  | encoding =>
    simp only [hb, if_true]
    rfl
  | decoding =>
    simp only [not_le]
    split_ifs with hascii
    · rfl
    · obtain ⟨work, hwork, -⟩ := nonAscii_byte out (Nat.not_lt.mp hascii) hb
      rw [hwork]
      rfl

/-! ## Strings -/

theorem stringBytes_spec (h : stringBytes prog ic len = .ok bytes) :
    bytes.length = len.toInt.toNat ∧ ∀ b ∈ bytes, b < 256 := by
  obtain ⟨hlength, hmem⟩ := mem_of_mapM_ok h
  rw [length_range] at hlength
  refine ⟨hlength, fun b hb => ?_⟩
  obtain ⟨i, -, hi⟩ := hmem b hb
  rw [stringByte] at hi
  cases hword : word prog (ic + (i / 3 : ℕ)) with
  | error e =>
    rw [hword] at hi
    cases hi
  | ok w =>
    rw [hword] at hi
    cases hi
    have hmod : w >>> ((2 - i % 3) * 8) % 256 < 256 := Int.emod_lt_of_pos _ (by decide)
    simp only
    omega

/-- Where the string is written as its characters are: where it is encoded, it has no newline;
where it is decoded, it is ASCII or has the length two. -/
def StringOk (out : Output) (bytes : List ℕ) : Prop :=
  match out.mode with
  | .encoding => 10 ∉ bytes
  | .decoding => (∀ b ∈ bytes, b < 0x80) ∨ bytes.length = 2

theorem addMany_length (work : List ℕ) : (addMany out work len).length = len.toInt.toNat := by
  rw [addMany, length_map, length_range]

theorem addMany_self {work : List ℕ} (h : work.length = len.toInt.toNat) :
    addMany out work len = work := by
  refine ext_getElem (by rw [addMany_length, h]) fun i _ hi => ?_
  simp only [addMany, getElem_map, getElem_range]
  rw [getD_eq_getElem?_getD, getElem?_eq_getElem hi, Option.getD_some]

variable (len) in
theorem charAdded_high (hmode : out.mode = .decoding) (hlo : 0x80 ≤ b) (hhi : b < 256) :
    (charAdded out b).length = 2 ∧
      roundAdded out len b = addMany out (charAdded out b) len := by
  obtain ⟨work, hwork, hlength⟩ := nonAscii_byte out hlo hhi
  have hchar : charAdded out b = work := by
    simp only [charAdded, hmode, if_neg (Nat.not_lt.mpr hlo), hwork]
    rfl
  refine ⟨hchar ▸ hlength, ?_⟩
  simp only [hchar, roundAdded, hmode, if_neg (Nat.not_lt.mpr hlo), hwork]
  rfl

theorem roundAdded_low (hmode : out.mode = .decoding) (hlo : b < 0x80) :
    roundAdded out len b = charAdded out b := by
  simp only [roundAdded, charAdded, hmode, if_pos hlo]

theorem roundAdded_encoding (hmode : out.mode = .encoding) (hnewline : b ≠ 10) :
    roundAdded out len b = charAdded out b := by
  simp only [roundAdded, charAdded, hmode, if_neg hnewline, nil_append]

theorem roundAdded_newline (hmode : out.mode = .encoding) :
    roundAdded out len 10 = charAdded out 10 ++ [10] := by
  simp only [roundAdded, charAdded, hmode, if_true]

theorem encoded_eq_iff (hmode : out.mode = .encoding) :
    bytes.flatMap (roundAdded out len) = bytes.flatMap (charAdded out) ↔ 10 ∉ bytes := by
  constructor
  · intro h hmem
    have hle : ∀ b ∈ bytes, (charAdded out b).length ≤ (roundAdded out len b).length := by
      intro b _
      by_cases hnewline : b = 10
      · rw [hnewline, roundAdded_newline hmode, length_append]
        exact Nat.le_add_right ..
      · rw [roundAdded_encoding hmode hnewline]
    have hlength := length_eq_of_flatMap_eq hle h 10 hmem
    rw [roundAdded_newline hmode, length_append] at hlength
    exact absurd hlength (Nat.succ_ne_self _)
  · intro h
    refine flatMap_congr fun b hb => roundAdded_encoding hmode ?_
    rintro rfl
    exact h hb

theorem decoded_eq_iff (hmode : out.mode = .decoding) (hlength : bytes.length = len.toInt.toNat)
    (hlt : ∀ b ∈ bytes, b < 256) :
    bytes.flatMap (roundAdded out len) = bytes.flatMap (charAdded out) ↔
      (∀ b ∈ bytes, b < 0x80) ∨ bytes.length = 2 := by
  constructor
  · intro h
    by_contra hno
    obtain ⟨hhigh, htwo⟩ := not_or.mp hno
    push Not at hhigh
    obtain ⟨b, hb, hlo⟩ := hhigh
    have hround : ∀ b ∈ bytes, 0x80 ≤ b → (charAdded out b).length = 2 ∧
        (roundAdded out len b).length = bytes.length := by
      intro b hb hlo
      obtain ⟨hchar, hround⟩ := charAdded_high len hmode hlo (hlt b hb)
      rw [hround, addMany_length, hlength]
      exact ⟨hchar, rfl⟩
    -- all characters differ in length in the same direction
    have hsame : ∀ b ∈ bytes, (roundAdded out len b).length = (charAdded out b).length := by
      obtain hshort | hlong := Nat.lt_or_ge bytes.length 2
      · refine fun b hb => (length_eq_of_flatMap_eq (fun b hb => ?_) h.symm b hb).symm
        obtain hlow | hlo := Nat.lt_or_ge b 0x80
        · rw [roundAdded_low hmode hlow]
        · rw [(hround b hb hlo).1, (hround b hb hlo).2]
          exact hshort.le
      · refine length_eq_of_flatMap_eq (fun b hb => ?_) h
        obtain hlow | hlo := Nat.lt_or_ge b 0x80
        · rw [roundAdded_low hmode hlow]
        · rw [(hround b hb hlo).1, (hround b hb hlo).2]
          exact hlong
    rw [← (hround b hb hlo).2, hsame b hb, (hround b hb hlo).1] at htwo
    exact htwo rfl
  · intro h
    refine flatMap_congr fun b hb => ?_
    obtain hlow | hlo := Nat.lt_or_ge b 0x80
    · exact roundAdded_low hmode hlow
    · obtain hascii | htwo := h
      · exact absurd (hascii b hb) (Nat.not_lt.mpr hlo)
      · obtain ⟨hchar, hround⟩ := charAdded_high len hmode hlo (hlt b hb)
        rw [hround]
        exact addMany_self (by rw [hchar, ← hlength, htwo])

/-- **A string is written as its characters are** one after the other, in every program and with
whatever there is in memory, exactly if it has no newline where it is encoded, and where it is
decoded has only ASCII or two bytes. -/
theorem cclWriteString_eq_iff (hbytes : stringBytes prog ic len = .ok bytes) :
    cclWriteString out prog ic len = cclWriteChars out bytes ↔ StringOk out bytes := by
  obtain ⟨hlength, hlt⟩ := stringBytes_spec hbytes
  have hstring : cclWriteString out prog ic len = .ok (bytes.flatMap (roundAdded out len)) := by
    have hrounds := mapM_ok fun b hb => cclWriteStringRound_byte out len (hlt b hb)
    have hbind : cclWriteString out prog ic len = (do
        let added ← bytes.mapM (cclWriteStringRound out len)
        return added.flatten) := by
      rw [cclWriteString, hbytes]
      rfl
    rw [hbind, hrounds]
    rfl
  have hchars : cclWriteChars out bytes = .ok (bytes.flatMap (charAdded out)) := by
    have hadded := mapM_ok fun b hb => cclWriteChar_byte out (hlt b hb)
    rw [cclWriteChars, hadded]
    rfl
  rw [hstring, hchars, Except.ok.injEq, StringOk]
  cases hmode : out.mode with
  | encoding => exact encoded_eq_iff hmode
  | decoding => exact decoded_eq_iff hmode hlength hlt

/-- The string of two characters 0xE9 0xE8, decoded. -/
theorem twoBytes_written :
    cclWriteString ⟨Charsets.initial, .decoding, .lf, fun _ => 0⟩ [0xE9E800] 0 2 =
      cclWriteChars ⟨Charsets.initial, .decoding, .lf, fun _ => 0⟩ [0xE9, 0xE8] := by
  have hbytes : stringBytes [0xE9E800] 0 2 = .ok [0xE9, 0xE8] := by rfl
  exact (cclWriteString_eq_iff hbytes).mpr (.inr rfl)

/-- The string of a newline, encoded: its line end, and then the newline again. And the string of
three characters 0xE9, decoded: each with a byte that happens to be in memory. -/
theorem newline_twice :
    cclWriteString ⟨Charsets.initial, .encoding, .crlf, fun _ => 0⟩ [0x0A0000] 0 1 ≠
        cclWriteChars ⟨Charsets.initial, .encoding, .crlf, fun _ => 0⟩ [10] ∧
      stringBytes [0x0A0000] 0 1 = .ok [10] ∧
      cclWriteString ⟨Charsets.initial, .encoding, .crlf, fun _ => 0⟩ [0x0A0000] 0 1 =
        .ok [13, 10, 10] ∧
      cclWriteString ⟨Charsets.initial, .decoding, .lf, fun _ => 7⟩ [0xE9E9E9] 0 3 =
        .ok [0x81, 0xE9, 7, 0x81, 0xE9, 7, 0x81, 0xE9, 7] := by
  have hstring : cclWriteString ⟨Charsets.initial, .encoding, .crlf, fun _ => 0⟩ [0x0A0000] 0 1 =
      .ok [13, 10, 10] := by rfl
  have hchars : cclWriteChars ⟨Charsets.initial, .encoding, .crlf, fun _ => 0⟩ [10] =
      .ok [13, 10] := by rfl
  refine ⟨?_, by rfl, hstring, by rfl⟩
  rw [hstring, hchars]
  intro h
  cases h

end XEmacs.Ccl
