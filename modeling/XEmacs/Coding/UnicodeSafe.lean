import XEmacs.Coding.Unicode

/-!
# Decoding arbitrary bytes as Unicode

The decoders give a well-formed string exactly if all their events are in order
(`unicode_safe_iff`). Two kinds are not.
-/

namespace XEmacs.Coding

open Transducer

section Codes

variable {env : UcsEnv}

theorem exists_getaMark (charsets : Charsets) :
    ∃ ch : Mchar, ch.Valid charsets ∧ ch.bytes = getaMark := by
  obtain ⟨cs, hcs, hlb, htype, -⟩ := exists_standard charsets
    (c := ⟨0x92, 3, .type94x94, 0, 0x42, .leftToRight, none⟩) (by decide)
  simp only at hlb htype
  have hchars : cs.chars = 94 := by rw [Charset.chars, htype]; rfl
  have hdim : cs.dimension = 2 := by rw [Charset.dimension, htype]; rfl
  refine ⟨⟨cs, 34, 46⟩, ⟨hcs, ?_⟩, ?_⟩
  · simp [Mchar.Positions, Mchar.InRange, hlb, hdim, hchars, leadingByteAscii,
      leadingByteControl1]
  · simp [Mchar.bytes, hlb, hdim, leadingBytePrefix, getaMark, leadingByteAscii,
      leadingByteControl1]

theorem private_valid {charsets : Charsets} {cs : Charset} {final i : Nat}
    (h : charsets.byAttributes .type94x94 final .leftToRight = some cs) (hi : i < 94 * 94) :
    Mchar.Valid charsets ⟨cs, i / 94 + 33, i % 94 + 33⟩ := by
  obtain ⟨hcs, htype, -, -⟩ := Charsets.byAttributes_spec h
  have hchars : cs.chars = 94 := by rw [Charset.chars, htype]; rfl
  have hdim : cs.dimension = 2 := by rw [Charset.dimension, htype]; rfl
  have hkind : cs.leadingByte ≠ 0x8E ∧ cs.leadingByte ≠ 0x8F := by
    cases Charsets.kind hcs with
    | ascii lb rep type => rw [htype] at type; cases type
    | control1 lb rep type => rw [htype] at type; cases type
    | official1 lo hi rep dim => omega
    | official2 lo hi rep dim => omega
    | private1 lo hi rep dim => omega
    | private2 lo hi rep dim => omega
  refine ⟨hcs, ?_⟩
  rw [Mchar.Positions, if_neg hkind.1, if_neg hkind.2, if_neg (by rw [hdim]; decide),
    Mchar.InRange, Mchar.InRange, if_pos hchars, if_pos hchars]
  simp only
  omega

theorem decodeUcs4_spec (code : Nat) :
    ((Event.code code).Ok env ∧ ∃ ch : Mchar, ch.Valid env.charsets ∧
      env.decodeUcs4 code = some ch.bytes) ∨
    (¬ (Event.code code).Ok env ∧ env.decodeUcs4 code = none) := by
  have hmark : env.ucsToChar code = some none →
      ∃ ch : Mchar, ch.Valid env.charsets ∧ env.decodeUcs4 code = some ch.bytes := by
    intro hnil
    obtain ⟨ch, hch, hbytes⟩ := exists_getaMark env.charsets
    exact ⟨ch, hch, by rw [UcsEnv.decodeUcs4, hnil, hbytes]; rfl⟩
  have hchar : ∀ ch : Mchar, ch.Valid env.charsets → env.ucsToChar code = some (some ch.emchar) →
      ∃ ch : Mchar, ch.Valid env.charsets ∧ env.decodeUcs4 code = some ch.bytes := by
    intro ch hch hcode
    exact ⟨ch, hch, by rw [UcsEnv.decodeUcs4, hcode]; exact setCharptrEmchar_emchar hch⟩
  by_cases htable : code < ucsTableSize
  · refine .inl ⟨fun hlo => absurd htable (Nat.not_lt.mpr (Nat.le_trans (by decide) hlo)), ?_⟩
    have hcode : env.ucsToChar code = some (env.tables.ucsToMule code) := if_pos htable
    cases hentry : env.tables.ucsToMule code with
    | none => exact hmark (hcode.trans (congrArg some hentry))
    | some c =>
      obtain ⟨ch, hch, rfl⟩ := env.ucsToMule_valid code c hentry
      exact hchar ch hch (hcode.trans (congrArg some hentry))
  · by_cases hblock : privateBlock ≤ code ∧ code ≤ privateBlockEnd
    · have hcode : env.ucsToChar code = (env.privateCharset code).map fun charset =>
          some (makeChar charset ((code - privateBlock) % (94 * 94) / 94 + 33)
            ((code - privateBlock) % (94 * 94) % 94 + 33)) := by
        rw [UcsEnv.ucsToChar, if_neg htable, if_pos hblock]
      cases hcharset : env.privateCharset code with
      | none =>
        refine .inr ⟨fun hok => ?_, ?_⟩
        · have hsome := hok hblock.1 hblock.2
          rw [hcharset] at hsome
          cases hsome
        · rw [UcsEnv.decodeUcs4, hcode, hcharset]
          rfl
      | some cs =>
        refine .inl ⟨fun _ _ => by rw [hcharset]; rfl, ?_⟩
        have hvalid := private_valid hcharset (i := (code - privateBlock) % (94 * 94))
          (Nat.mod_lt _ (by decide))
        exact hchar _ hvalid (by rw [hcode, hcharset]; rfl)
    · refine .inl ⟨fun hlo hhi => absurd ⟨hlo, hhi⟩ hblock, hmark ?_⟩
      rw [UcsEnv.ucsToChar, if_neg htable, if_neg hblock]

theorem write_spec {e : Event} (hline : ∀ c, e = .lineEnd c → c < 128) :
    (e.Ok env ∧ ∃ out, e.write env = some out ∧ WellFormed env.charsets out) ∨
    (¬ e.Ok env ∧ ∀ out, e.write env = some out →
      ∀ rest, ¬ WellFormed env.charsets (out ++ rest)) := by
  cases e with
  | code code =>
    obtain ⟨hok, ch, hch, hdecode⟩ | ⟨hok, hdecode⟩ := decodeUcs4_spec code
    · exact .inl ⟨hok, ch.bytes, hdecode, wellFormed_bytes hch⟩
    · refine .inr ⟨hok, fun out hout => ?_⟩
      cases hdecode.symm.trans hout
  | lineEnd c =>
    obtain ⟨ch, hch, hbytes, -⟩ := exists_ascii env.charsets (hline c rfl)
    exact .inl ⟨trivial, [c], rfl, hbytes ▸ wellFormed_bytes hch⟩
  | partialChar ch =>
    by_cases hok : ch < 0xA0 ∨ 0xA0 ≤ ch % 256
    · refine .inl ⟨hok, _, rfl, ?_⟩
      rw [decodeOutputPartialChar]
      split
      · exact ⟨[], nofun, rfl⟩
      · obtain ⟨c, hc, hbytes⟩ := decodeAddBinaryChar_valid env.charsets hok
        exact hbytes ▸ wellFormed_bytes hc
    · refine .inr ⟨hok, ?_⟩
      rintro _ ⟨⟩ rest
      rw [decodeOutputPartialChar, decodeAddBinaryChar, if_neg (by omega), if_neg (by omega),
        if_neg (by omega)]
      exact not_wellFormed_latin1 (by omega) rest

/-- **Safety**: what is written is well formed exactly if every event is in order. -/
theorem render_wellFormed_iff {events : List Event}
    (hline : ∀ e ∈ events, ∀ c, e = .lineEnd c → c < 128) :
    (∃ out, render (Event.write env) events = some out ∧ WellFormed env.charsets out) ↔
      ∀ e ∈ events, e.Ok env := by
  induction events with
  | nil => exact ⟨fun _ => nofun, fun _ => ⟨[], rfl, [], nofun, rfl⟩⟩
  | cons e events ih =>
    rw [List.forall_mem_cons] at hline ⊢
    rw [render_cons]
    obtain ⟨hok, out, hout, hwell⟩ | ⟨hbad, hnone⟩ := write_spec hline.1
    · rw [hout, Option.bind_some, ← ih hline.2]
      constructor
      · rintro ⟨whole, hwhole, hwf⟩
        obtain ⟨rest, hrest, rfl⟩ := Option.map_eq_some_iff.mp hwhole
        exact ⟨hok, rest, hrest, hwell.append_iff.mp hwf⟩
      · rintro ⟨-, rest, hrest, hwf⟩
        exact ⟨out ++ rest, by rw [hrest]; rfl, hwell.append_iff.mpr hwf⟩
    · constructor
      · rintro ⟨whole, hwhole, hwf⟩
        obtain ⟨out, hout, hwhole⟩ := Option.bind_eq_some_iff.mp hwhole
        obtain ⟨rest, -, rfl⟩ := Option.map_eq_some_iff.mp hwhole
        exact absurd hwf (hnone out hout rest)
      · exact fun h => absurd h.1 hbad

end Codes

/-! ### Line ends -/

theorem unicodeEvents_lineEnd {next : UnicodeDecoder → Nat → UnicodeDecoder × List Event}
    {finish : UnicodeDecoder → UnicodeDecoder × List Event} {P : Event → Prop}
    (hnext : ∀ s c, ∀ e ∈ (next s c).2, P e) (hfinish : ∀ s, ∀ e ∈ (finish s).2, P e)
    {parts : List (List Nat)} : ∀ e ∈ unicodeEvents next finish parts, P e := by
  intro e he
  obtain he | he := List.mem_append.mp he
  · refine forall_scan (fun s part e he => ?_) _ parts e he
    obtain he | he := List.mem_append.mp he
    · exact forall_scan hnext s part e he
    · exact hfinish _ e he
  · exact hfinish _ e he

theorem utf8Events_lineEnd {eol : EolType} {parts : List (List Nat)} :
    ∀ e ∈ utf8Events eol parts, ∀ c, e = .lineEnd c → c < 128 := by
  refine unicodeEvents_lineEnd (P := fun e => ∀ c, e = .lineEnd c → c < 128)
    (fun s c e he => ?_) fun s e he => ?_
  · obtain ⟨flags, ch, counter⟩ := s
    cases counter with
    | zero =>
      obtain hc | hc := Nat.lt_or_ge c 0xc0
      · rw [UnicodeDecoder.utf8Scan_single eol flags ch hc] at he
        obtain he | he := List.mem_append.mp he
        · obtain ⟨b, hb, rfl⟩ := List.mem_map.mp he
          rintro _ ⟨⟩
          exact decodeHandleEolType_lt b hb
        · split at he
          · cases he
          · obtain rfl := List.mem_singleton.mp he
            rintro _ ⟨⟩
      · obtain ⟨ch', n, heq⟩ := UnicodeDecoder.utf8Scan_lead eol flags ch hc
        rw [heq] at he
        cases he
    | succ n =>
      cases n with
      | zero =>
        obtain rfl := List.mem_singleton.mp he
        rintro _ ⟨⟩
      | succ n => cases he
  · rw [UnicodeDecoder.utf8FinishEvents] at he
    split at he
    · obtain rfl := List.mem_singleton.mp he
      rintro _ ⟨⟩
    · cases he

theorem ucs4Events_lineEnd {parts : List (List Nat)} :
    ∀ e ∈ ucs4Events parts, ∀ c, e = .lineEnd c → c < 128 := by
  refine unicodeEvents_lineEnd (P := fun e => ∀ c, e = .lineEnd c → c < 128)
    (fun s c e he => ?_) fun s e he => ?_
  · obtain ⟨flags, ch, counter⟩ := s
    cases counter with
    | zero => cases he
    | succ n =>
      cases n with
      | zero =>
        obtain rfl := List.mem_singleton.mp he
        rintro _ ⟨⟩
      | succ n => cases he
  · rw [UnicodeDecoder.ucs4FinishEvents] at he
    split at he
    · obtain rfl := List.mem_singleton.mp he
      rintro _ ⟨⟩
    · cases he

/-- **Decoding arbitrary bytes** comes to an end with a string of valid characters, exactly if
every code of the private block that the bytes contain has a charset and every partial
character that is written out can be one. -/
theorem unicode_safe_iff (env : UcsEnv) (eol : EolType) (parts : List (List Nat)) :
    ((∃ out, decodeCodingUtf8 env eol parts = some out ∧ WellFormed env.charsets out) ↔
      ∀ e ∈ utf8Events eol parts, e.Ok env) ∧
    ((∃ out, decodeCodingUcs4 env parts = some out ∧ WellFormed env.charsets out) ↔
      ∀ e ∈ ucs4Events parts, e.Ok env) := by
  constructor
  · rw [decodeCodingUtf8_eq]
    exact render_wellFormed_iff utf8Events_lineEnd
  · rw [decodeCodingUcs4_eq]
    exact render_wellFormed_iff ucs4Events_lineEnd

/-- No tables, and no charsets but those at the start. -/
def initialEnv : UcsEnv where
  charsets := .initial
  tables := ⟨fun _ => none, fun _ => none⟩
  ucsToMule_valid := nofun

/-- The code `0xE0AC94` is the first one of the row that has no charset. -/
theorem private_not_safe : ¬ ∀ (env : UcsEnv) (eol : EolType) (parts : List (List Nat)),
    (∃ out, decodeCodingUtf8 env eol parts = some out ∧ WellFormed env.charsets out) ∧
      ∃ out, decodeCodingUcs4 env parts = some out ∧ WellFormed env.charsets out := by
  intro h
  obtain ⟨⟨out, hout, -⟩, -⟩ := h initialEnv .lf [[0xF8, 0xB8, 0x8A, 0xB2, 0x94]]
  have hnone : decodeCodingUtf8 initialEnv .lf [[0xF8, 0xB8, 0x8A, 0xB2, 0x94]] = none := by
    decide
  rw [hnone] at hout
  cases hout

end XEmacs.Coding
