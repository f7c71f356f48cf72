import XEmacs.Coding.Iso2022Escapes

/-!
# Output conversions of charsets (file-coding.c)

A conversion takes effect in a designation sequence if the sequence announces what the charset is
converted to, and a decoder whose input conversions are the inverse ones puts the charset itself
into the register.
-/

namespace XEmacs.Coding

open Iso2022Encoder Iso2022Decoder ByteMemory

/-- The conversions back, in the other order. -/
def inverseConv (conv : List ConversionSpec) : List ConversionSpec :=
  conv.reverse.map fun spec => ⟨spec.toCharset, spec.fromCharset⟩

/-- The output conversions take effect in a designation sequence. -/
structure Designation.TakesEffect (charsets : Charsets) (sys : Iso2022System)
    (d : Designation) : Prop where
  announces : ∀ spec ∈ sys.outputConv, spec.fromCharset = d.charset →
    d.bytes = designationBytes sys.short d.reg spec.toCharset.type spec.toCharset.final
  decodes : ∀ (codesys : Iso2022System) (iso : Iso2022Decoder) (flags : Flags),
    codesys.inputConv = inverseConv sys.outputConv → flags.escape = false →
    flags.r2l = d.r2l → (∀ i, iso.invalidDesignated i = false) →
    ∃ iso' flags', parseSequence charsets (some codesys) true iso flags d.bytes
        = ((.complete, iso', flags'), []) ∧
      iso'.charset = store iso.charset d.reg (.charset d.charset) ∧
      iso'.outputLiterally = false

/-- The conversions need not be made in a designation: those of the charset keep the type and the
final byte, and the inverse ones lead back from the charset that has these in the direction of
the text. -/
structure Designation.Indifferent (charsets : Charsets) (sys : Iso2022System)
    (d : Designation) : Prop where
  same : ∀ spec ∈ sys.outputConv, spec.fromCharset = d.charset →
    spec.toCharset.SameAttributes d.charset
  restored : (charsets.byAttributes d.charset.type d.charset.final
      (if d.r2l then .rightToLeft else .leftToRight)).map
    (convertCharset (inverseConv sys.outputConv)) = some d.charset

variable {charsets : Charsets} {sys : Iso2022System} {d : Designation}

theorem designationBytes_inj {short : Bool} {reg final final' : Nat} {type type' : CharsetType}
    (h : designationBytes short reg type final = designationBytes short reg type' final') :
    type = type' ∧ final = final' := by
  unfold designationBytes at h
  cases type <;> cases type' <;> simp only [List.cons.injEq, true_and, and_true] at h <;>
    (try split_ifs at h) <;> simp at h ⊢ <;> omega

theorem final_range {c : Charset} (hc : c ∈ charsets.list) (hfinal : c.final ≠ 0) :
    0x30 ≤ c.final ∧ c.final ≤ 0x7E := by
  obtain hstandard | huser := charsets.known c hc
  · have hfinals : ∀ c ∈ standardCharsets, c.final ≠ 0 → 0x30 ≤ c.final ∧ c.final ≤ 0x7E := by
      decide
    exact hfinals c.made hstandard hfinal
  · exact huser.final.resolve_left hfinal

theorem announces_iff (hbytes : d.bytes
      = designationBytes sys.short d.reg d.charset.type d.charset.final) :
    (∀ spec ∈ sys.outputConv, spec.fromCharset = d.charset →
      d.bytes = designationBytes sys.short d.reg spec.toCharset.type spec.toCharset.final) ↔
    ∀ spec ∈ sys.outputConv, spec.fromCharset = d.charset →
      spec.toCharset.SameAttributes d.charset := by
  refine forall₃_congr fun spec _ _ => ?_
  rw [hbytes]
  constructor
  · intro h
    obtain ⟨htype, hfinal⟩ := designationBytes_inj h
    exact ⟨htype.symm, hfinal.symm⟩
  · rintro ⟨htype, hfinal⟩
    rw [htype, hfinal]

/-- The designation of a charset puts it back into the register exactly if the inverse conversions
lead to it. -/
theorem decodes_iff (charsets : Charsets) (hreg : d.reg < 4) (hbytes : d.bytes
      = designationBytes sys.short d.reg d.charset.type d.charset.final) :
    (∀ (codesys : Iso2022System) (iso : Iso2022Decoder) (flags : Flags),
      codesys.inputConv = inverseConv sys.outputConv → flags.escape = false →
      flags.r2l = d.r2l → (∀ i, iso.invalidDesignated i = false) →
      ∃ iso' flags', parseSequence charsets (some codesys) true iso flags d.bytes
          = ((.complete, iso', flags'), []) ∧
        iso'.charset = store iso.charset d.reg (.charset d.charset) ∧
        iso'.outputLiterally = false) ↔
    (charsets.byAttributes d.charset.type d.charset.final
        (if d.r2l then .rightToLeft else .leftToRight)).map
      (convertCharset (inverseConv sys.outputConv)) = some d.charset := by
  constructor
  · intro h
    -- a decoder in its first state
    let codesys : Iso2022System := { sys with inputConv := inverseConv sys.outputConv }
    let iso : Iso2022Decoder :=
      ⟨fun _ => .nil, 0, 1, .nothing, [], fun _ => false, false, false, false, false⟩
    let flags : Flags := { Flags.zero with r2l := d.r2l }
    obtain ⟨iso', flags', hparse, hcharset, hliterally⟩ :=
      h codesys iso flags rfl rfl rfl fun _ => rfl
    obtain ⟨esc, seen, hfinal⟩ := parseSequence_designation charsets (some codesys) true iso
      flags rfl sys.short hreg d.charset.type d.charset.final
    rw [hbytes, hfinal, finalByte] at hparse
    replace hparse := congrArg Prod.fst hparse
    dsimp only at hparse
    split_ifs at hparse with hrange
    · cases hparse
    have hdirection : currentDirection { flags with escape := true }
        = if d.r2l then .rightToLeft else .leftToRight := rfl
    rw [hdirection] at hparse
    cases hfound : charsets.byAttributes d.charset.type d.charset.final
        (if d.r2l then .rightToLeft else .leftToRight) with
    | none =>
      -- the sequence is put into the text
      rw [hfound] at hparse
      have hnone := designated_none charsets (some codesys) (iso.within esc seen)
        { flags with escape := true } d.reg
      rw [hparse, hliterally] at hnone
      cases hnone
    | some found =>
      rw [hfound] at hparse
      have hvalid : (iso.within esc seen).invalidDesignated d.reg = false := rfl
      obtain ⟨iso₁, flags₁, hdes, hstore, -⟩ :=
        designated_some charsets codesys { flags with escape := true } found hvalid
      rw [hdes] at hparse
      cases hparse
      rw [hstore] at hcharset
      have hreg' := congrFun hcharset d.reg
      rw [store_self, store_self] at hreg'
      exact congrArg some (Register.charset.inj hreg')
  · intro h codesys iso flags hinput hescape hr2l hvalid
    obtain ⟨found, hfound, hback⟩ := Option.map_eq_some_iff.mp h
    obtain ⟨hmem, -, hfin, -⟩ := Charsets.byAttributes_spec hfound
    have hne : found.final ≠ 0 := Charsets.byAttributes_final hfound
    obtain ⟨hlo, hhi⟩ := final_range hmem hne
    obtain ⟨esc, seen, hfinal⟩ := parseSequence_designation charsets (some codesys) true iso
      flags hescape sys.short hreg d.charset.type d.charset.final
    have hvalid' : (iso.within esc seen).invalidDesignated d.reg = false := hvalid d.reg
    obtain ⟨iso₁, flags₁, hdes, hstore, hliterally⟩ :=
      designated_some charsets codesys { flags with escape := true } found hvalid'
    have hdirection : currentDirection { flags with escape := true }
        = if d.r2l then .rightToLeft else .leftToRight := by
      rw [← hr2l]
      rfl
    refine ⟨iso₁, flags₁, ?_, ?_, hliterally⟩
    · rw [hbytes, hfinal, finalByte, if_neg (by omega), hdirection, hfound, hdes]
    · rw [hstore, hinput, hback]
      rfl

/-- A seven-bit coding system that writes Kanji in the charset of 1978. -/
def system1978 : Iso2022System where
  initialCharset := fun i => if i = 0 then .charset Charsets.initial.ascii else .t
  forceCharsetOnOutput := fun _ => false
  inputConv := []
  outputConv := [⟨⟨0x92, 3, .type94x94, 0, 0x42, .leftToRight, none⟩,
    ⟨0x90, 3, .type94x94, 0, 0x40, .leftToRight, none⟩⟩]
  eolType := .lf
  short := true
  noAsciiEol := false
  noAsciiCntl := false
  seven := true
  lockShift := false
  noIso6429 := false
  escapeQuoted := false

end XEmacs.Coding
