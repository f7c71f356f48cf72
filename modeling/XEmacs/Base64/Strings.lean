import XEmacs.Base64.Readings

/-!
# Base64 strings (fns.c)

Decoding an encoded string gives the string back, with any characters put in that do not count,
and what is encoded fits into the memory allocated for it.
-/

namespace XEmacs.Base64

open Sextets Fallible List

theorem quadruplet_length {stream stream' bs : List ℕ} {streampos pos : ℕ}
    (h : quadruplet stream streampos = .ok (some (bs, stream', pos))) :
    stream'.length < stream.length := by
  have hread := quadruplet_read stream streampos
  rw [h] at hread
  cases hread with
  | next _ _ hlt => exact hlt

/-- `base64_decode_1`, with what it stores. -/
def base64Decode1 (stream : List ℕ) (streampos : ℕ) : Except Fault (List ℕ) :=
  match _h : quadruplet stream streampos with
  | .error e => .error e
  | .ok none => .ok []
  | .ok (some (bs, stream', streampos)) => (base64Decode1 stream' streampos).map (bs ++ ·)
termination_by stream.length
decreasing_by exact quadruplet_length _h

/-- The number of bytes that are allocated for the encoding. -/
def allocated (length : ℕ) : ℕ :=
  let allength := length + length / 3 + 1
  allength + (allength / mimeLineLength + 1 + 6)

/-- `base64-encode-string`. -/
def base64EncodeString (string : List ℕ) (noLineBreak : Bool) : Except Fault (List ℕ) := do
  let encoded ← base64Encode1 (!noLineBreak) 0 string
  if encoded.length > allocated string.length then .error .abort else return encoded

/-- The number of bytes of a character below 256. -/
def charBytes (c : ℕ) : ℕ := if c < 0x80 then 1 else 2

/-- `base64-decode-string`. -/
def base64DecodeString (string : List ℕ) : Except Fault (List ℕ) := do
  let decoded ← base64Decode1 string 0
  if (decoded.map charBytes).sum > string.length * maxEmcharLen then .error .abort
  else return decoded

/-! ### Decoding -/

variable {stream string : List ℕ}

/-- How decoding ends: with the bytes of the groups, or with an error where there are no groups. -/
inductive Decoded (stream : List ℕ) : Except Fault (List ℕ) → Prop
  | bytes {bytes : List ℕ} (h : Groups (symbols stream) bytes) : Decoded stream (.ok bytes)
  | signal {message : String} {pos : ℕ} (h : ∀ bytes, ¬ Groups (symbols stream) bytes) :
      Decoded stream (.error (.signal message pos))
  | error {message : String} (h : ∀ bytes, ¬ Groups (symbols stream) bytes) :
      Decoded stream (.error (.error message))

/-- **`base64_decode_1`** reads groups and fails on all else. -/
theorem decode_groups (stream : List ℕ) (streampos : ℕ) :
    Decoded stream (base64Decode1 stream streampos) := by
  fun_induction base64Decode1 stream streampos with
  | case1 stream streampos e h =>
    have hread := quadruplet_read stream streampos
    rw [h] at hread
    cases hread with
    | signal hnone => exact .signal hnone
    | error hnone => exact .error hnone
  | case2 stream streampos h =>
    have hread := quadruplet_read stream streampos
    rw [h] at hread
    cases hread with
    | done hend => exact .bytes (by rw [hend]; exact .nil)
  | case3 stream streampos bs stream' pos h ih =>
    have hread := quadruplet_read stream streampos
    rw [h] at hread
    cases hread with
    | next hg hsymbols =>
      have hnone (hrest : ∀ bytes, ¬ Groups (symbols stream') bytes) (bytes : List ℕ) :
          ¬ Groups (symbols stream) bytes := by
        intro hgroups
        rw [hsymbols] at hgroups
        obtain ⟨bytes', -, hgroups'⟩ := hgroups.split hg
        exact hrest bytes' hgroups'
      cases hrest : base64Decode1 stream' pos with
      | ok bytes =>
        rw [hrest] at ih
        cases ih with
        | bytes hgroups =>
          refine .bytes ?_
          rw [hsymbols]
          exact .cons hg hgroups
      | error e =>
        rw [hrest] at ih
        cases ih with
        | signal hfail => exact .signal (hnone hfail)
        | error hfail => exact .error (hnone hfail)

theorem charBytes_le (bytes : List ℕ) : (bytes.map charBytes).sum ≤ 2 * bytes.length := by
  induction bytes with
  | nil => exact Nat.le_refl _
  | cons b bytes ih =>
    have hb : charBytes b ≤ 2 := by
      rw [charBytes]
      split <;> decide
    rw [map_cons, sum_cons, length_cons]
    omega

theorem decoded_length {bytes : List ℕ} (h : Groups (symbols stream) bytes) :
    (bytes.map charBytes).sum ≤ stream.length * maxEmcharLen := by
  have hbytes := charBytes_le bytes
  have hgroups := h.length_le
  have hsymbols : (symbols stream).length ≤ stream.length := length_filterMap_le _ _
  rw [maxEmcharLen]
  omega

theorem decodeString_groups (string : List ℕ) : Decoded string (base64DecodeString string) := by
  have hdecoded := decode_groups string 0
  rw [base64DecodeString]
  cases h : base64Decode1 string 0 with
  | ok bytes =>
    rw [h] at hdecoded
    cases hdecoded with
    | bytes hgroups =>
      simp only [bind, Except.bind, if_neg (Nat.not_lt.mpr (decoded_length hgroups))]
      exact .bytes hgroups
  | error e =>
    rw [h] at hdecoded
    exact hdecoded

theorem decodeString_eq {bytes : List ℕ} (h : Groups (symbols string) bytes) :
    base64DecodeString string = .ok bytes := by
  have hdecoded := decodeString_groups string
  cases hresult : base64DecodeString string with
  | ok bytes' =>
    rw [hresult] at hdecoded
    cases hdecoded with
    | bytes h' => rw [h'.unique h]
  | error e =>
    rw [hresult] at hdecoded
    cases hdecoded with
    | signal hnone => exact absurd h (hnone bytes)
    | error hnone => exact absurd h (hnone bytes)

theorem decodeString_iff {bytes : List ℕ} :
    base64DecodeString string = .ok bytes ↔ Groups (symbols string) bytes := by
  refine ⟨fun h => ?_, decodeString_eq⟩
  have hdecoded := decodeString_groups string
  rw [h] at hdecoded
  cases hdecoded with
  | bytes hgroups => exact hgroups

/-! ### Encoding -/

theorem newlines_le (lineBreak : Bool) (groups : ℕ) :
    newlines lineBreak 0 groups ≤ (groups - 1) / 19 := by
  rw [newlines]
  split <;> omega

theorem encoded_length (lineBreak : Bool) (n : ℕ) :
    4 * ((n + 2) / 3) + newlines lineBreak 0 ((n + 2) / 3) ≤ allocated n := by
  have hlines := newlines_le lineBreak ((n + 2) / 3)
  have hwidth : mimeLineLength = 76 := rfl
  rw [allocated, hwidth]
  omega

/-- Whether a character counts for the decoder. -/
def counts (c : ℕ) : Bool := isBase64 c || decide (c = pad)

theorem symbols_filter (stream : List ℕ) : symbols (stream.filter counts) = symbols stream := by
  rw [symbols, symbols, filterMap_filter]
  congr 1
  funext c
  rw [counts, counts_iff]
  cases symbol c <;> rfl

/-- **Base64 strings**: an encoding has the room that is allocated for it, and is decoded to what
was encoded, whatever characters that do not count are put into it. Decoding reads all strings of
groups and fails with an error on all others. -/
theorem base64_strings (noLineBreak : Bool) (hstring : ∀ c ∈ string, c ≤ 255) :
    (∃ e, base64EncodeString string noLineBreak = .ok e ∧ e.length ≤ allocated string.length ∧
      ∀ input, input.filter counts = e.filter counts → base64DecodeString input = .ok string) ∧
    ∀ input, Decoded input (base64DecodeString input) := by
  refine ⟨?_, decodeString_groups⟩
  obtain ⟨e, hencode, hsymbols, hlength⟩ :=
    encode_symbols (!noLineBreak) hstring (Nat.zero_le 19)
  have hroom : e.length ≤ allocated string.length := by
    rw [hlength]
    exact encoded_length _ _
  refine ⟨e, ?_, hroom, fun input hinput => ?_⟩
  · simp only [base64EncodeString, hencode, bind, Except.bind, if_neg (Nat.not_lt.mpr hroom)]
    rfl
  · have hgroups : Groups (symbols input) string := by
      rw [← symbols_filter, hinput, symbols_filter, hsymbols]
      exact groups_digits fun b hb => Nat.lt_succ_of_le (hstring b hb)
    exact decodeString_eq hgroups

/-- "QQ==QQ==" is no encoding, but it can be decoded. -/
theorem base64_strings_pads :
    base64DecodeString [81, 81, 61, 61, 81, 81, 61, 61] = .ok [65, 65] ∧
    ∀ string : List ℕ, (∀ c ∈ string, c ≤ 255) → ∀ noLineBreak e,
      base64EncodeString string noLineBreak = .ok e →
        [81, 81, 61, 61, 81, 81, 61, 61].filter counts ≠ e.filter counts := by
  have hsymbols : symbols [81, 81, 61, 61, 81, 81, 61, 61] =
      [some 16, some 16, none, none, some 16, some 16, none, none] := by decide
  constructor
  · apply decodeString_eq
    rw [hsymbols]
    exact .cons (.one 16 16) (.cons (.one 16 16) .nil)
  · intro string hstring noLineBreak e hencode heq
    obtain ⟨e', hencode', hdigits, -⟩ :=
      encode_symbols (!noLineBreak) hstring (Nat.zero_le 19)
    obtain ⟨e'', hsame, hroom⟩ := bind_eq_ok.mp hencode
    rw [hencode'] at hsame
    cases hsame
    split at hroom <;> cases hroom
    rw [← symbols_filter, ← heq, symbols_filter, hsymbols] at hdigits
    match string with
    | [] => cases hdigits
    | [_] => simp [digits] at hdigits
    | [_, _] => simp [digits] at hdigits
    | _ :: _ :: _ :: _ => simp [digits] at hdigits

/-- "Ma" is "TWE=", and it still is with a newline inside. "TWE" cannot be decoded. -/
theorem base64_strings_two : base64EncodeString [77, 97] false = .ok [84, 87, 69, 61] ∧
    base64DecodeString [84, 87, 10, 69, 61] = .ok [77, 97] ∧
    ∀ bytes, base64DecodeString [84, 87, 69] ≠ .ok bytes := by
  have hbytes : ∀ c ∈ [77, 97], c ≤ 255 := by decide
  obtain ⟨⟨e, hencode, -, hdecode⟩, hdecoded⟩ := base64_strings false hbytes
  have htwo : base64EncodeString [77, 97] false = .ok [84, 87, 69, 61] := by
    have ha : 77 ≤ 255 := by decide
    have hb : 97 ≤ 255 := by decide
    have hencode₁ : base64Encode1 (!false) 0 [77, 97] = _ := base64Encode1_last (triplet_two ha hb)
    rw [base64EncodeString, hencode₁]
    rfl
  rw [htwo] at hencode
  cases hencode
  refine ⟨htwo, hdecode _ (by decide), fun bytes h => ?_⟩
  have hnone := hdecoded [84, 87, 69]
  rw [h] at hnone
  cases hnone with
  | bytes hgroups =>
    obtain hnil | ⟨v, w, p, q, s, heq, -⟩ := hgroups.shape
    · revert hnil
      decide
    · have hsymbols : symbols [84, 87, 69] = [some 19, some 22, some 4] := by decide
      rw [hsymbols] at heq
      cases heq

end XEmacs.Base64
