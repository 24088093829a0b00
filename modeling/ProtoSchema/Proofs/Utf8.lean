import ProtoSchema.Utf8

/-!
# ProtoSchema.Proofs.Utf8

`encode` and `decode` are inverse to each other: `decode_eq_ok_iff` says that the bytes that decode
to a list of characters are exactly its encoding. Both directions go one character at a time, by
the announcement of its first byte.
-/

namespace ProtoSchema
namespace Utf8

/-! ## First bytes by number -/

theorem lead_one {b : UInt8} (h : b.toNat < 0x80) : Lead.of? b = some .one := by
  have h₁ : b < 0x80 := by rw [UInt8.lt_iff_toNat_lt]; exact h
  simp [Lead.of?, h₁]

theorem lead_two {b : UInt8} (h₁ : 0xC2 ≤ b.toNat) (h₂ : b.toNat < 0xE0) :
    Lead.of? b = some .two := by
  simp only [Lead.of?, UInt8.lt_iff_toNat_lt, UInt8.reduceToNat]
  rw [if_neg (by omega), if_neg (by omega), if_pos h₂]

theorem lead_three {b : UInt8} (h₁ : 0xE0 ≤ b.toNat) (h₂ : b.toNat < 0xF0) :
    Lead.of? b =
      some (.three (if b = 0xE0 then 0xA0 else 0x80) (if b = 0xED then 0x9F else 0xBF)) := by
  simp only [Lead.of?, UInt8.lt_iff_toNat_lt, UInt8.reduceToNat]
  rw [if_neg (by omega), if_neg (by omega), if_neg (by omega), if_pos h₂]

theorem lead_four {b : UInt8} (h₁ : 0xF0 ≤ b.toNat) (h₂ : b.toNat < 0xF5) :
    Lead.of? b =
      some (.four (if b = 0xF0 then 0x90 else 0x80) (if b = 0xF4 then 0x8F else 0xBF)) := by
  simp only [Lead.of?, UInt8.lt_iff_toNat_lt, UInt8.reduceToNat]
  rw [if_neg (by omega), if_neg (by omega), if_neg (by omega), if_neg (by omega), if_pos h₂]

/-- What an announcement says about the number of the byte. -/
theorem toNat_of_lead {b : UInt8} {l : Lead} (h : Lead.of? b = some l) :
    match l with
    | .one => b.toNat < 0x80
    | .two => 0xC2 ≤ b.toNat ∧ b.toNat < 0xE0
    | .three low high => 0xE0 ≤ b.toNat ∧ b.toNat < 0xF0 ∧
        low = (if b = 0xE0 then 0xA0 else 0x80) ∧ high = (if b = 0xED then 0x9F else 0xBF)
    | .four low high => 0xF0 ≤ b.toNat ∧ b.toNat < 0xF5 ∧
        low = (if b = 0xF0 then 0x90 else 0x80) ∧ high = (if b = 0xF4 then 0x8F else 0xBF) := by
  simp only [Lead.of?, UInt8.lt_iff_toNat_lt, UInt8.reduceToNat] at h
  split at h
  · next h₁ => cases h; exact h₁
  · split at h
    · cases h
    · split at h
      · cases h; constructor <;> omega
      · split at h
        · cases h; refine ⟨?_, ?_, rfl, rfl⟩ <;> omega
        · split at h
          · cases h; refine ⟨?_, ?_, rfl, rfl⟩ <;> omega
          · cases h

theorem within_iff {low high b : UInt8} :
    within low high b = true ↔ low.toNat ≤ b.toNat ∧ b.toNat ≤ high.toNat := by
  simp [within, UInt8.le_iff_toNat_le]

theorem toNat_ofNat_of_lt {n : Nat} (h : n < 256) : (UInt8.ofNat n).toNat = n := by
  rw [UInt8.toNat_ofNat']; exact Nat.mod_eq_of_lt h

theorem eq_iff_toNat_eq {a b : UInt8} : a = b ↔ a.toNat = b.toNat := UInt8.toNat_inj.symm

/-! ## The sequences of single characters -/

/-- The byte sequences of UTF-8 and the characters that they stand for. -/
inductive Sequence : List UInt8 → Char → Prop where
  | one {a : UInt8} (h : a.toNat < 0x80) : Sequence [a] (Char.ofNat a.toNat)
  | two {a b : UInt8} (h₁ : 0xC2 ≤ a.toNat) (h₂ : a.toNat < 0xE0)
      (hb : within 0x80 0xBF b = true) : Sequence [a, b] (char2 a b)
  | three {a b c : UInt8} (h₁ : 0xE0 ≤ a.toNat) (h₂ : a.toNat < 0xF0)
      (hb : within (if a = 0xE0 then 0xA0 else 0x80) (if a = 0xED then 0x9F else 0xBF) b = true)
      (hc : within 0x80 0xBF c = true) : Sequence [a, b, c] (char3 a b c)
  | four {a b c d : UInt8} (h₁ : 0xF0 ≤ a.toNat) (h₂ : a.toNat < 0xF5)
      (hb : within (if a = 0xF0 then 0x90 else 0x80) (if a = 0xF4 then 0x8F else 0xBF) b = true)
      (hc : within 0x80 0xBF c = true) (hd : within 0x80 0xBF d = true) :
      Sequence [a, b, c, d] (char4 a b c d)

/-- A sequence at the front decodes to its character. -/
theorem Sequence.decodeFrom {x : List UInt8} {c : Char} (h : Sequence x c) (n : Nat)
    (rest : List UInt8) :
    decodeFrom n (x ++ rest) = (decodeFrom (n + x.length) rest).map (c :: ·) := by
  cases h with
  | one h => rw [Utf8.decodeFrom.eq_def]; simp [lead_one h]
  | two h₁ h₂ hb => rw [Utf8.decodeFrom.eq_def]; simp [lead_two h₁ h₂, hb]
  | three h₁ h₂ hb hc => rw [Utf8.decodeFrom.eq_def]; simp [lead_three h₁ h₂, hb, hc]
  | four h₁ h₂ hb hc hd => rw [Utf8.decodeFrom.eq_def]; simp [lead_four h₁ h₂, hb, hc, hd]

/-! ## Decoding what has been encoded -/

theorem char_valid (c : Char) : c.val.toNat < 0xD800 ∨ (0xDFFF < c.val.toNat ∧ c.val.toNat < 0x110000) :=
  c.valid

theorem sequence_encodeChar (c : Char) : Sequence (String.utf8EncodeChar c) c := by
  have hv := char_valid c
  have hc : Char.ofNat c.val.toNat = c := Char.ofNat_toNat c
  unfold String.utf8EncodeChar
  generalize c.val.toNat = v at hv hc
  simp only
  split
  · next h =>
    have ha : (UInt8.ofNat v).toNat = v := toNat_ofNat_of_lt (by omega)
    generalize UInt8.ofNat v = a at ha
    rw [← hc, ← ha]
    exact .one (by omega)
  split
  · next h₁ h₂ =>
    have ha : (UInt8.ofNat (v / 64 % 32 + 192)).toNat = v / 64 + 192 := by
      rw [toNat_ofNat_of_lt (by omega)]; omega
    have hb : (UInt8.ofNat (v % 64 + 128)).toNat = v % 64 + 128 := toNat_ofNat_of_lt (by omega)
    generalize UInt8.ofNat (v / 64 % 32 + 192) = a at ha
    generalize UInt8.ofNat (v % 64 + 128) = b at hb
    have hch : c = char2 a b := by
      rw [← hc, char2, payload, ha, hb]; congr 1; omega
    rw [hch]
    exact .two (by omega) (by omega) (by rw [within_iff]; simp [hb]; omega)
  split
  · next h₁ h₂ h₃ =>
    have ha : (UInt8.ofNat (v / 4096 % 16 + 224)).toNat = v / 4096 + 224 := by
      rw [toNat_ofNat_of_lt (by omega)]; omega
    have hb : (UInt8.ofNat (v / 64 % 64 + 128)).toNat = v / 64 % 64 + 128 :=
      toNat_ofNat_of_lt (by omega)
    have hd : (UInt8.ofNat (v % 64 + 128)).toNat = v % 64 + 128 := toNat_ofNat_of_lt (by omega)
    generalize UInt8.ofNat (v / 4096 % 16 + 224) = a at ha
    generalize UInt8.ofNat (v / 64 % 64 + 128) = b at hb
    generalize UInt8.ofNat (v % 64 + 128) = d at hd
    have hch : c = char3 a b d := by
      rw [← hc, char3, payload, payload, ha, hb, hd]; congr 1; omega
    rw [hch]
    refine .three (by omega) (by omega) ?_ (by rw [within_iff]; simp [hd]; omega)
    rw [within_iff]
    simp only [eq_iff_toNat_eq, apply_ite UInt8.toNat, ha, hb, UInt8.reduceToNat]
    constructor
    · split <;> omega
    · split <;> omega
  · next h₁ h₂ h₃ =>
    have ha : (UInt8.ofNat (v / 262144 % 8 + 240)).toNat = v / 262144 + 240 := by
      rw [toNat_ofNat_of_lt (by omega)]; omega
    have hb : (UInt8.ofNat (v / 4096 % 64 + 128)).toNat = v / 4096 % 64 + 128 :=
      toNat_ofNat_of_lt (by omega)
    have hd : (UInt8.ofNat (v / 64 % 64 + 128)).toNat = v / 64 % 64 + 128 :=
      toNat_ofNat_of_lt (by omega)
    have he : (UInt8.ofNat (v % 64 + 128)).toNat = v % 64 + 128 := toNat_ofNat_of_lt (by omega)
    generalize UInt8.ofNat (v / 262144 % 8 + 240) = a at ha
    generalize UInt8.ofNat (v / 4096 % 64 + 128) = b at hb
    generalize UInt8.ofNat (v / 64 % 64 + 128) = d at hd
    generalize UInt8.ofNat (v % 64 + 128) = e at he
    have hch : c = char4 a b d e := by
      rw [← hc, char4, payload, payload, payload, ha, hb, hd, he]; congr 1; omega
    rw [hch]
    refine .four (by omega) (by omega) ?_ (by rw [within_iff]; simp [hd]; omega)
      (by rw [within_iff]; simp [he]; omega)
    rw [within_iff]
    simp only [eq_iff_toNat_eq, apply_ite UInt8.toNat, ha, hb, UInt8.reduceToNat]
    constructor
    · split <;> omega
    · split <;> omega

@[simp] theorem encode_nil : encode [] = [] := rfl

@[simp] theorem encode_cons (c : Char) (cs : List Char) :
    encode (c :: cs) = String.utf8EncodeChar c ++ encode cs := rfl

theorem encode_append (cs ds : List Char) : encode (cs ++ ds) = encode cs ++ encode ds := by
  simp [encode]

theorem decodeFrom_encode (cs : List Char) (n : Nat) : decodeFrom n (encode cs) = .ok cs := by
  induction cs generalizing n with
  | nil => rw [encode_nil, decodeFrom]
  | cons c cs ih =>
    rw [encode_cons, (sequence_encodeChar c).decodeFrom, ih]
    rfl

/-! ## Encoding what has been decoded -/

theorem toNat_char_ofNat {n : Nat} (h : n < 0xD800 ∨ (0xDFFF < n ∧ n < 0x110000)) :
    (Char.ofNat n).val.toNat = n := by
  have hv : n.isValidChar := h
  unfold Char.ofNat
  rw [dif_pos hv]
  rfl

/-- A character is encoded by the one sequence that stands for it. -/
theorem Sequence.encodeChar {x : List UInt8} {c : Char} (h : Sequence x c) :
    String.utf8EncodeChar c = x := by
  cases h with
  | one h =>
    rw [String.utf8EncodeChar, toNat_char_ofNat (by omega), if_pos (by omega), UInt8.ofNat_toNat]
  | @two a b h₁ h₂ hb =>
    rw [within_iff] at hb
    simp only [UInt8.reduceToNat] at hb
    rw [String.utf8EncodeChar, char2, payload, toNat_char_ofNat (by omega), if_neg (by omega),
      if_pos (by omega)]
    simp only [List.cons.injEq, and_true, eq_iff_toNat_eq]
    constructor <;> rw [toNat_ofNat_of_lt (by omega)] <;> omega
  | @three a b d h₁ h₂ hb hd =>
    rw [within_iff] at hb hd
    simp only [eq_iff_toNat_eq, apply_ite UInt8.toNat, UInt8.reduceToNat] at hb hd
    obtain ⟨hb₁, hb₂⟩ := hb
    have hlow : 128 ≤ b.toNat ∧ (a.toNat = 224 → 160 ≤ b.toNat) := by split at hb₁ <;> omega
    have hhigh : b.toNat ≤ 191 ∧ (a.toNat = 237 → b.toNat ≤ 159) := by split at hb₂ <;> omega
    clear hb₁ hb₂
    rw [String.utf8EncodeChar, char3, payload, payload, toNat_char_ofNat (by omega),
      if_neg (by omega), if_neg (by omega), if_pos (by omega)]
    simp only [List.cons.injEq, and_true, eq_iff_toNat_eq]
    refine ⟨?_, ?_, ?_⟩ <;> rw [toNat_ofNat_of_lt (by omega)] <;> omega
  | @four a b d e h₁ h₂ hb hd he =>
    rw [within_iff] at hb hd he
    simp only [eq_iff_toNat_eq, apply_ite UInt8.toNat, UInt8.reduceToNat] at hb hd he
    obtain ⟨hb₁, hb₂⟩ := hb
    have hlow : 128 ≤ b.toNat ∧ (a.toNat = 240 → 144 ≤ b.toNat) := by split at hb₁ <;> omega
    have hhigh : b.toNat ≤ 191 ∧ (a.toNat = 244 → b.toNat ≤ 143) := by split at hb₂ <;> omega
    clear hb₁ hb₂
    rw [String.utf8EncodeChar, char4, payload, payload, payload, toNat_char_ofNat (by omega),
      if_neg (by omega), if_neg (by omega), if_neg (by omega)]
    simp only [List.cons.injEq, and_true, eq_iff_toNat_eq]
    refine ⟨?_, ?_, ?_, ?_⟩ <;> rw [toNat_ofNat_of_lt (by omega)] <;> omega

theorem map_cons_eq_ok {c : Char} {r : Except Fault (List Char)} {cs : List Char}
    (h : r.map (c :: ·) = .ok cs) : ∃ ds, r = .ok ds ∧ cs = c :: ds := by
  cases r with
  | error e => cases h
  | ok ds => cases h; exact ⟨ds, rfl, rfl⟩

theorem encode_of_decodeFrom {n : Nat} {bs : List UInt8} {cs : List Char}
    (h : decodeFrom n bs = .ok cs) : encode cs = bs := by
  fun_induction decodeFrom n bs generalizing cs
  all_goals try cases h
  case case1 => rfl
  case case3 n a rest ha ih =>
    obtain ⟨ds, hr, rfl⟩ := map_cons_eq_ok h
    rw [encode_cons, (Sequence.one (toNat_of_lead ha)).encodeChar, ih hr]
    rfl
  case case5 n a ha b rest hb ih =>
    obtain ⟨ds, hr, rfl⟩ := map_cons_eq_ok h
    obtain ⟨h₁, h₂⟩ := toNat_of_lead ha
    rw [encode_cons, (Sequence.two h₁ h₂ hb).encodeChar, ih hr]
    rfl
  case case9 n a low high ha b hb d rest hd ih =>
    obtain ⟨ds, hr, rfl⟩ := map_cons_eq_ok h
    obtain ⟨h₁, h₂, rfl, rfl⟩ := toNat_of_lead ha
    rw [encode_cons, (Sequence.three h₁ h₂ hb hd).encodeChar, ih hr]
    rfl
  case case15 n a low high ha b hb d hd e rest he ih =>
    obtain ⟨ds, hr, rfl⟩ := map_cons_eq_ok h
    obtain ⟨h₁, h₂, rfl, rfl⟩ := toNat_of_lead ha
    rw [encode_cons, (Sequence.four h₁ h₂ hb hd he).encodeChar, ih hr]
    rfl

/-- The bytes that decode to a list of characters are exactly its encoding. -/
theorem decode_eq_ok_iff {bs : List UInt8} {cs : List Char} :
    decode bs = .ok cs ↔ encode cs = bs := by
  constructor
  · exact encode_of_decodeFrom
  · rintro rfl
    exact decodeFrom_encode cs 0

end Utf8
end ProtoSchema
