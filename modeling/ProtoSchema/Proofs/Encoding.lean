import ProtoSchema.Proofs.Text

/-!
# ProtoSchema.Proofs.Encoding

Well-formed UTF-8 and where it can be cut. A byte list is well-formed if it encodes characters
(`IsEncoding`). Every byte but the first of a character continues it, and no other byte does; so a
well-formed byte list is well-formed on both sides of a cut that stands before a byte that continues
no character (`isEncoding_append_cons`), and bytes below 0x80 can be put into such a place or be taken
out of any place (`isEncoding_append_ascii`).
-/

namespace ProtoSchema
namespace Utf8

/-- The byte lists that are well-formed UTF-8. -/
def IsEncoding (bs : List UInt8) : Prop := ∃ cs, encode cs = bs

/-- The bytes that stand inside a character, behind its first byte. -/
def IsContinuation (b : UInt8) : Prop := 0x80 ≤ b.toNat ∧ b.toNat < 0xC0

instance : DecidablePred IsContinuation := fun _ => inferInstanceAs (Decidable (_ ∧ _))

variable {x y bs : List UInt8} {b : UInt8} {c : Char}

theorem isEncoding_iff_decode : IsEncoding bs ↔ ∃ cs, decode bs = .ok cs :=
  exists_congr fun _ => decode_eq_ok_iff.symm

theorem isEncoding_iff_bytes : IsEncoding bs ↔ ∃ s, Text.bytes s = bs := by
  constructor
  · intro ⟨cs, hcs⟩
    exact ⟨String.ofList cs, by rw [Text.bytes_ofList, hcs]⟩
  · intro ⟨s, hs⟩
    exact ⟨s.toList, hs⟩

@[simp] theorem isEncoding_bytes (s : String) : IsEncoding (Text.bytes s) := ⟨s.toList, rfl⟩

@[simp] theorem isEncoding_nil : IsEncoding [] := ⟨[], rfl⟩

theorem IsEncoding.append (hx : IsEncoding x) (hy : IsEncoding y) : IsEncoding (x ++ y) := by
  obtain ⟨cs, rfl⟩ := hx
  obtain ⟨ds, rfl⟩ := hy
  exact ⟨cs ++ ds, encode_append cs ds⟩

/-! ## Taking characters off the front -/

theorem isEncoding_encodeChar_append :
    IsEncoding (String.utf8EncodeChar c ++ y) ↔ IsEncoding y := by
  constructor
  · intro h
    obtain ⟨cs, hcs⟩ := isEncoding_iff_decode.1 h
    rw [decode, (sequence_encodeChar c).decodeFrom] at hcs
    obtain ⟨ds, hds, _⟩ := map_cons_eq_ok hcs
    exact ⟨ds, encode_of_decodeFrom hds⟩
  · intro ⟨ds, hds⟩
    exact ⟨c :: ds, by rw [encode_cons, hds]⟩

theorem IsEncoding.append_iff (hx : IsEncoding x) : IsEncoding (x ++ y) ↔ IsEncoding y := by
  obtain ⟨cs, rfl⟩ := hx
  induction cs with
  | nil => simp
  | cons c cs ih => rw [encode_cons, List.append_assoc, isEncoding_encodeChar_append, ih]

theorem isEncoding_cons_ascii (hb : b.toNat < 0x80) : IsEncoding (b :: y) ↔ IsEncoding y := by
  have h := isEncoding_encodeChar_append (c := Byte.toChar b) (y := y)
  rwa [Text.encodeChar_toChar hb] at h

theorem isEncoding_of_ascii (h : ∀ b ∈ x, b.toNat < 0x80) : IsEncoding x := by
  induction x with
  | nil => simp
  | cons b x ih =>
    rw [isEncoding_cons_ascii (h b (by simp))]
    exact ih fun c hc => h c (by simp [hc])

theorem isEncoding_dropWhile {q : UInt8 → Bool} (hq : ∀ b, q b = true → b.toNat < 0x80)
    (h : IsEncoding bs) : IsEncoding (bs.dropWhile q) := by
  have hfront : IsEncoding (bs.takeWhile q) :=
    isEncoding_of_ascii fun b hb => hq b (List.all_eq_true.1 List.all_takeWhile b hb)
  rwa [← List.takeWhile_append_dropWhile (p := q) (l := bs), hfront.append_iff] at h

/-! ## Cutting between characters -/

theorem isContinuation_of_within {low high : UInt8} (hl : 0x80 ≤ low.toNat) (hh : high.toNat < 0xC0)
    (h : within low high b = true) : IsContinuation b := by
  obtain ⟨h₁, h₂⟩ := within_iff.1 h
  exact ⟨by omega, by omega⟩

/-- The first byte of a character continues nothing, the others continue it. -/
theorem encodeChar_eq_cons (c : Char) : ∃ a t, String.utf8EncodeChar c = a :: t ∧
    ¬ IsContinuation a ∧ ∀ b ∈ t, IsContinuation b := by
  have hs := sequence_encodeChar c
  generalize String.utf8EncodeChar c = x at hs
  have tail {b : UInt8} (h : within 0x80 0xBF b = true) : IsContinuation b :=
    isContinuation_of_within (by decide) (by decide) h
  cases hs with
  | @one a h => exact ⟨a, [], rfl, by unfold IsContinuation; omega, by simp⟩
  | @two a b h₁ h₂ hb =>
    exact ⟨a, [b], rfl, by unfold IsContinuation; omega, by simpa using tail hb⟩
  | @three a b d h₁ h₂ hb hd =>
    have hb' : IsContinuation b :=
      isContinuation_of_within (by split <;> decide) (by split <;> decide) hb
    exact ⟨a, [b, d], rfl, by unfold IsContinuation; omega, by simpa using ⟨hb', tail hd⟩⟩
  | @four a b d e h₁ h₂ hb hd he =>
    have hb' : IsContinuation b :=
      isContinuation_of_within (by split <;> decide) (by split <;> decide) hb
    exact ⟨a, [b, d, e], rfl, by unfold IsContinuation; omega, by simpa using ⟨hb', tail hd, tail he⟩⟩

/-- Well-formed bytes do not begin inside a character. -/
theorem IsEncoding.head (h : IsEncoding (b :: y)) : ¬ IsContinuation b := by
  obtain ⟨_ | ⟨c, cs⟩, hcs⟩ := h
  · cases hcs
  · obtain ⟨a, t, hc, ha, _⟩ := encodeChar_eq_cons c
    rw [encode_cons, hc, List.cons_append, List.cons.injEq] at hcs
    rwa [← hcs.1]

theorem not_isContinuation_of_ascii (h : b.toNat < 0x80) : ¬ IsContinuation b := by
  simp only [IsContinuation]
  omega

/-- A cut before a byte that continues nothing. -/
theorem isEncoding_append_cons (hb : ¬ IsContinuation b) :
    IsEncoding (x ++ b :: y) ↔ IsEncoding x ∧ IsEncoding (b :: y) := by
  constructor
  · intro ⟨cs, hcs⟩
    -- the characters before the cut, one after another
    induction cs generalizing x with
    | nil => simp at hcs
    | cons c cs ih =>
      obtain ⟨a, t, hc, _, ht⟩ := encodeChar_eq_cons c
      rcases x with _ | ⟨d, x⟩
      · exact ⟨isEncoding_nil, ⟨c :: cs, hcs⟩⟩
      rw [encode_cons, hc, List.cons_append, List.cons_append, List.cons.injEq] at hcs
      obtain ⟨rfl, hcs⟩ := hcs
      rcases List.append_eq_append_iff.1 hcs with ⟨u, rfl, hu⟩ | ⟨u, hu, hcut⟩
      · obtain ⟨hx, hy⟩ := ih hu
        refine ⟨?_, hy⟩
        rw [← List.cons_append, ← hc, isEncoding_encodeChar_append]
        exact hx
      · cases u with
        | nil =>
          rw [List.append_nil] at hu
          rw [← hu, ← hc]
          exact ⟨⟨[c], by simp⟩, ⟨cs, hcut.symm⟩⟩
        | cons e u =>
          rw [List.cons_append, List.cons.injEq] at hcut
          have hmem : b ∈ t := by simp [hu, hcut.1]
          exact absurd (ht b hmem) hb
  · intro ⟨hx, hy⟩
    exact hx.append hy

/-- A cut at an ASCII byte, which belongs to neither side. -/
theorem isEncoding_append_ascii (hb : b.toNat < 0x80) :
    IsEncoding (x ++ b :: y) ↔ IsEncoding x ∧ IsEncoding y := by
  rw [isEncoding_append_cons (not_isContinuation_of_ascii hb), isEncoding_cons_ascii hb]

/-- A cut behind an ASCII byte, or at one of the ends. -/
theorem isEncoding_append_of_last (h : y = [] ∨ ∀ b ∈ x.getLast?, b.toNat < 0x80) :
    IsEncoding (x ++ y) ↔ IsEncoding x ∧ IsEncoding y := by
  rcases h with rfl | h
  · simp
  · rcases List.eq_nil_or_concat x with rfl | ⟨init, b, rfl⟩
    · simp
    · have hb : b.toNat < 0x80 := h b (by simp)
      have hlast := isEncoding_append_ascii (x := init) (y := []) hb
      rw [List.concat_eq_append, List.append_assoc, List.singleton_append,
        isEncoding_append_ascii hb, hlast]
      simp

end Utf8
end ProtoSchema
