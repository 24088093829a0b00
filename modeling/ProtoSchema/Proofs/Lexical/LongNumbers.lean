import ProtoSchema.Proofs.Lexical.Splitting

/-!
# ProtoSchema.Proofs.Lexical.LongNumbers

Where the lexer stops without refusing what it reads. It does so before a number of more digits than
it converts, behind lexemes that it reads (`MeetsLongNumber`), and nowhere else
(`failure_tokens_iff`).
-/

namespace ProtoSchema
namespace Lexical

open Scan Lexer Text

variable {α β : Type}

/-! ## Scans that refuse -/

/-- A scan that does not fail unless it refuses what it reads. -/
def Refuses (m : Scan Bytes α) : Prop := ∀ ⦃s e s'⦄, m s = .error e s' → ∃ err, e = .refused err

theorem refuses_pure (a : α) : Refuses (pure a : Scan Bytes α) := nofun

theorem refuses_refuse (c : Cause) (p : Position) : Refuses (refuse c p : Scan Bytes α) := by
  intro s e s' h
  cases h
  exact ⟨_, rfl⟩

theorem Refuses.bind {m : Scan Bytes α} {f : α → Scan Bytes β} (hm : Refuses m)
    (hf : ∀ a, Refuses (f a)) : Refuses (m >>= f) := by
  intro s e s' h
  cases hr : m s with
  | ok a s₁ =>
    rw [bind_ok hr] at h
    exact hf a h
  | error e₁ s₁ =>
    rw [bind_error hr] at h
    cases h
    exact hm hr

theorem refuses_ite {c : Prop} [Decidable c] {m n : Scan Bytes α} (hm : Refuses m)
    (hn : Refuses n) : Refuses (if c then m else n) := by
  split
  · exact hm
  · exact hn

theorem Refuses.many {step : Scan Bytes (Option α)} (h : Progresses step) (hs : Refuses step) :
    Refuses (many step h) := by
  intro s e s' hm
  obtain ⟨s₁, h₁⟩ := step_of_many_error h hm
  exact hs h₁

theorem refuses_place : Refuses (place : Scan Bytes Position) := nofun

theorem refuses_ahead (n : Nat) : Refuses (ByteInput.ahead n : Scan Bytes (List UInt8)) := nofun

theorem refuses_peek : Refuses (peek : Scan Bytes (Option UInt8)) :=
  (refuses_ahead 1).bind fun _ => refuses_pure _

theorem refuses_advance : Refuses (advance : Scan Bytes Unit) := nofun

theorem refuses_takeIf (q : UInt8 → Bool) : Refuses (takeIf q : Scan Bytes (Option UInt8)) := by
  refine refuses_peek.bind fun o => ?_
  cases o with
  | none => exact refuses_pure none
  | some b => exact refuses_ite (refuses_advance.bind fun _ => refuses_pure _) (refuses_pure none)

theorem refuses_takeWhile (q : UInt8 → Bool) : Refuses (takeWhile q : Scan Bytes (List UInt8)) :=
  (refuses_takeIf q).many _

theorem refuses_decode (inside : Kind) (start : Position) (bs : List UInt8) :
    Refuses (decode inside start bs : Scan Bytes String) := by
  unfold decode
  split
  · exact refuses_pure _
  · exact refuses_refuse _ _

theorem refuses_segment : Refuses (segment : Scan Bytes (Option (List UInt8))) := by
  refine refuses_peek.bind fun o => ?_
  cases o with
  | none => exact refuses_pure none
  | some b =>
    refine refuses_ite (refuses_place.bind fun dot => refuses_advance.bind fun _ =>
      refuses_peek.bind fun o => ?_) (refuses_pure none)
    cases o with
    | none => exact refuses_refuse _ _
    | some c =>
      exact refuses_ite ((refuses_takeWhile _).bind fun _ => refuses_pure _) (refuses_refuse _ _)

theorem refuses_stringByte (q : UInt8) (start : Position) :
    Refuses (stringByte q start : Scan Bytes (Option UInt8)) := by
  refine (refuses_takeIf _).bind fun o => ?_
  cases o with
  | none => exact refuses_refuse _ _
  | some b =>
    refine refuses_ite (refuses_pure none) (refuses_ite ((refuses_takeIf _).bind fun o => ?_)
      (refuses_pure _))
    cases o with
    | none => exact refuses_refuse _ _
    | some c => exact refuses_pure _

theorem refuses_blockByte (start : Position) :
    Refuses (blockByte start : Scan Bytes (Option UInt8)) := by
  refine refuses_peek.bind fun o => ?_
  cases o with
  | none => exact refuses_refuse _ _
  | some b =>
    exact refuses_ite ((refuses_ahead 2).bind fun two =>
      refuses_ite (refuses_advance.bind fun _ => refuses_advance.bind fun _ => refuses_pure none)
        (refuses_takeIf _)) (refuses_takeIf _)

theorem refuses_word (b : UInt8) : Refuses (word b : Scan Bytes Lexeme) :=
  (refuses_takeWhile _).bind fun _ => (refuses_segment.many _).bind fun _ => refuses_pure _

theorem refuses_string (q : UInt8) (start : Position) :
    Refuses (string q start : Scan Bytes Lexeme) :=
  ((refuses_stringByte q start).many _).bind fun _ =>
    (refuses_decode _ _ _).bind fun _ => refuses_pure _

theorem refuses_comment (start : Position) : Refuses (comment start : Scan Bytes Lexeme) := by
  have line : Refuses (lineComment start : Scan Bytes Lexeme) :=
    (refuses_takeWhile _).bind fun _ => (refuses_takeIf _).bind fun _ =>
      (refuses_decode _ _ _).bind fun _ => refuses_pure _
  have block : Refuses (blockComment start : Scan Bytes Lexeme) :=
    ((refuses_blockByte start).many _).bind fun _ =>
      (refuses_decode _ _ _).bind fun _ => refuses_pure _
  exact (refuses_ahead 2).bind fun two =>
    refuses_ite (refuses_advance.bind fun _ => refuses_advance.bind fun _ => line)
      (refuses_ite (refuses_advance.bind fun _ => refuses_advance.bind fun _ => block)
        (refuses_refuse _ _))

/-! ## Long numbers -/

/-- A longest run of digits that is a numeral and has more digits than are converted. -/
structure IsLongNumber (x rest : List UInt8) : Prop where
  longest : IsLongest IsDigits x rest
  numeral : IsNumeral x
  long : maxDigits < x.length

theorem number_gives_up {c : UInt8} {cs : List UInt8} {start p : Position} {e : Failure}
    {s' : Bytes} (hc : Byte.isDigit c = true)
    (h : number c start (⟨cs, p.next c⟩ : Bytes) = .error e s') :
    (∃ err, e = .refused err) ∨
      e = .numberTooLong maxDigits ∧ ∃ x rest, c :: cs = x ++ rest ∧ IsLongNumber x rest := by
  have hx := isLongest_takeWhile_digits hc cs
  unfold number at h
  rw [bind_ok (Bytes.takeWhile_apply _ _ _)] at h
  split at h
  · cases h
    exact .inl ⟨_, rfl⟩
  · next hzero =>
    split at h
    · next hlong =>
      cases h
      exact .inr ⟨rfl, _, _, by simp, hx, isNumeral_of_digits hx.holds hzero, hlong⟩
    · cases h

/-- A lexeme that is no number is read or refused. -/
theorem lexeme_gives_up {b : UInt8} {bs : List UInt8} {start p : Position} {e : Failure} {s' : Bytes}
    (h : lexeme b start (⟨b :: bs, p⟩ : Bytes) = .error e s') :
    (∃ err, e = .refused err) ∨
      e = .numberTooLong maxDigits ∧ ∃ x rest, b :: bs = x ++ rest ∧ IsLongNumber x rest := by
  by_cases hd : Byte.isDigit b = true
  · rw [lexeme_digit hd] at h
    exact number_gives_up hd h
  · left
    refine (?_ : Refuses (lexeme b start : Scan Bytes Lexeme)) h
    unfold lexeme
    rw [if_neg hd]
    refine refuses_ite (refuses_advance.bind fun _ => refuses_word b)
      (refuses_ite (refuses_advance.bind fun _ => refuses_string b start) ?_)
    cases Punct.ofByte? b with
    | some q => exact refuses_advance.bind fun _ => refuses_pure _
    | none => exact refuses_ite (refuses_comment start) (refuses_refuse _ _)

theorem next_gives_up {bs : List UInt8} {p : Position} {e : Failure} {s' : Bytes}
    (h : next (⟨bs, p⟩ : Bytes) = .error e s') :
    (∃ err, e = .refused err) ∨ e = .numberTooLong maxDigits ∧
      ∃ w x rest, bs = w ++ (x ++ rest) ∧ (∀ b ∈ w, Byte.isBlank b = true) ∧ IsLongNumber x rest := by
  have hsplit := List.takeWhile_append_dropWhile (p := Byte.isBlank) (l := bs)
  have hw : ∀ b ∈ bs.takeWhile Byte.isBlank, Byte.isBlank b = true :=
    fun b hb => List.all_eq_true.1 List.all_takeWhile b hb
  unfold next at h
  rw [bind_ok (Bytes.takeWhile_apply _ _ _), bind_ok (Bytes.place_apply _)] at h
  generalize bs.takeWhile Byte.isBlank = w at h hsplit hw
  generalize bs.dropWhile Byte.isBlank = cs at h hsplit
  subst hsplit
  cases cs with
  | nil =>
    rw [bind_ok Bytes.peek_nil] at h
    cases h
  | cons b cs =>
    rw [bind_ok Bytes.peek_cons] at h
    cases hl : lexeme b (p.after w) (⟨b :: cs, p.after w⟩ : Bytes) with
    | ok l s₁ => cases (bind_ok hl).symm.trans h
    | error e₁ s₁ =>
      cases (bind_error hl).symm.trans h
      rcases lexeme_gives_up hl with he | ⟨he, x, rest, hx, hlong⟩
      · exact .inl he
      · exact .inr ⟨he, w, x, rest, by rw [hx], hw, hlong⟩

/-- The lexer gives up at a long number. -/
theorem next_longNumber {w x rest : List UInt8} (hw : ∀ b ∈ w, Byte.isBlank b = true)
    (h : IsLongNumber x rest) (p : Position) :
    next (⟨w ++ (x ++ rest), p⟩ : Bytes) =
      .error (.numberTooLong maxDigits) ⟨rest, p.after (w ++ x)⟩ := by
  obtain ⟨c, cs, rfl⟩ : ∃ c cs, x = c :: cs := List.exists_cons_of_ne_nil h.longest.holds.1
  have hc : Byte.isDigit c = true := h.longest.holds.2 c (by simp)
  have hcs : ∀ d ∈ cs, Byte.isDigit d = true := fun d hd => h.longest.holds.2 d (by simp [hd])
  have hhead : ∀ d ∈ (c :: cs ++ rest).head?, Byte.isBlank d = false := by
    intro d hd
    obtain rfl : c = d := by simpa using hd
    exact (not_blank_of_digit hc).1
  have hzero : ¬ (c = Byte.zero ∧ cs ≠ []) := by
    rintro ⟨rfl, hne⟩
    rcases h.numeral.2 with e | e
    · exact hne (by simpa using e)
    · exact e rfl
  have hnumber : lexeme c (p.after w) (⟨c :: (cs ++ rest), p.after w⟩ : Bytes) =
      .error (.numberTooLong maxDigits) ⟨rest, p.after (w ++ c :: cs)⟩ := by
    rw [lexeme_digit hc]
    unfold number
    rw [bind_ok (Bytes.takeWhile_append hcs h.longest.not_digit _), if_neg hzero, if_pos h.long,
      Position.after_append]
    rfl
  unfold next
  rw [bind_ok (Bytes.takeWhile_append hw hhead p), bind_ok (Bytes.place_apply _), List.cons_append,
    bind_ok Bytes.peek_cons]
  exact bind_error hnumber

/-! ## Where lexing gives up -/

/-- Behind lexemes that the lexer reads stands a long number. -/
inductive MeetsLongNumber : List UInt8 → Prop where
  | here {w x rest : List UInt8} : (∀ b ∈ w, Byte.isBlank b = true) → IsLongNumber x rest →
      MeetsLongNumber (w ++ (x ++ rest))
  | later {w x rest : List UInt8} {l : Lexeme} : (∀ b ∈ w, Byte.isBlank b = true) →
      Reading x rest l → Fits x l → MeetsLongNumber rest → MeetsLongNumber (w ++ (x ++ rest))

theorem MeetsLongNumber.head_ne_dot {bs : List UInt8} (h : MeetsLongNumber bs) :
    bs.head? ≠ some Byte.dot := by
  cases h with
  | @here w x rest hw hlong =>
    refine head_append_ne_dot hw ?_
    obtain ⟨c, cs, rfl⟩ := List.exists_cons_of_ne_nil hlong.longest.holds.1
    simpa using (not_blank_of_digit (hlong.longest.holds.2 c (by simp))).2
  | later hw hr _ _ => exact head_append_ne_dot hw hr.head_ne_dot

theorem meetsLongNumber_of_failure {s : Bytes} {e : Failure} (h : (tokens s).failure = some e)
    (he : ¬ ∃ err, e = .refused err) : e = .numberTooLong maxDigits ∧ MeetsLongNumber s.rest := by
  unfold tokens at h
  fun_induction run next progresses_next s with
  | case1 s e' s' hs =>
    cases h
    rcases next_gives_up hs with hr | ⟨rfl, w, x, rest, hbs, hw, hlong⟩
    · exact absurd hr he
    · exact ⟨rfl, hbs ▸ .here hw hlong⟩
  | case2 => cases h
  | case3 s t s' hs r ih =>
    -- the lexer has read one more lexeme in front of the long number
    obtain ⟨hlong, hmeets⟩ := ih h
    rcases next_cases hs with ⟨e, _⟩ | ⟨w, x, rest, l, hbs, hw, hr, hf, _, rfl⟩
    · cases e
    · exact ⟨hlong, hbs ▸ .later hw hr hf hmeets⟩

theorem MeetsLongNumber.failure_tokens {bs : List UInt8} (h : MeetsLongNumber bs) (p : Position) :
    (tokens (⟨bs, p⟩ : Bytes)).failure = some (.numberTooLong maxDigits) := by
  unfold tokens
  induction h generalizing p with
  | here hw hlong => rw [run_error progresses_next (next_longNumber hw hlong p)]
  | later hw hr hf hmeets ih =>
    rw [run_some progresses_next (next_reading hw hr hf hmeets.head_ne_dot p)]
    exact ih _

/-- The lexer gives up on exactly the byte lists in which it meets a long number. -/
theorem failure_tokens_iff {s : Bytes} {e : Failure} (he : ¬ ∃ err, e = .refused err) :
    (tokens s).failure = some e ↔ e = .numberTooLong maxDigits ∧ MeetsLongNumber s.rest := by
  constructor
  · intro h
    exact meetsLongNumber_of_failure h he
  · rintro ⟨rfl, h⟩
    exact h.failure_tokens s.position

end Lexical
end ProtoSchema
