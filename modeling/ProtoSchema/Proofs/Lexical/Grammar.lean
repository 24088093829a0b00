import ProtoSchema.Proofs.Text
import ProtoSchema.Token.Lexer

/-!
# ProtoSchema.Proofs.Lexical.Grammar

The lexical grammar, stated on byte lists without reference to how they are read.

* `Reading x rest l` — the bytes `x`, with `rest` behind them, are the lexeme `l`. Names and numbers
  are longest matches; strings and comments end at the first mark that closes them.
* `Splits bs ps tail` — `bs` falls into the pieces `ps`, each one a run of blanks and the bytes of
  a lexeme, and a last run of blanks `tail`.

What is read where one piece ends depends on what is behind it only through its first byte; the
lemmas on `IsLongest` say on which one.
-/

namespace ProtoSchema
namespace Lexical

open Text

/-- `x` is the longest front of `x ++ rest` that satisfies `P`. -/
structure IsLongest (P : List UInt8 → Prop) (x rest : List UInt8) : Prop where
  holds : P x
  longest : ∀ y, P y → y <+: x ++ rest → y.length ≤ x.length

/-- A letter and then letters, digits and underscores. -/
def IsWord (x : List UInt8) : Prop :=
  ∃ b bs, x = b :: bs ∧ Byte.isLetter b = true ∧ ∀ c ∈ bs, Byte.isWordPart c = true

/-- Byte lists with dots between them. -/
def dotted (ws : List (List UInt8)) : List UInt8 := [Byte.dot].intercalate ws

/-- Words with dots between them. -/
def IsName (x : List UInt8) : Prop := ∃ ws, ws ≠ [] ∧ (∀ w ∈ ws, IsWord w) ∧ x = dotted ws

/-- The body of a string in quotes `q` and the bytes that it stands for: a backslash stands for the
byte behind it, whichever that is, and no other byte is the quote or a backslash. -/
inductive StringBody (q : UInt8) : List UInt8 → List UInt8 → Prop where
  | nil : StringBody q [] []
  | plain {b : UInt8} {body value : List UInt8} :
      b ≠ q → b ≠ Byte.backslash → StringBody q body value → StringBody q (b :: body) (b :: value)
  | escape {b : UInt8} {body value : List UInt8} :
      StringBody q body value → StringBody q (Byte.backslash :: b :: body) (b :: value)

inductive Reading : List UInt8 → List UInt8 → Lexeme → Prop where
  | keyword {x rest : List UInt8} {k : Keyword} :
      IsLongest IsName x rest → IsWord x → x = bytes k.word → Reading x rest (.keyword k)
  | ident {x rest : List UInt8} {n : String} :
      IsLongest IsName x rest → IsWord x → x = bytes n → (∀ k : Keyword, k.word ≠ n) →
      Reading x rest (.ident n)
  | dotted {rest : List UInt8} {ss : List String} :
      IsLongest IsName (dotted (ss.map bytes)) rest → 2 ≤ ss.length →
      (∀ s ∈ ss, IsWord (bytes s)) → Reading (dotted (ss.map bytes)) rest (.dotted ss)
  | number {x rest : List UInt8} :
      IsLongest IsDigits x rest → IsNumeral x → Reading x rest (.number (Byte.number x))
  | punct (p : Punct) (rest : List UInt8) : Reading [p.byte] rest (.punct p)
  | text {q : UInt8} {body rest : List UInt8} {s : String} :
      Byte.isQuote q = true → StringBody q body (bytes s) → Reading (q :: body ++ [q]) rest (.text s)
  | lineComment {line rest : List UInt8} {s : String} :
      Byte.lineFeed ∉ line → Lexer.withoutReturn line = bytes s →
      Reading (Byte.slash :: Byte.slash :: line ++ [Byte.lineFeed]) rest (.comment s)
  | lastComment {line : List UInt8} {s : String} :
      Byte.lineFeed ∉ line → Lexer.withoutReturn line = bytes s →
      Reading (Byte.slash :: Byte.slash :: line) [] (.comment s)
  | blockComment {body rest : List UInt8} {s : String} :
      ¬ [Byte.star, Byte.slash] <:+: body ++ [Byte.star] → body = bytes s →
      Reading (Byte.slash :: Byte.star :: body ++ [Byte.star, Byte.slash]) rest (.comment s)

/-- A run of blanks and the bytes of the lexeme behind it. -/
structure Piece where
  blanks : List UInt8
  source : List UInt8
  lexeme : Lexeme

inductive Splits : List UInt8 → List Piece → List UInt8 → Prop where
  | nil {tail : List UInt8} : (∀ b ∈ tail, Byte.isBlank b = true) → Splits tail [] tail
  | cons {w x rest tail : List UInt8} {l : Lexeme} {ps : List Piece} :
      (∀ b ∈ w, Byte.isBlank b = true) → Reading x rest l → Splits rest ps tail →
      Splits (w ++ (x ++ rest)) (⟨w, x, l⟩ :: ps) tail

/-! ## Classes of bytes -/

theorem not_wordPart_dot : Byte.isWordPart Byte.dot = false := by decide

theorem wordPart_of_letter {b : UInt8} (h : Byte.isLetter b = true) : Byte.isWordPart b = true := by
  simp [Byte.isWordPart, h]

theorem not_letter_of_digit {b : UInt8} (h : Byte.isDigit b = true) : Byte.isLetter b = false := by
  simp only [Byte.isDigit, Byte.isLetter, Bool.and_eq_true, Bool.or_eq_false_iff,
    Bool.and_eq_false_iff, decide_eq_true_eq, decide_eq_false_iff_not, UInt8.le_iff_toNat_le,
    UInt8.reduceToNat] at h ⊢
  omega

theorem quote_cases {b : UInt8} (h : Byte.isQuote b = true) :
    b = Byte.doubleQuote ∨ b = Byte.apostrophe := by
  simpa [Byte.isQuote] using h

theorem blank_cases {b : UInt8} (h : Byte.isBlank b = true) :
    b = 0x20 ∨ b = 0x09 ∨ b = Byte.carriageReturn ∨ b = Byte.lineFeed := by
  simpa [Byte.isBlank, or_assoc] using h

theorem ascii_of_blank {b : UInt8} (h : Byte.isBlank b = true) : b.toNat < 0x80 := by
  rcases blank_cases h with rfl | rfl | rfl | rfl <;> decide

theorem byte_of_ofByte? {b : UInt8} {p : Punct} (h : Punct.ofByte? b = some p) : p.byte = b := by
  simpa using List.find?_some h

/-! ## Names -/

@[simp] theorem dotted_singleton (w : List UInt8) : dotted [w] = w := by simp [dotted]

theorem dotted_cons (w : List UInt8) (ws : List (List UInt8)) :
    dotted (w :: ws) = w ++ ws.flatMap (Byte.dot :: ·) := by
  induction ws generalizing w with
  | nil => simp
  | cons v ws ih =>
    have h : dotted (w :: v :: ws) = w ++ Byte.dot :: dotted (v :: ws) := by
      simp [dotted, List.intercalate_cons_cons]
    rw [h, ih v, List.flatMap_cons, List.cons_append]

theorem IsWord.wordPart {x : List UInt8} (h : IsWord x) : ∀ c ∈ x, Byte.isWordPart c = true := by
  obtain ⟨b, bs, rfl, hb, hbs⟩ := h
  intro c hc
  rcases List.mem_cons.1 hc with rfl | hc
  · exact wordPart_of_letter hb
  · exact hbs c hc

theorem IsName.of_word {x : List UInt8} (h : IsWord x) : IsName x :=
  ⟨[x], by simp, by simpa using h, by simp⟩

/-- The bytes of a name. -/
theorem IsName.mem {x : List UInt8} (h : IsName x) :
    ∀ c ∈ x, Byte.isWordPart c = true ∨ c = Byte.dot := by
  obtain ⟨ws, hne, hw, rfl⟩ := h
  cases ws with
  | nil => exact absurd rfl hne
  | cons w ws =>
    intro c hc
    rw [dotted_cons, List.mem_append, List.mem_flatMap] at hc
    rcases hc with hc | ⟨v, hv, hc⟩
    · exact .inl ((hw w (by simp)).wordPart c hc)
    · rcases List.mem_cons.1 hc with rfl | hc
      · exact .inr rfl
      · exact .inl ((hw v (by simp [hv])).wordPart c hc)

theorem IsWord.append {x : List UInt8} {c : UInt8} (h : IsWord x) (hc : Byte.isWordPart c = true) :
    IsWord (x ++ [c]) := by
  obtain ⟨b, bs, rfl, hb, hbs⟩ := h
  refine ⟨b, bs ++ [c], rfl, hb, ?_⟩
  intro d hd
  rcases List.mem_append.1 hd with hd | hd
  · exact hbs d hd
  · rw [List.mem_singleton.1 hd]; exact hc

/-- A name goes on with every byte that may stand inside a word. -/
theorem IsName.append {x : List UInt8} {c : UInt8} (h : IsName x) (hc : Byte.isWordPart c = true) :
    IsName (x ++ [c]) := by
  obtain ⟨ws, hne, hw, rfl⟩ := h
  obtain ⟨init, last, rfl⟩ : ∃ init last, ws = init ++ [last] :=
    ⟨ws.dropLast, ws.getLast hne, (List.dropLast_concat_getLast hne).symm⟩
  refine ⟨init ++ [last ++ [c]], by simp, ?_, ?_⟩
  · intro w hmem
    rcases List.mem_append.1 hmem with hmem | hmem
    · exact hw w (by simp [hmem])
    · rw [List.mem_singleton.1 hmem]
      exact (hw last (by simp)).append hc
  · cases init with
    | nil => simp
    | cons v init => simp [dotted_cons, List.flatMap_append]

/-! ## Longest matches -/

/-- Where a longest name ends, no part of a word follows. -/
theorem IsLongest.not_wordPart {x rest : List UInt8} (h : IsLongest IsName x rest) :
    ∀ c ∈ rest.head?, Byte.isWordPart c = false := by
  intro c hc
  cases rest with
  | nil => simp at hc
  | cons d rest =>
    obtain rfl : d = c := by simpa using hc
    cases hd : Byte.isWordPart d with
    | false => rfl
    | true =>
      have := h.longest (x ++ [d]) (h.holds.append hd) ⟨rest, by simp⟩
      rw [List.length_append, List.length_singleton] at this
      omega

theorem IsLongest.not_digit {x rest : List UInt8} (h : IsLongest IsDigits x rest) :
    ∀ c ∈ rest.head?, Byte.isDigit c = false := by
  intro c hc
  cases rest with
  | nil => simp at hc
  | cons d rest =>
    obtain rfl : d = c := by simpa using hc
    cases hd : Byte.isDigit d with
    | false => rfl
    | true =>
      have hx : IsDigits (x ++ [d]) := by
        refine ⟨by simp, ?_⟩
        intro b hb
        rcases List.mem_append.1 hb with hb | hb
        · exact h.holds.2 b hb
        · rw [List.mem_singleton.1 hb]; exact hd
      have := h.longest (x ++ [d]) hx ⟨rest, by simp⟩
      rw [List.length_append, List.length_singleton] at this
      omega

/-- A match is longest if the byte behind it belongs to no match. -/
theorem IsLongest.of_head {P : List UInt8 → Prop} {x rest : List UInt8} (hx : P x)
    (h : ∀ c ∈ rest.head?, ∀ y, P y → c ∉ y) : IsLongest P x rest := by
  refine ⟨hx, ?_⟩
  intro y hy ⟨z, hz⟩
  refine Nat.le_of_not_lt fun hlt => ?_
  obtain ⟨u, rfl⟩ : x <+: y := List.prefix_of_prefix_length_le ⟨rest, rfl⟩ ⟨z, hz⟩ (by omega)
  have hu : u ++ z = rest := by simpa using hz
  cases u with
  | nil => simp at hlt
  | cons c u =>
    refine h c (by simp [← hu]) _ hy ?_
    simp

theorem isLongest_name {x rest : List UInt8} (hx : IsName x)
    (h : ∀ c ∈ rest.head?, Byte.isWordPart c = false ∧ c ≠ Byte.dot) : IsLongest IsName x rest := by
  refine .of_head hx ?_
  intro c hc y hy hmem
  obtain ⟨h₁, h₂⟩ := h c hc
  rcases hy.mem c hmem with h₃ | h₃
  · simp [h₁] at h₃
  · exact h₂ h₃

theorem isLongest_digits {x rest : List UInt8} (hx : IsDigits x)
    (h : ∀ c ∈ rest.head?, Byte.isDigit c = false) : IsLongest IsDigits x rest := by
  refine .of_head hx ?_
  intro c hc y hy hmem
  have := hy.2 c hmem
  simp [h c hc] at this

/-- A text has one longest match. -/
theorem IsLongest.unique {P : List UInt8 → Prop} {x rest y rest' : List UInt8}
    (h : IsLongest P x rest) (h' : IsLongest P y rest') (e : x ++ rest = y ++ rest') : x = y := by
  have h₁ : x.length ≤ y.length := h'.longest x h.holds ⟨rest, e⟩
  have h₂ : y.length ≤ x.length := h.longest y h'.holds ⟨rest', e.symm⟩
  exact (List.append_inj e (by omega)).1

/-! ## Readings -/

theorem not_blank_of_letter {b : UInt8} (h : Byte.isLetter b = true) :
    Byte.isBlank b = false ∧ b ≠ Byte.dot := by
  refine ⟨?_, ?_⟩
  · cases hb : Byte.isBlank b with
    | false => rfl
    | true => rcases blank_cases hb with rfl | rfl | rfl | rfl <;> cases h
  · rintro rfl
    cases h

theorem not_blank_of_digit {b : UInt8} (h : Byte.isDigit b = true) :
    Byte.isBlank b = false ∧ b ≠ Byte.dot := by
  refine ⟨?_, ?_⟩
  · cases hb : Byte.isBlank b with
    | false => rfl
    | true => rcases blank_cases hb with rfl | rfl | rfl | rfl <;> cases h
  · rintro rfl
    cases h

/-- A name begins with a letter. -/
theorem IsName.head {x : List UInt8} (h : IsName x) :
    ∃ b y, x = b :: y ∧ Byte.isLetter b = true := by
  obtain ⟨ws, hne, hw, rfl⟩ := h
  cases ws with
  | nil => exact absurd rfl hne
  | cons w ws =>
    obtain ⟨b, bs, rfl, hb, _⟩ := hw w (by simp)
    exact ⟨b, _, by rw [dotted_cons]; rfl, hb⟩

/-- A lexeme begins neither with a blank nor with a dot, and with a digit only if it is a number. -/
theorem Reading.head {x rest : List UInt8} {l : Lexeme} (h : Reading x rest l) :
    ∃ b y, x = b :: y ∧ (Byte.isBlank b = false ∧ b ≠ Byte.dot) ∧
      (Byte.isDigit b = true → IsLongest IsDigits x rest ∧ l = .number (Byte.number x)) := by
  have name {x rest : List UInt8} {l : Lexeme} (h : IsLongest IsName x rest) :
      ∃ b y, x = b :: y ∧ (Byte.isBlank b = false ∧ b ≠ Byte.dot) ∧
        (Byte.isDigit b = true → IsLongest IsDigits x rest ∧ l = .number (Byte.number x)) := by
    obtain ⟨b, y, hx, hb⟩ := h.holds.head
    refine ⟨b, y, hx, not_blank_of_letter hb, fun hd => ?_⟩
    rw [not_letter_of_digit hd] at hb
    cases hb
  cases h with
  | keyword hl _ _ => exact name hl
  | ident hl _ _ _ => exact name hl
  | dotted hl _ _ => exact name hl
  | number hl _ =>
    rcases x with _ | ⟨b, y⟩
    · exact absurd rfl hl.holds.1
    · exact ⟨b, y, rfl, not_blank_of_digit (hl.holds.2 b (by simp)), fun _ => ⟨hl, rfl⟩⟩
  | punct p _ =>
    exact ⟨p.byte, [], rfl, by cases p <;> decide, fun h => absurd h (by cases p <;> decide)⟩
  | text hq _ =>
    refine ⟨_, _, rfl, ?_⟩
    rcases quote_cases hq with rfl | rfl
    · exact ⟨by decide, fun h => absurd h (by decide)⟩
    · exact ⟨by decide, fun h => absurd h (by decide)⟩
  | lineComment => exact ⟨_, _, rfl, by decide, fun h => absurd h (by decide)⟩
  | lastComment => exact ⟨_, _, rfl, by decide, fun h => absurd h (by decide)⟩
  | blockComment => exact ⟨_, _, rfl, by decide, fun h => absurd h (by decide)⟩

theorem head_append_ne_dot {w x : List UInt8} (hw : ∀ b ∈ w, Byte.isBlank b = true)
    (hx : x.head? ≠ some Byte.dot) : (w ++ x).head? ≠ some Byte.dot := by
  cases w with
  | nil => exact hx
  | cons c w =>
    intro e
    obtain rfl : c = Byte.dot := by simpa using e
    cases hw Byte.dot (by simp)

theorem Reading.head_ne_dot {x rest : List UInt8} {l : Lexeme} (h : Reading x rest l) :
    (x ++ rest).head? ≠ some Byte.dot := by
  obtain ⟨b, y, rfl, hb, _⟩ := h.head
  simpa using hb.2

/-- No split begins with a dot. -/
theorem Splits.head_ne_dot {bs tail : List UInt8} {ps : List Piece} (h : Splits bs ps tail) :
    bs.head? ≠ some Byte.dot := by
  cases h with
  | nil hw =>
    rw [← List.append_nil bs]
    exact head_append_ne_dot hw nofun
  | cons hw hr _ => exact head_append_ne_dot hw hr.head_ne_dot

/-- Where the text of a lexeme is not changed by reading it. -/
theorem Reading.bytes_plain {x rest : List UInt8} {l : Lexeme} (h : Reading x rest l)
    (ht : ∀ s, l ≠ .text s) (hc : ∀ s, l ≠ .comment s) : bytes l.plain = x := by
  cases h with
  | keyword _ _ hx => exact hx.symm
  | ident _ _ hx _ => exact hx.symm
  | dotted _ _ _ => exact bytes_intercalate "." _
  | number hl hn => exact bytes_toString_number hn
  | punct p _ => cases p <;> decide
  | text => exact absurd rfl (ht _)
  | lineComment => exact absurd rfl (hc _)
  | lastComment => exact absurd rfl (hc _)
  | blockComment => exact absurd rfl (hc _)

theorem Splits.bytes_plain {bs tail : List UInt8} {ps : List Piece} (h : Splits bs ps tail) :
    ∀ q ∈ ps, (∀ s, q.lexeme ≠ .text s) → (∀ s, q.lexeme ≠ .comment s) →
      bytes q.lexeme.plain = q.source := by
  induction h with
  | nil _ => simp
  | cons _ hr _ ih =>
    intro q hq
    rcases List.mem_cons.1 hq with rfl | hq
    · exact hr.bytes_plain
    · exact ih q hq

end Lexical
end ProtoSchema
