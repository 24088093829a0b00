import ProtoSchema.Proofs.Encoding
import ProtoSchema.Proofs.Faithful
import ProtoSchema.Proofs.Lexical.Offsets

/-!
# ProtoSchema.Proofs.Lexical.Encoding

What the lexer makes of well-formed and of ill-formed UTF-8.

* `wellEnded_next` — from well-formed bytes a token is read or refused for another reason than an
  ill-formed text, and well-formed bytes are left. Lexemes are cut at ASCII bytes, and taking the
  escaping backslashes out of a string takes out ASCII bytes.
* `next_illFormed` — a string or comment whose contents are ill-formed is refused.
* `Splits.isEncoding_iff` — bytes that are split into lexemes are well-formed unless a backslash in a
  string escapes a byte from the inside of a character. Such a backslash is not part of the contents.
-/

namespace ProtoSchema

/-- A failure at a string or comment whose contents are ill-formed. -/
def Failure.IsInvalidUtf8 (e : Failure) : Prop :=
  ∃ inside fault p, e = .refused ⟨.invalidUtf8 inside fault, p⟩

namespace Lexical

open Scan Lexer Text Utf8

variable {α β : Type}

/-! ## Contents -/

/-- Reading escapes takes ASCII bytes away. -/
theorem StringBody.isEncoding_append {q : UInt8} {body value : List UInt8}
    (h : StringBody q body value) {x : List UInt8} (hx : IsEncoding (x ++ body)) :
    IsEncoding (x ++ value) := by
  induction h generalizing x with
  | nil => exact hx
  | @plain b body value _ _ _ ih =>
    rw [List.append_cons] at hx ⊢
    exact ih hx
  | @escape b body value _ ih =>
    have hx' := (isEncoding_append_ascii (by decide)).1 hx
    have := hx'.1.append hx'.2
    rw [List.append_cons] at this ⊢
    exact ih this

theorem StringBody.isEncoding_value {q : UInt8} {body value : List UInt8}
    (h : StringBody q body value) (hb : IsEncoding body) : IsEncoding value :=
  h.isEncoding_append (x := []) hb

/-- The body of a string in which a backslash escapes a byte from the inside of a character. -/
inductive EscapesInside : List UInt8 → Prop where
  | here {b : UInt8} {body : List UInt8} : IsContinuation b →
      EscapesInside (Byte.backslash :: b :: body)
  | escape {b : UInt8} {body : List UInt8} : EscapesInside body →
      EscapesInside (Byte.backslash :: b :: body)
  | plain {b : UInt8} {body : List UInt8} : b ≠ Byte.backslash → EscapesInside body →
      EscapesInside (b :: body)

theorem EscapesInside.not_isEncoding {body : List UInt8} (h : EscapesInside body)
    (x : List UInt8) : ¬ IsEncoding (x ++ body) := by
  induction h generalizing x with
  | here hb =>
    intro hx
    exact ((isEncoding_append_ascii (by decide)).1 hx).2.head hb
  | @escape b body _ ih =>
    have := ih (x ++ [Byte.backslash, b])
    rwa [List.append_assoc] at this
  | @plain b body _ _ ih =>
    have := ih (x ++ [b])
    rwa [List.append_assoc] at this

theorem StringBody.isEncoding_body {q : UInt8} {body value : List UInt8}
    (h : StringBody q body value) (hb : ¬ EscapesInside body) {x : List UInt8}
    (hx : IsEncoding (x ++ value)) : IsEncoding (x ++ body) := by
  induction h generalizing x with
  | nil => exact hx
  | plain _ hs _ ih =>
    rw [List.append_cons] at hx ⊢
    exact ih (fun hin => hb (.plain hs hin)) hx
  | @escape b body value _ ih =>
    rw [List.append_cons] at hx
    have := ih (fun hin => hb (.escape hin)) hx
    rw [← List.append_cons, isEncoding_append_cons fun hin => hb (.here hin)] at this
    exact (isEncoding_append_ascii (by decide)).2 this

/-- The contents of a string are well-formed in the source unless a backslash splits a character. -/
theorem StringBody.isEncoding_iff {q : UInt8} {body value : List UInt8}
    (h : StringBody q body value) (hv : IsEncoding value) :
    IsEncoding body ↔ ¬ EscapesInside body := by
  constructor
  · intro hbody hin
    exact hin.not_isEncoding [] hbody
  · intro hin
    exact h.isEncoding_body hin (x := []) hv

theorem isEncoding_withoutReturn {line : List UInt8} :
    IsEncoding (withoutReturn line) ↔ IsEncoding line := by
  unfold withoutReturn
  split
  · next h =>
    obtain ⟨init, rfl⟩ := List.getLast?_eq_some_iff.1 h
    rw [List.dropLast_concat, isEncoding_append_ascii (by decide)]
    simp
  · rfl

theorem ascii_of_quote {q : UInt8} (h : Byte.isQuote q = true) : q.toNat < 0x80 := by
  rcases quote_cases h with rfl | rfl <;> decide

/-! ## Reading well-formed bytes -/

/-- The bytes that are left are well-formed, and no contents have been refused as ill-formed. -/
def WellEnded : EStateM.Result Failure Bytes α → Prop
  | .ok _ s => IsEncoding s.rest
  | .error e s => ¬ e.IsInvalidUtf8 ∧ IsEncoding s.rest

theorem WellEnded.bind {m : Scan Bytes α} {f : α → Scan Bytes β} {s : Bytes} (h : WellEnded (m s))
    (hf : ∀ a s', IsEncoding s'.rest → WellEnded (f a s')) : WellEnded ((m >>= f) s) := by
  cases hr : m s with
  | ok a s₁ =>
    rw [hr] at h
    rw [bind_ok hr]
    exact hf a s₁ h
  | error e s₁ =>
    rw [hr] at h
    rw [bind_error hr]
    exact h

theorem wellEnded_refuse {c : Cause} (hc : c.layer = .lexical) {p : Position} {s : Bytes}
    (hs : IsEncoding s.rest) : WellEnded ((refuse c p : Scan Bytes α) s) := by
  refine ⟨?_, hs⟩
  intro ⟨_, _, _, h⟩
  cases h
  cases hc

theorem wellEnded_many {step : Scan Bytes (Option α)} (h : Progresses step)
    (hstep : ∀ s, IsEncoding s.rest → WellEnded (step s)) {s : Bytes} (hs : IsEncoding s.rest) :
    WellEnded (many step h s) := by
  have hrun : IsEncoding (run step h s).final.rest ∧
      ∀ e, (run step h s).failure = some e → ¬ e.IsInvalidUtf8 := by
    fun_induction run step h s with
    | case1 s e s' hr =>
      have := hstep s hs
      rw [hr] at this
      exact ⟨this.2, by simpa using this.1⟩
    | case2 s s' hr =>
      have := hstep s hs
      rw [hr] at this
      exact ⟨this, by simp⟩
    | case3 s a s' hr r ih =>
      have := hstep s hs
      rw [hr] at this
      exact ih this
  unfold many
  split
  · next hr =>
    rw [hr] at hrun
    exact hrun.1
  · next hr =>
    rw [hr] at hrun
    exact ⟨hrun.2 _ rfl, hrun.1⟩

theorem decode_of_isEncoding {inside : Kind} {start : Position} {bs : List UInt8} (s : Bytes)
    (h : IsEncoding bs) : ∃ v, decode inside start bs s = .ok v s := by
  obtain ⟨v, hv⟩ := isEncoding_iff_bytes.1 h
  exact ⟨v, decode_eq_ok_iff.2 ⟨hv, rfl⟩⟩

theorem wellEnded_segment {s : Bytes} (h : IsEncoding s.rest) : WellEnded (segment s) := by
  obtain ⟨bs, p⟩ := s
  rcases segment_cases bs p with ⟨e, _⟩ | ⟨c, cs, rfl, hc, e⟩ | ⟨cs, rfl, _, e⟩
  · rw [e]
    exact h
  · have hc' : c.toNat < 0x80 := ascii_of_wordPart (wordPart_of_letter hc)
    have hcs := (isEncoding_cons_ascii hc').1 ((isEncoding_cons_ascii (by decide)).1 h)
    rw [e]
    exact isEncoding_dropWhile (fun _ => ascii_of_wordPart) hcs
  · rw [e]
    exact wellEnded_refuse rfl ((isEncoding_cons_ascii (by decide)).1 h)

theorem wellEnded_word (b : UInt8) {s : Bytes} (h : IsEncoding s.rest) : WellEnded (word b s) := by
  unfold word
  rw [bind_ok (Bytes.takeWhile_apply _ _ _)]
  have hrest := isEncoding_dropWhile (fun _ => ascii_of_wordPart) h
  exact (wellEnded_many _ (fun _ => wellEnded_segment) hrest).bind fun _ _ hs => hs

theorem wellEnded_number (b : UInt8) (start : Position) {s : Bytes} (h : IsEncoding s.rest) :
    WellEnded (number b start s) := by
  have hrest := isEncoding_dropWhile (fun _ => ascii_of_digit) h
  unfold number
  rw [bind_ok (Bytes.takeWhile_apply _ _ _)]
  split
  · exact wellEnded_refuse rfl hrest
  · split
    · refine ⟨?_, hrest⟩
      intro ⟨_, _, _, he⟩
      cases he
    · exact hrest

theorem stringByte_error {q : UInt8} (hq : q ≠ Byte.backslash) {start : Position} {s s' : Bytes}
    {e : Failure} (h : stringByte q start s = .error e s') :
    e = .refused ⟨.unterminatedString, start⟩ ∧ s'.rest = [] := by
  obtain ⟨bs, p⟩ := s
  rcases stringByte_cases hq start bs p with
    ⟨_, _, e⟩ | ⟨_, _, _, e⟩ | ⟨_, _, _, _, _, e⟩ | ⟨rfl | rfl, _⟩
  · cases e.symm.trans h
  · cases e.symm.trans h
  · cases e.symm.trans h
  · cases h
    exact ⟨rfl, rfl⟩
  · unfold stringByte at h
    rw [bind_ok Bytes.take_cons] at h
    simp only [if_neg hq.symm, if_true] at h
    cases h
    exact ⟨rfl, rfl⟩

theorem wellEnded_string {q : UInt8} (hq : Byte.isQuote q = true) (start : Position) {s : Bytes}
    (h : IsEncoding s.rest) : WellEnded (string q start s) := by
  have hslash := quote_ne_backslash hq
  unfold string
  cases hr : many (stringByte q start) (progresses_stringByte q start) s with
  | ok value s₁ =>
    obtain ⟨body, hbody, hrest, _⟩ := yields_stringByte_sound hslash ((many_eq_ok_iff _).1 hr)
    rw [hrest, isEncoding_append_ascii (ascii_of_quote hq)] at h
    obtain ⟨v, hv⟩ := @decode_of_isEncoding .text start _ s₁ (hbody.isEncoding_value h.1)
    rw [bind_ok hr, bind_ok hv]
    exact h.2
  | error e s₁ =>
    obtain ⟨s₂, hs₂⟩ := step_of_many_error _ hr
    obtain ⟨rfl, hend⟩ := stringByte_error hslash hs₂
    rw [bind_error hr]
    exact wellEnded_refuse rfl (by simp [hend])

theorem wellEnded_lineComment (start : Position) {s : Bytes} (h : IsEncoding s.rest) :
    WellEnded (lineComment start s) := by
  obtain ⟨bs, p⟩ := s
  have hsplit := List.takeWhile_append_dropWhile (p := (· != Byte.lineFeed)) (l := bs)
  unfold lineComment
  rw [bind_ok (Bytes.takeWhile_apply _ _ _)]
  cases hd : bs.dropWhile (· != Byte.lineFeed) with
  | nil =>
    rw [hd, List.append_nil] at hsplit
    rw [hsplit, bind_ok Bytes.take_nil]
    obtain ⟨v, hv⟩ := decode_of_isEncoding _ (isEncoding_withoutReturn.2 h)
    rw [bind_ok hv]
    exact isEncoding_nil
  | cons c ds =>
    have hc : c = Byte.lineFeed := by
      have := head_dropWhile (· != Byte.lineFeed) bs c (by rw [hd]; rfl)
      simpa using this
    subst hc
    rw [hd] at hsplit
    have hcut := (isEncoding_append_ascii (by decide)).1 (hsplit ▸ h)
    rw [bind_ok Bytes.take_cons]
    obtain ⟨v, hv⟩ := decode_of_isEncoding _ (isEncoding_withoutReturn.2 hcut.1)
    rw [bind_ok hv]
    exact hcut.2

theorem wellEnded_blockComment (start : Position) {s : Bytes} (h : IsEncoding s.rest) :
    WellEnded (blockComment start s) := by
  unfold blockComment
  cases hr : many (blockByte start) (progresses_blockByte start) s with
  | ok body s₁ =>
    obtain ⟨hrest, _, _⟩ := yields_blockByte_sound ((many_eq_ok_iff _).1 hr)
    rw [hrest, isEncoding_append_ascii (by decide), isEncoding_cons_ascii (by decide)] at h
    obtain ⟨v, hv⟩ := decode_of_isEncoding s₁ h.1
    rw [bind_ok hr, bind_ok hv]
    exact h.2
  | error e s₁ =>
    obtain ⟨s₂, hs₂⟩ := step_of_many_error _ hr
    rw [bind_error hr]
    rcases blockByte_cases start s₂.rest s₂.position with ⟨_, _, e⟩ | ⟨_, _, _, _, e⟩ | ⟨_, e⟩
    · cases hs₂.symm.trans e
    · cases hs₂.symm.trans e
    · cases hs₂.symm.trans e
      exact wellEnded_refuse rfl isEncoding_nil

theorem wellEnded_comment (start : Position) {cs : List UInt8} {p : Position}
    (h : IsEncoding (Byte.slash :: cs)) :
    WellEnded (comment start (⟨Byte.slash :: cs, p⟩ : Bytes)) := by
  have hcs := (isEncoding_cons_ascii (by decide)).1 h
  by_cases h₁ : cs.head? = some Byte.slash
  · obtain ⟨ds, rfl⟩ := List.head?_eq_some_iff.1 h₁
    exact wellEnded_lineComment start ((isEncoding_cons_ascii (by decide)).1 hcs)
  by_cases h₂ : cs.head? = some Byte.star
  · obtain ⟨ds, rfl⟩ := List.head?_eq_some_iff.1 h₂
    exact wellEnded_blockComment start ((isEncoding_cons_ascii (by decide)).1 hcs)
  · unfold comment
    rw [bind_ok (Bytes.ahead_apply _ _)]
    rw [if_neg (by cases cs <;> simp_all), if_neg (by cases cs <;> simp_all)]
    exact wellEnded_refuse rfl h

theorem wellEnded_lexeme (start : Position) {b : UInt8} {bs : List UInt8} {p : Position}
    (h : IsEncoding (b :: bs)) : WellEnded (lexeme b start (⟨b :: bs, p⟩ : Bytes)) := by
  by_cases hletter : Byte.isLetter b = true
  · rw [lexeme_letter hletter]
    have hb := ascii_of_wordPart (wordPart_of_letter hletter)
    exact wellEnded_word b ((isEncoding_cons_ascii hb).1 h)
  by_cases hquote : Byte.isQuote b = true
  · rw [lexeme_quote hquote]
    exact wellEnded_string hquote start ((isEncoding_cons_ascii (ascii_of_quote hquote)).1 h)
  by_cases hdigit : Byte.isDigit b = true
  · rw [lexeme_digit hdigit]
    exact wellEnded_number b start ((isEncoding_cons_ascii (ascii_of_digit hdigit)).1 h)
  cases hp : Punct.ofByte? b with
  | some q =>
    obtain rfl := byte_of_ofByte? hp
    rw [lexeme_punct]
    exact (isEncoding_cons_ascii (by cases q <;> decide)).1 h
  | none =>
    unfold lexeme
    rw [if_neg hletter, if_neg hquote, if_neg hdigit]
    simp only [hp]
    split
    · next hs =>
      subst hs
      exact wellEnded_comment start h
    · exact wellEnded_refuse rfl h

theorem wellEnded_next {s : Bytes} (h : IsEncoding s.rest) : WellEnded (next s) := by
  have hrest := isEncoding_dropWhile (fun _ => ascii_of_blank) h
  unfold next
  rw [bind_ok (Bytes.takeWhile_apply _ _ _), bind_ok (Bytes.place_apply _)]
  cases hd : s.rest.dropWhile Byte.isBlank with
  | nil => exact isEncoding_nil
  | cons b bs =>
    rw [hd] at hrest
    rw [bind_ok Bytes.peek_cons]
    exact (wellEnded_lexeme _ hrest).bind fun _ _ hs => hs

/-! ## Reading from any input -/

section Inputs

variable {σ : Type} [ByteInput σ] [Faithful σ] {s s₁ s₂ : σ} {o : Option Token} {e : Failure}

/-- The states that a lexer may be in, however often it has been asked for a token: whatever it has
answered, unless the input could not be read. -/
inductive Asked (s : σ) : σ → Prop where
  | first : Asked s s
  | token {s₁ s₂ : σ} {o : Option Token} : Asked s s₁ → next s₁ = .ok o s₂ → Asked s s₂
  | failed {s₁ s₂ : σ} {e : Failure} : Asked s s₁ → next s₁ = .error e s₂ → ¬ e.Unreadable →
      Asked s s₂

theorem Failure.Unreadable.not_isInvalidUtf8 (h : e.Unreadable) : ¬ e.IsInvalidUtf8 := by
  obtain ⟨_, _, rfl⟩ := h
  intro ⟨_, _, _, he⟩
  cases he

theorem isEncoding_of_next (hs : IsEncoding (Faithful.bytes s)) (h : next s = .ok o s₂) :
    IsEncoding (Faithful.bytes s₂) := by
  have hend := wellEnded_next (s := Faithful.view s) hs
  rw [Faithful.next_view h] at hend
  exact hend

theorem next_error_of_isEncoding (hs : IsEncoding (Faithful.bytes s)) (h : next s = .error e s₂) :
    ¬ e.IsInvalidUtf8 ∧ (¬ e.Unreadable → IsEncoding (Faithful.bytes s₂)) := by
  have hend := wellEnded_next (s := Faithful.view s) hs
  generalize hr : next (Faithful.view s) = r at hend
  cases Faithful.coupling.couples_next.ends_of_eq (Faithful.coupling_rel s) h hr with
  | error _ hrel =>
    rw [hrel.1] at hend
    exact ⟨hend.1, fun _ => hend.2⟩
  | lost hlost _ =>
    exact ⟨Failure.Unreadable.not_isInvalidUtf8 hlost, fun hn => absurd hlost hn⟩

theorem Asked.isEncoding (h : Asked s s₁) (hs : IsEncoding (Faithful.bytes s)) :
    IsEncoding (Faithful.bytes s₁) := by
  induction h with
  | first => exact hs
  | token _ hn ih => exact isEncoding_of_next ih hn
  | failed _ hn he ih => exact (next_error_of_isEncoding ih hn).2 he

theorem not_isInvalidUtf8_of_tokens (hs : IsEncoding (Faithful.bytes s))
    (h : (tokens s).failure = some e) : ¬ e.IsInvalidUtf8 := by
  unfold tokens at h
  fun_induction run next progresses_next s with
  | case1 s e' s' hr =>
    cases h
    exact (next_error_of_isEncoding hs hr).1
  | case2 => cases h
  | case3 s t s' hr _ ih => exact ih (isEncoding_of_next hs hr) h

end Inputs

/-! ## Ill-formed contents -/

/-- The bytes `x`, with `rest` behind them, are a string or a comment whose contents are ill-formed. -/
inductive IllFormed : List UInt8 → List UInt8 → Kind → Prop where
  | text {q : UInt8} {body value rest : List UInt8} : Byte.isQuote q = true →
      StringBody q body value → ¬ IsEncoding value → IllFormed (q :: body ++ [q]) rest .text
  | lineComment {line rest : List UInt8} : Byte.lineFeed ∉ line → ¬ IsEncoding line →
      IllFormed (Byte.slash :: Byte.slash :: line ++ [Byte.lineFeed]) rest .comment
  | lastComment {line : List UInt8} : Byte.lineFeed ∉ line → ¬ IsEncoding line →
      IllFormed (Byte.slash :: Byte.slash :: line) [] .comment
  | blockComment {body rest : List UInt8} : ¬ [Byte.star, Byte.slash] <:+: body ++ [Byte.star] →
      ¬ IsEncoding body →
      IllFormed (Byte.slash :: Byte.star :: body ++ [Byte.star, Byte.slash]) rest .comment

/-- The contents of a lexeme of the kind `k` that begins at `start` have been refused. -/
def RefusedAt (k : Kind) (start : Position) (r : EStateM.Result Failure Bytes α) : Prop :=
  ∃ fault s, r = .error (.refused ⟨.invalidUtf8 k fault, start⟩) s

variable {k : Kind} {start : Position}

theorem refusedAt_decode {bs : List UInt8} (h : ¬ IsEncoding bs) (f : String → Scan Bytes α)
    (s : Bytes) : RefusedAt k start ((decode k start bs >>= f) s) := by
  cases hd : Utf8.decode bs with
  | ok cs => exact absurd (isEncoding_iff_decode.2 ⟨cs, hd⟩) h
  | error fault =>
    have he : decode k start bs s = .error (.refused ⟨.invalidUtf8 k fault, start⟩) s := by
      unfold Lexer.decode
      rw [hd]
      rfl
    exact ⟨fault, s, bind_error he⟩

theorem string_illFormed {q : UInt8} {body value : List UInt8} (hq : Byte.isQuote q = true)
    (hb : StringBody q body value) (hv : ¬ IsEncoding value) (rest : List UInt8) (p : Position) :
    RefusedAt .text start (string q start ⟨body ++ q :: rest, p⟩) := by
  have hmany := (many_eq_ok_iff (progresses_stringByte q start)).2
    (yields_stringByte_complete (quote_ne_backslash hq) hb rest p)
  unfold string
  rw [bind_ok hmany]
  exact refusedAt_decode hv _ _

theorem lineComment_illFormed {line rest : List UInt8} (hl : Byte.lineFeed ∉ line)
    (hv : ¬ IsEncoding line) (hr : ∀ c ∈ rest.head?, c = Byte.lineFeed) (p : Position) :
    RefusedAt .comment start (lineComment start ⟨line ++ rest, p⟩) := by
  have hline : ∀ c ∈ line, (c != Byte.lineFeed) = true := by
    intro c hc
    simp only [bne_iff_ne, ne_eq]
    intro e
    exact hl (e ▸ hc)
  have hrest : ∀ c ∈ rest.head?, (c != Byte.lineFeed) = false := by
    intro c hc
    simp [hr c hc]
  have hreturn := mt isEncoding_withoutReturn.1 hv
  unfold lineComment
  rw [bind_ok (Bytes.takeWhile_append hline hrest p)]
  cases rest with
  | nil =>
    rw [bind_ok Bytes.take_nil]
    exact refusedAt_decode hreturn _ _
  | cons c rest =>
    rw [bind_ok Bytes.take_cons]
    exact refusedAt_decode hreturn _ _

theorem blockComment_illFormed {body : List UInt8}
    (hb : ¬ [Byte.star, Byte.slash] <:+: body ++ [Byte.star]) (hv : ¬ IsEncoding body)
    (rest : List UInt8) (p : Position) :
    RefusedAt .comment start (blockComment start ⟨body ++ Byte.star :: Byte.slash :: rest, p⟩) := by
  have hmany := (many_eq_ok_iff (progresses_blockByte start)).2 (yields_blockByte_complete hb rest p)
  unfold blockComment
  rw [bind_ok hmany]
  exact refusedAt_decode hv _ _

theorem lexeme_illFormed {x rest : List UInt8} (h : IllFormed x rest k) :
    ∃ b y, x = b :: y ∧ Byte.isBlank b = false ∧
      ∀ start p, RefusedAt k start (lexeme b start (⟨x ++ rest, p⟩ : Bytes)) := by
  cases h with
  | @text q body value _ hq hb hv =>
    refine ⟨q, body ++ [q], rfl, by rcases quote_cases hq with rfl | rfl <;> decide, ?_⟩
    intro start p
    have e : q :: body ++ [q] ++ rest = q :: (body ++ q :: rest) := by simp
    rw [e, lexeme_quote hq]
    exact string_illFormed hq hb hv rest _
  | @lineComment line _ hl hv =>
    refine ⟨Byte.slash, _, rfl, by decide, ?_⟩
    intro start p
    have e : Byte.slash :: Byte.slash :: line ++ [Byte.lineFeed] ++ rest =
        Byte.slash :: Byte.slash :: (line ++ Byte.lineFeed :: rest) := by simp
    rw [e, lexeme_slash, comment_line]
    exact lineComment_illFormed hl hv (by simp) _
  | @lastComment line hl hv =>
    refine ⟨Byte.slash, _, rfl, by decide, ?_⟩
    intro start p
    exact lineComment_illFormed hl hv (by simp) _
  | @blockComment body _ hb hv =>
    refine ⟨Byte.slash, _, rfl, by decide, ?_⟩
    intro start p
    have e : Byte.slash :: Byte.star :: body ++ [Byte.star, Byte.slash] ++ rest =
        Byte.slash :: Byte.star :: (body ++ Byte.star :: Byte.slash :: rest) := by simp
    rw [e, lexeme_slash, comment_block]
    exact blockComment_illFormed hb hv rest _

/-- A string or comment whose contents are ill-formed is refused at its first byte. -/
theorem next_illFormed {w x rest : List UInt8} (hw : ∀ b ∈ w, Byte.isBlank b = true)
    (h : IllFormed x rest k) (p : Position) :
    RefusedAt k (p.after w) (next (⟨w ++ (x ++ rest), p⟩ : Bytes)) := by
  obtain ⟨b, y, rfl, hb, hlex⟩ := lexeme_illFormed h
  have hhead : ∀ c ∈ (b :: y ++ rest).head?, Byte.isBlank c = false := by
    intro c hc
    obtain rfl : b = c := by simpa using hc
    exact hb
  obtain ⟨fault, s', hs⟩ := hlex (p.after w) (p.after w)
  refine ⟨fault, s', ?_⟩
  unfold next
  rw [bind_ok (Bytes.takeWhile_append hw hhead p), bind_ok (Bytes.place_apply _), List.cons_append,
    bind_ok Bytes.peek_cons]
  exact bind_error hs

/-! ## The bytes of lexemes -/

/-- Bytes from 0x80 on stand in strings and comments only. -/
theorem Reading.ascii {x rest : List UInt8} {l : Lexeme} (h : Reading x rest l)
    (ht : ∀ s, l ≠ .text s) (hc : ∀ s, l ≠ .comment s) : ∀ b ∈ x, b.toNat < 0x80 := by
  have name {x rest : List UInt8} (h : IsLongest IsName x rest) : ∀ b ∈ x, b.toNat < 0x80 := by
    intro b hb
    rcases h.holds.mem b hb with h | rfl
    · exact ascii_of_wordPart h
    · decide
  cases h with
  | keyword hl _ _ => exact name hl
  | ident hl _ _ _ => exact name hl
  | dotted hl _ _ => exact name hl
  | number hl _ => exact fun b hb => ascii_of_digit (hl.holds.2 b hb)
  | punct p _ => cases p <;> simp [Punct.byte]
  | text => exact absurd rfl (ht _)
  | lineComment => exact absurd rfl (hc _)
  | lastComment => exact absurd rfl (hc _)
  | blockComment => exact absurd rfl (hc _)

/-- A string in which a backslash escapes a byte from the inside of a character. -/
def Piece.EscapesInside (p : Piece) : Prop :=
  ∃ q body s, p.source = q :: body ++ [q] ∧ p.lexeme = .text s ∧ Lexical.EscapesInside body

theorem Reading.isEncoding_iff {w x rest : List UInt8} {l : Lexeme} (h : Reading x rest l) :
    IsEncoding x ↔ ¬ Piece.EscapesInside ⟨w, x, l⟩ := by
  have other {l : Lexeme} (ht : ∀ s, l ≠ .text s) (hx : IsEncoding x) :
      IsEncoding x ↔ ¬ Piece.EscapesInside ⟨w, x, l⟩ := by
    refine iff_of_true hx ?_
    intro ⟨_, _, s, _, hs, _⟩
    exact ht s hs
  have slashes {y : List UInt8} : IsEncoding (Byte.slash :: Byte.slash :: y) ↔ IsEncoding y := by
    rw [isEncoding_cons_ascii (by decide), isEncoding_cons_ascii (by decide)]
  by_cases hplain : (∀ s, l ≠ .text s) ∧ ∀ s, l ≠ .comment s
  · exact other hplain.1 (isEncoding_of_ascii (h.ascii hplain.1 hplain.2))
  cases h with
  | @text q body _ s hq hb =>
    rw [List.cons_append, isEncoding_cons_ascii (ascii_of_quote hq),
      isEncoding_append_ascii (ascii_of_quote hq), hb.isEncoding_iff (isEncoding_bytes s)]
    simp [Piece.EscapesInside]
  | @lineComment line _ s hl hs =>
    refine other nofun ?_
    have hline := isEncoding_withoutReturn.1 (hs ▸ isEncoding_bytes s)
    exact slashes.2 ((isEncoding_append_ascii (by decide)).2 ⟨hline, isEncoding_nil⟩)
  | @lastComment line s hl hs =>
    refine other nofun ?_
    exact slashes.2 (isEncoding_withoutReturn.1 (hs ▸ isEncoding_bytes s))
  | @blockComment body _ s hb hs =>
    refine other nofun ?_
    rw [List.cons_append, List.cons_append, isEncoding_cons_ascii (by decide),
      isEncoding_cons_ascii (by decide), isEncoding_append_ascii (by decide)]
    exact ⟨hs ▸ isEncoding_bytes s, isEncoding_of_ascii (by simp [Byte.slash])⟩
  | _ => exact absurd ⟨nofun, nofun⟩ hplain

/-- Bytes that are split into lexemes are well-formed, unless a backslash splits a character. -/
theorem Splits.isEncoding_iff {bs tail : List UInt8} {ps : List Piece} (h : Splits bs ps tail) :
    IsEncoding bs ↔ ∀ p ∈ ps, ¬ p.EscapesInside := by
  have blanks {w : List UInt8} (hw : ∀ b ∈ w, Byte.isBlank b = true) : IsEncoding w :=
    isEncoding_of_ascii fun b hb => ascii_of_blank (hw b hb)
  induction h with
  | nil hw => simp [blanks hw]
  | @cons w x rest _ l ps hw hr _ ih =>
    rw [(blanks hw).append_iff, isEncoding_append_of_last hr.last, List.forall_mem_cons]
    exact and_congr hr.isEncoding_iff ih

/-- Outside of strings and comments there are ASCII bytes only. -/
theorem Splits.ascii {bs tail : List UInt8} {ps : List Piece} (h : Splits bs ps tail) :
    (∀ b ∈ tail, b.toNat < 0x80) ∧ ∀ p ∈ ps, (∀ b ∈ p.blanks, b.toNat < 0x80) ∧
      ((∀ s, p.lexeme ≠ .text s) → (∀ s, p.lexeme ≠ .comment s) → ∀ b ∈ p.source, b.toNat < 0x80) := by
  induction h with
  | nil hw => simpa using fun b hb => ascii_of_blank (hw b hb)
  | cons hw hr _ ih =>
    refine ⟨ih.1, ?_⟩
    rw [List.forall_mem_cons]
    exact ⟨⟨fun b hb => ascii_of_blank (hw b hb), hr.ascii⟩, ih.2⟩

end Lexical
end ProtoSchema
