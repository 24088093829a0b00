import ProtoSchema.Proofs.Input
import ProtoSchema.Proofs.Lexical.Grammar

/-!
# ProtoSchema.Proofs.Lexical.Reading

The lexer reads bytes in memory by the lexical grammar.

* `lexeme_sound` — a lexeme that the lexer yields is a reading of the bytes that it has taken.
* `lexeme_complete` — the lexer takes every reading, provided that a name is not followed by a dot
  and a number is not too long.

The loops inside lexemes are described by what one step can do (`segment_cases`,
`stringByte_cases`, `blockByte_cases`); what a whole loop does follows by induction.
-/

namespace ProtoSchema
namespace Lexical

open Scan Lexer Text

/-- Whether the number that is read from `x` has few enough digits. -/
def Fits (x : List UInt8) (l : Lexeme) : Prop := ∀ n, l = .number n → x.length ≤ maxDigits

theorem head_dropWhile (q : UInt8 → Bool) (bs : List UInt8) :
    ∀ c ∈ (bs.dropWhile q).head?, q c = false := by
  intro c hc
  have := List.head?_dropWhile_not q bs
  rw [Option.mem_def.1 hc] at this
  exact this

/-! ## Names -/

/-- Everything that a step between the segments of a name can do. -/
theorem segment_cases (bs : List UInt8) (p : Position) :
    (segment (⟨bs, p⟩ : Bytes) = .ok none ⟨bs, p⟩ ∧ ∀ c ∈ bs.head?, c ≠ Byte.dot) ∨
    (∃ c cs, bs = Byte.dot :: c :: cs ∧ Byte.isLetter c = true ∧
      segment (⟨bs, p⟩ : Bytes) = .ok (some (c :: cs.takeWhile Byte.isWordPart))
        ⟨cs.dropWhile Byte.isWordPart, p.after (Byte.dot :: c :: cs.takeWhile Byte.isWordPart)⟩) ∨
    (∃ cs, bs = Byte.dot :: cs ∧ (∀ c ∈ cs.head?, Byte.isLetter c = false) ∧
      segment (⟨bs, p⟩ : Bytes) = .error (.refused ⟨.danglingDot, p⟩) ⟨cs, p.next Byte.dot⟩) := by
  rcases bs with _ | ⟨b, cs⟩
  · exact .inl ⟨rfl, by simp⟩
  by_cases hb : b = Byte.dot
  · subst hb
    rcases cs with _ | ⟨c, cs⟩
    · exact .inr (.inr ⟨[], rfl, by simp, rfl⟩)
    · cases hc : Byte.isLetter c with
      | true =>
        refine .inr (.inl ⟨c, cs, rfl, hc, ?_⟩)
        unfold Lexer.segment
        rw [bind_ok Bytes.peek_cons]
        simp only [if_true]
        rw [bind_ok (Bytes.place_apply _), bind_ok Bytes.advance_cons, bind_ok Bytes.peek_cons]
        simp only [hc, if_true]
        rw [bind_ok (Bytes.takeWhile_apply _ _ _)]
        simp [wordPart_of_letter hc]
      | false =>
        refine .inr (.inr ⟨c :: cs, rfl, by simpa using hc, ?_⟩)
        unfold Lexer.segment
        rw [bind_ok Bytes.peek_cons]
        simp only [if_true]
        rw [bind_ok (Bytes.place_apply _), bind_ok Bytes.advance_cons, bind_ok Bytes.peek_cons]
        simp [hc]
  · refine .inl ⟨?_, by simpa using hb⟩
    unfold Lexer.segment
    rw [bind_ok Bytes.peek_cons]
    simp [hb]

/-- The segments that are read are words with dots before them, up to a byte that continues no
name. -/
theorem yields_segment_sound {s s' : Bytes} {more : List (List UInt8)} (y : Yields segment s more s')
    (h : ∀ c ∈ s.rest.head?, Byte.isWordPart c = false) :
    (∀ w ∈ more, IsWord w) ∧ s.rest = more.flatMap (Byte.dot :: ·) ++ s'.rest ∧
      s'.position = s.position.after (more.flatMap (Byte.dot :: ·)) ∧
      ∀ c ∈ s'.rest.head?, Byte.isWordPart c = false ∧ c ≠ Byte.dot := by
  induction y with
  | @stop s s' hs =>
    rcases segment_cases s.rest s.position with ⟨e, hd⟩ | ⟨c, cs, _, _, e⟩ | ⟨cs, _, _, e⟩
    · cases hs.symm.trans e
      exact ⟨by simp, rfl, rfl, fun c hc => ⟨h c hc, hd c hc⟩⟩
    · cases hs.symm.trans e
    · cases hs.symm.trans e
  | @more s s₁ s' w ws hs _ ih =>
    rcases segment_cases s.rest s.position with ⟨e, _⟩ | ⟨c, cs, hbs, hc, e⟩ | ⟨cs, _, _, e⟩
    · cases hs.symm.trans e
    · cases hs.symm.trans e
      obtain ⟨hw, hrest, hpos, hend⟩ := ih (head_dropWhile _ _)
      refine ⟨?_, ?_, ?_, hend⟩
      · intro v hv
        rcases List.mem_cons.1 hv with rfl | hv
        · exact ⟨c, _, rfl, hc, fun d hd => List.all_eq_true.1 List.all_takeWhile d hd⟩
        · exact hw v hv
      · rw [hbs, List.flatMap_cons, List.append_assoc, ← hrest]
        simp [List.takeWhile_append_dropWhile]
      · rw [hpos, List.flatMap_cons, Position.after_append]
    · cases hs.symm.trans e

theorem yields_segment_complete {more : List (List UInt8)} {rest : List UInt8}
    (hw : ∀ w ∈ more, IsWord w)
    (h : ∀ c ∈ rest.head?, Byte.isWordPart c = false ∧ c ≠ Byte.dot) (p : Position) :
    Yields segment (⟨more.flatMap (Byte.dot :: ·) ++ rest, p⟩ : Bytes) more
      ⟨rest, p.after (more.flatMap (Byte.dot :: ·))⟩ := by
  induction more generalizing p with
  | nil =>
    rcases segment_cases rest p with ⟨e, _⟩ | ⟨c, cs, rfl, _⟩ | ⟨cs, rfl, _⟩
    · exact .stop e
    · exact absurd rfl (h _ rfl).2
    · exact absurd rfl (h _ rfl).2
  | cons w ws ih =>
    obtain ⟨c, cs, rfl, hc, hcs⟩ := hw w (by simp)
    have htail : ∀ d ∈ (ws.flatMap (Byte.dot :: ·) ++ rest).head?, Byte.isWordPart d = false := by
      cases ws with
      | nil => exact fun d hd => (h d hd).1
      | cons v ws =>
        intro d hd
        simp only [List.flatMap_cons, List.cons_append, List.head?_cons, Option.mem_def,
          Option.some.injEq] at hd
        rw [← hd]
        exact not_wordPart_dot
    have hstep : segment (⟨Byte.dot :: c :: cs ++ (ws.flatMap (Byte.dot :: ·) ++ rest), p⟩ : Bytes) =
        .ok (some (c :: cs)) ⟨ws.flatMap (Byte.dot :: ·) ++ rest, p.after (Byte.dot :: c :: cs)⟩ := by
      rcases segment_cases (Byte.dot :: c :: cs ++ (ws.flatMap (Byte.dot :: ·) ++ rest)) p with
        ⟨_, hd⟩ | ⟨d, ds, e, _, hs⟩ | ⟨ds, e, hd, _⟩
      · exact absurd rfl (hd _ rfl)
      · simp only [List.cons_append, List.cons.injEq, true_and] at e
        obtain ⟨rfl, rfl⟩ := e
        have := Bytes.takeWhile_append hcs htail p
        rw [Bytes.takeWhile_apply] at this
        simp only [EStateM.Result.ok.injEq, Bytes.mk.injEq] at this
        rw [hs, this.1, this.2.1]
      · simp only [List.cons_append, List.cons.injEq, true_and] at e
        subst e
        simp [hc] at hd
    have := ih (fun v hv => hw v (by simp [hv])) (p.after (Byte.dot :: c :: cs))
    rw [List.flatMap_cons, List.append_assoc, Position.after_append]
    exact .more hstep this

theorem ofWord?_eq_none_iff {w : String} :
    Keyword.ofWord? w = none ↔ ∀ k : Keyword, k.word ≠ w := by
  rw [Keyword.ofWord?, List.find?_eq_none]
  constructor
  · intro h k
    simpa using h k (Keyword.mem_all k)
  · intro h k _
    simpa using h k

/-- The words of a name, as a lexeme. -/
theorem reading_ofSegments {w rest : List UInt8} {more : List (List UInt8)}
    (hw : ∀ v ∈ w :: more, IsWord v) (h : IsLongest IsName (dotted (w :: more)) rest) :
    Reading (dotted (w :: more)) rest (.ofSegments (Byte.text w) (more.map Byte.text)) := by
  have htext : ∀ v ∈ w :: more, bytes (Byte.text v) = v := fun v hv =>
    bytes_text fun b hb => ascii_of_wordPart ((hw v hv).wordPart b hb)
  cases more with
  | nil =>
    rw [dotted_singleton] at h ⊢
    have hword := hw w (by simp)
    simp only [List.map_nil, Lexeme.ofSegments]
    split
    · next k hk =>
      have hk' : k.word = Byte.text w := by simpa [Keyword.ofWord?] using List.find?_some hk
      exact .keyword h hword (by rw [hk', htext w (by simp)])
    · next hk =>
      exact .ident h hword (htext w (by simp)).symm (ofWord?_eq_none_iff.1 hk)
  | cons v more =>
    have hmap : (Byte.text w :: (v :: more).map Byte.text).map bytes = w :: v :: more := by
      rw [← List.map_cons, List.map_map]
      exact (List.map_congr_left htext).trans (List.map_id _)
    rw [← hmap] at h ⊢
    simp only [List.map_cons, Lexeme.ofSegments]
    refine .dotted h (by simp) ?_
    intro s hs
    rw [← List.map_cons] at hs
    obtain ⟨u, hu, rfl⟩ := List.mem_map.1 hs
    rw [htext u hu]
    exact hw u hu

theorem ofWord?_word (k : Keyword) : Keyword.ofWord? k.word = some k := by
  cases k with
  | scalar s => cases s <;> decide
  | _ => decide

/-- The first word of a name as the lexer meets it: a letter and the rest of the word. -/
theorem word_apply {c : UInt8} {cs rest : List UInt8} {more : List (List UInt8)}
    (hcs : ∀ d ∈ cs, Byte.isWordPart d = true) (hmore : ∀ w ∈ more, IsWord w)
    (h : ∀ d ∈ rest.head?, Byte.isWordPart d = false ∧ d ≠ Byte.dot) (p : Position) :
    word c (⟨cs ++ (more.flatMap (Byte.dot :: ·) ++ rest), p.next c⟩ : Bytes) =
      .ok (.ofSegments (Byte.text (c :: cs)) (more.map Byte.text))
        ⟨rest, p.after (dotted ((c :: cs) :: more))⟩ := by
  have htail : ∀ d ∈ (more.flatMap (Byte.dot :: ·) ++ rest).head?, Byte.isWordPart d = false := by
    cases more with
    | nil => exact fun d hd => (h d hd).1
    | cons v more =>
      intro d hd
      simp only [List.flatMap_cons, List.cons_append, List.head?_cons, Option.mem_def,
        Option.some.injEq] at hd
      rw [← hd]
      exact not_wordPart_dot
  unfold word
  rw [bind_ok (Bytes.takeWhile_append hcs htail _),
    bind_ok ((many_eq_ok_iff _).2 (yields_segment_complete hmore h _)), dotted_cons,
    Position.after_append]
  rfl

theorem word_sound {c : UInt8} {cs : List UInt8} {p : Position} {l : Lexeme} {s' : Bytes}
    (hc : Byte.isLetter c = true) (h : word c (⟨cs, p.next c⟩ : Bytes) = .ok l s') :
    ∃ x, c :: cs = x ++ s'.rest ∧ s'.position = p.after x ∧ Reading x s'.rest l := by
  unfold word at h
  rw [bind_ok (Bytes.takeWhile_apply _ _ _)] at h
  obtain ⟨more, s₁, h₁, h₂⟩ := bind_eq_ok.1 h
  cases h₂
  obtain ⟨hw, hrest, hpos, hend⟩ :=
    yields_segment_sound ((many_eq_ok_iff _).1 h₁) (head_dropWhile _ _)
  have hfirst : IsWord (c :: cs.takeWhile Byte.isWordPart) :=
    ⟨c, _, rfl, hc, fun d hd => List.all_eq_true.1 List.all_takeWhile d hd⟩
  have hall : ∀ v ∈ (c :: cs.takeWhile Byte.isWordPart) :: more, IsWord v := by
    intro v hv
    rcases List.mem_cons.1 hv with rfl | hv
    · exact hfirst
    · exact hw v hv
  refine ⟨dotted ((c :: cs.takeWhile Byte.isWordPart) :: more), ?_, ?_, ?_⟩
  · rw [dotted_cons, List.append_assoc, ← hrest]
    simp
  · rw [hpos, dotted_cons, Position.after_append]
    rfl
  · exact reading_ofSegments hall (isLongest_name ⟨_, by simp, hall, rfl⟩ hend)

/-! ## Strings -/

/-- Everything that a step inside a string can do. -/
theorem stringByte_cases {q : UInt8} (hq : q ≠ Byte.backslash) (start : Position) (bs : List UInt8)
    (p : Position) :
    (∃ cs, bs = q :: cs ∧ stringByte q start (⟨bs, p⟩ : Bytes) = .ok none ⟨cs, p.next q⟩) ∨
    (∃ c cs, bs = Byte.backslash :: c :: cs ∧
      stringByte q start (⟨bs, p⟩ : Bytes) =
        .ok (some c) ⟨cs, p.after [Byte.backslash, c]⟩) ∨
    (∃ c cs, bs = c :: cs ∧ c ≠ q ∧ c ≠ Byte.backslash ∧
      stringByte q start (⟨bs, p⟩ : Bytes) = .ok (some c) ⟨cs, p.next c⟩) ∨
    ((bs = [] ∨ bs = [Byte.backslash]) ∧
      ∃ s, stringByte q start (⟨bs, p⟩ : Bytes) =
        .error (.refused ⟨.unterminatedString, start⟩) s) := by
  rcases bs with _ | ⟨b, cs⟩
  · exact .inr (.inr (.inr ⟨.inl rfl, _, rfl⟩))
  unfold stringByte
  rw [bind_ok Bytes.take_cons]
  simp only
  by_cases hb : b = q
  · subst hb
    exact .inl ⟨cs, rfl, by simp⟩
  rw [if_neg hb]
  by_cases hs : b = Byte.backslash
  · subst hs
    rw [if_pos rfl]
    rcases cs with _ | ⟨c, cs⟩
    · exact .inr (.inr (.inr ⟨.inr rfl, _, rfl⟩))
    · exact .inr (.inl ⟨c, cs, rfl, rfl⟩)
  · rw [if_neg hs]
    exact .inr (.inr (.inl ⟨b, cs, rfl, hb, hs, rfl⟩))

theorem yields_stringByte_sound {q : UInt8} (hq : q ≠ Byte.backslash) {start : Position}
    {s s' : Bytes} {value : List UInt8} (y : Yields (stringByte q start) s value s') :
    ∃ body, StringBody q body value ∧ s.rest = body ++ q :: s'.rest ∧
      s'.position = s.position.after (body ++ [q]) := by
  induction y with
  | @stop s s' hs =>
    rcases stringByte_cases hq start s.rest s.position with
      ⟨cs, hbs, e⟩ | ⟨c, cs, _, e⟩ | ⟨c, cs, _, _, _, e⟩ | ⟨_, _, e⟩
    · cases hs.symm.trans e
      exact ⟨[], .nil, hbs, rfl⟩
    all_goals cases hs.symm.trans e
  | @more s s₁ s' c value hs _ ih =>
    obtain ⟨body, hbody, hrest, hpos⟩ := ih
    rcases stringByte_cases hq start s.rest s.position with
      ⟨cs, _, e⟩ | ⟨d, cs, hbs, e⟩ | ⟨d, cs, hbs, h₁, h₂, e⟩ | ⟨_, _, e⟩
    · cases hs.symm.trans e
    · cases hs.symm.trans e
      refine ⟨Byte.backslash :: c :: body, .escape hbody, ?_, ?_⟩
      · rw [hbs]
        simpa using hrest
      · rw [hpos]
        rfl
    · cases hs.symm.trans e
      refine ⟨c :: body, .plain h₁ h₂ hbody, ?_, ?_⟩
      · rw [hbs]
        simpa using hrest
      · rw [hpos]
        rfl
    · cases hs.symm.trans e

theorem yields_stringByte_complete {q : UInt8} (hq : q ≠ Byte.backslash) {start : Position}
    {body value : List UInt8} (h : StringBody q body value) (rest : List UInt8) (p : Position) :
    Yields (stringByte q start) (⟨body ++ q :: rest, p⟩ : Bytes) value
      ⟨rest, p.after (body ++ [q])⟩ := by
  induction h generalizing p with
  | nil =>
    rcases stringByte_cases hq start (q :: rest) p with
      ⟨cs, hbs, e⟩ | ⟨c, cs, hbs, _⟩ | ⟨c, cs, hbs, h₁, _⟩ | ⟨hbs, _⟩
    · cases hbs
      exact .stop e
    · cases hbs
      exact absurd rfl hq
    · cases hbs
      exact absurd rfl h₁
    · simp [hq] at hbs
  | @plain b body value h₁ h₂ _ ih =>
    rcases stringByte_cases hq start (b :: (body ++ q :: rest)) p with
      ⟨cs, hbs, _⟩ | ⟨c, cs, hbs, _⟩ | ⟨c, cs, hbs, _, _, e⟩ | ⟨hbs, _⟩
    · exact absurd (List.cons.inj hbs).1 h₁
    · exact absurd (List.cons.inj hbs).1 h₂
    · cases hbs
      exact .more e (ih (p.next b))
    · simp [h₂] at hbs
  | @escape b body value _ ih =>
    rcases stringByte_cases hq start (Byte.backslash :: b :: (body ++ q :: rest)) p with
      ⟨cs, hbs, _⟩ | ⟨c, cs, hbs, e⟩ | ⟨c, cs, hbs, _, h₂, _⟩ | ⟨hbs, _⟩
    · cases hbs
      exact absurd rfl hq
    · cases hbs
      exact .more e (ih (p.after [Byte.backslash, b]))
    · cases hbs
      exact absurd rfl h₂
    · simp at hbs

theorem decode_eq_ok_iff {inside : Kind} {start : Position} {bs : List UInt8} {s s' : Bytes}
    {v : String} : decode inside start bs s = .ok v s' ↔ bytes v = bs ∧ s' = s := by
  unfold Lexer.decode
  cases h : Utf8.decode bs with
  | ok cs =>
    have hcs := Utf8.decode_eq_ok_iff.1 h
    simp only [pure_apply, EStateM.Result.ok.injEq]
    constructor
    · rintro ⟨rfl, rfl⟩
      exact ⟨by simpa using hcs, rfl⟩
    · rintro ⟨hv, rfl⟩
      exact ⟨bytes_injective (by rw [hv, bytes_ofList, hcs]), rfl⟩
  | error e =>
    simp only [refuse_apply, reduceCtorEq, false_iff, not_and]
    intro hv
    rw [Utf8.decode_eq_ok_iff.2 hv] at h
    cases h

theorem quote_ne_backslash {q : UInt8} (h : Byte.isQuote q = true) : q ≠ Byte.backslash := by
  rcases quote_cases h with rfl | rfl <;> decide

theorem string_sound {q : UInt8} {cs : List UInt8} {start p : Position} {l : Lexeme} {s' : Bytes}
    (hq : Byte.isQuote q = true) (h : string q start (⟨cs, p.next q⟩ : Bytes) = .ok l s') :
    ∃ x, q :: cs = x ++ s'.rest ∧ s'.position = p.after x ∧ Reading x s'.rest l := by
  unfold string at h
  obtain ⟨value, s₁, h₁, h₂⟩ := bind_eq_ok.1 h
  obtain ⟨v, s₂, h₃, h₄⟩ := bind_eq_ok.1 h₂
  obtain ⟨rfl, rfl⟩ := decode_eq_ok_iff.1 h₃
  cases h₄
  obtain ⟨body, hbody, hrest, hpos⟩ :=
    yields_stringByte_sound (quote_ne_backslash hq) ((many_eq_ok_iff _).1 h₁)
  refine ⟨q :: body ++ [q], ?_, hpos, .text hq hbody⟩
  simpa using hrest

theorem string_complete {q : UInt8} {body rest : List UInt8} {v : String} {start : Position}
    (hq : Byte.isQuote q = true) (h : StringBody q body (bytes v)) (p : Position) :
    string q start (⟨body ++ q :: rest, p.next q⟩ : Bytes) =
      .ok (.text v) ⟨rest, p.after (q :: body ++ [q])⟩ := by
  unfold string
  rw [bind_ok ((many_eq_ok_iff _).2
      (yields_stringByte_complete (quote_ne_backslash hq) h rest (p.next q))),
    bind_ok (decode_eq_ok_iff.2 ⟨rfl, rfl⟩)]
  rfl

/-! ## Numbers -/

theorem isLongest_takeWhile_digits {c : UInt8} (hc : Byte.isDigit c = true) (cs : List UInt8) :
    IsLongest IsDigits (c :: cs.takeWhile Byte.isDigit) (cs.dropWhile Byte.isDigit) := by
  refine isLongest_digits ⟨by simp, ?_⟩ (head_dropWhile _ _)
  intro d hd
  rcases List.mem_cons.1 hd with rfl | hd
  · exact hc
  · exact List.all_eq_true.1 List.all_takeWhile d hd

/-- Digits are a numeral unless others follow a zero. -/
theorem isNumeral_of_digits {c : UInt8} {cs : List UInt8} (h : IsDigits (c :: cs))
    (hzero : ¬ (c = Byte.zero ∧ cs ≠ [])) : IsNumeral (c :: cs) := by
  refine ⟨h, ?_⟩
  by_cases hz : c = Byte.zero
  · left
    have : cs = [] := by
      by_cases hnil : cs = []
      · exact hnil
      · exact absurd ⟨hz, hnil⟩ hzero
    rw [this, hz]
  · exact .inr (by simpa using hz)

theorem number_sound {c : UInt8} {cs : List UInt8} {start p : Position} {l : Lexeme} {s' : Bytes}
    (hc : Byte.isDigit c = true) (h : number c start (⟨cs, p.next c⟩ : Bytes) = .ok l s') :
    ∃ x, c :: cs = x ++ s'.rest ∧ s'.position = p.after x ∧ Reading x s'.rest l ∧ Fits x l := by
  have hx := isLongest_takeWhile_digits hc cs
  unfold number at h
  rw [bind_ok (Bytes.takeWhile_apply _ _ _)] at h
  split at h
  · cases h
  · next hzero =>
    split at h
    · cases h
    · next hlen =>
      cases h
      refine ⟨c :: cs.takeWhile Byte.isDigit, by simp, rfl,
        .number hx (isNumeral_of_digits hx.holds hzero), ?_⟩
      intro n _
      omega

theorem number_complete {c : UInt8} {cs rest : List UInt8} {start : Position}
    (h : IsLongest IsDigits (c :: cs) rest) (hn : IsNumeral (c :: cs))
    (hlen : (c :: cs).length ≤ maxDigits) (p : Position) :
    number c start (⟨cs ++ rest, p.next c⟩ : Bytes) =
      .ok (.number (Byte.number (c :: cs))) ⟨rest, p.after (c :: cs)⟩ := by
  have hcs : ∀ d ∈ cs, Byte.isDigit d = true := fun d hd => h.holds.2 d (by simp [hd])
  unfold number
  rw [bind_ok (Bytes.takeWhile_append hcs h.not_digit _)]
  have hzero : ¬ (c = Byte.zero ∧ cs ≠ []) := by
    rintro ⟨rfl, hne⟩
    rcases hn.2 with e | e
    · exact hne (by simpa using e)
    · exact e rfl
  rw [if_neg hzero, if_neg (by omega)]
  rfl

/-! ## Comments -/

theorem lineComment_sound {cs : List UInt8} {start p : Position} {l : Lexeme} {s' : Bytes}
    (h : lineComment start (⟨cs, p.after [Byte.slash, Byte.slash]⟩ : Bytes) = .ok l s') :
    ∃ x, Byte.slash :: Byte.slash :: cs = x ++ s'.rest ∧ s'.position = p.after x ∧
      Reading x s'.rest l := by
  unfold lineComment at h
  rw [bind_ok (Bytes.takeWhile_apply _ _ _)] at h
  have hline : Byte.lineFeed ∉ cs.takeWhile (· != Byte.lineFeed) := by
    intro hmem
    have := List.all_eq_true.1 List.all_takeWhile _ hmem
    simp at this
  have hsplit := List.takeWhile_append_dropWhile (p := (· != Byte.lineFeed)) (l := cs)
  cases hd : cs.dropWhile (· != Byte.lineFeed) with
  | nil =>
    rw [hd, bind_ok Bytes.take_nil] at h
    obtain ⟨v, s₁, h₁, h₂⟩ := bind_eq_ok.1 h
    obtain ⟨hv, rfl⟩ := decode_eq_ok_iff.1 h₁
    cases h₂
    rw [hd, List.append_nil] at hsplit
    rw [hsplit] at hline hv ⊢
    exact ⟨_, (List.append_nil _).symm, rfl, .lastComment hline hv.symm⟩
  | cons c ds =>
    have hc : c = Byte.lineFeed := by
      have := head_dropWhile (· != Byte.lineFeed) cs c (by rw [hd]; rfl)
      simpa using this
    subst hc
    rw [hd, bind_ok Bytes.take_cons] at h
    obtain ⟨v, s₁, h₁, h₂⟩ := bind_eq_ok.1 h
    obtain ⟨hv, rfl⟩ := decode_eq_ok_iff.1 h₁
    cases h₂
    rw [hd] at hsplit
    refine ⟨Byte.slash :: Byte.slash :: cs.takeWhile (· != Byte.lineFeed) ++ [Byte.lineFeed], ?_, ?_,
      .lineComment hline hv.symm⟩
    · simpa using hsplit.symm
    · simp [Position.after_append]

theorem lineComment_complete {line rest : List UInt8} {v : String} {start : Position}
    (hl : Byte.lineFeed ∉ line) (hv : withoutReturn line = bytes v) (p : Position) :
    lineComment start (⟨line ++ Byte.lineFeed :: rest, p⟩ : Bytes) =
      .ok (.comment v) ⟨rest, p.after (line ++ [Byte.lineFeed])⟩ := by
  have hall : ∀ c ∈ line, (c != Byte.lineFeed) = true := by
    intro c hc
    simp only [bne_iff_ne, ne_eq]
    rintro rfl
    exact hl hc
  unfold lineComment
  rw [bind_ok (Bytes.takeWhile_append hall (by simp) _), bind_ok Bytes.take_cons,
    bind_ok (decode_eq_ok_iff.2 ⟨hv.symm, rfl⟩), Position.after_append]
  rfl

theorem lastComment_complete {line : List UInt8} {v : String} {start : Position}
    (hl : Byte.lineFeed ∉ line) (hv : withoutReturn line = bytes v) (p : Position) :
    lineComment start (⟨line, p⟩ : Bytes) = .ok (.comment v) ⟨[], p.after line⟩ := by
  have hall : ∀ c ∈ line, (c != Byte.lineFeed) = true := by
    intro c hc
    simp only [bne_iff_ne, ne_eq]
    rintro rfl
    exact hl hc
  have := Bytes.takeWhile_append hall (show ∀ c ∈ ([] : List UInt8).head?, _ by simp) p
  rw [List.append_nil] at this
  unfold lineComment
  rw [bind_ok this, bind_ok Bytes.take_nil, bind_ok (decode_eq_ok_iff.2 ⟨hv.symm, rfl⟩)]
  rfl

/-- Everything that a step inside a block comment can do. -/
theorem blockByte_cases (start : Position) (bs : List UInt8) (p : Position) :
    (∃ cs, bs = Byte.star :: Byte.slash :: cs ∧
      blockByte start (⟨bs, p⟩ : Bytes) = .ok none ⟨cs, p.after [Byte.star, Byte.slash]⟩) ∨
    (∃ c cs, bs = c :: cs ∧ ¬ (c = Byte.star ∧ cs.head? = some Byte.slash) ∧
      blockByte start (⟨bs, p⟩ : Bytes) = .ok (some c) ⟨cs, p.next c⟩) ∨
    (bs = [] ∧ blockByte start (⟨bs, p⟩ : Bytes) =
      .error (.refused ⟨.unterminatedComment, start⟩) ⟨[], p⟩) := by
  rcases bs with _ | ⟨b, cs⟩
  · exact .inr (.inr ⟨rfl, rfl⟩)
  unfold blockByte
  rw [bind_ok Bytes.peek_cons]
  simp only
  by_cases hb : b = Byte.star
  · subst hb
    rw [if_pos rfl, bind_ok (Bytes.ahead_apply _ _)]
    rcases cs with _ | ⟨c, cs⟩
    · exact .inr (.inl ⟨_, _, rfl, by simp, rfl⟩)
    · by_cases hc : c = Byte.slash
      · subst hc
        exact .inl ⟨cs, rfl, rfl⟩
      · refine .inr (.inl ⟨_, _, rfl, by simpa using hc, ?_⟩)
        simp [hc]
  · rw [if_neg hb]
    exact .inr (.inl ⟨b, cs, rfl, by simp [hb], rfl⟩)

theorem no_mark_cons {c : UInt8} {body : List UInt8} :
    ¬ [Byte.star, Byte.slash] <:+: (c :: body) ++ [Byte.star] ↔
      ¬ (c = Byte.star ∧ (body ++ [Byte.star]).head? = some Byte.slash) ∧
        ¬ [Byte.star, Byte.slash] <:+: body ++ [Byte.star] := by
  have hpre : [Byte.star, Byte.slash] <+: c :: (body ++ [Byte.star]) ↔
      c = Byte.star ∧ (body ++ [Byte.star]).head? = some Byte.slash := by
    rw [List.cons_prefix_cons]
    cases h : body ++ [Byte.star] with
    | nil => simp at h
    | cons d ds => simp [List.cons_prefix_cons, eq_comm]
  rw [List.cons_append, List.infix_cons_iff, hpre, not_or]

theorem head_append_mark (body rest : List UInt8) :
    (body ++ Byte.star :: Byte.slash :: rest).head? = (body ++ [Byte.star]).head? := by
  cases body <;> rfl

theorem yields_blockByte_sound {start : Position} {s s' : Bytes} {body : List UInt8}
    (y : Yields (blockByte start) s body s') :
    s.rest = body ++ Byte.star :: Byte.slash :: s'.rest ∧
      ¬ [Byte.star, Byte.slash] <:+: body ++ [Byte.star] ∧
      s'.position = s.position.after (body ++ [Byte.star, Byte.slash]) := by
  induction y with
  | @stop s s' hs =>
    rcases blockByte_cases start s.rest s.position with ⟨cs, hbs, e⟩ | ⟨c, cs, _, _, e⟩ | ⟨_, e⟩
    · cases hs.symm.trans e
      exact ⟨hbs, by decide, rfl⟩
    · cases hs.symm.trans e
    · cases hs.symm.trans e
  | @more s s₁ s' c body hs _ ih =>
    rcases blockByte_cases start s.rest s.position with ⟨cs, _, e⟩ | ⟨d, cs, hbs, hd, e⟩ | ⟨_, e⟩
    · cases hs.symm.trans e
    · cases hs.symm.trans e
      obtain ⟨hrest, hmark, hpos⟩ := ih
      simp only at hrest
      refine ⟨by rw [hbs, hrest]; rfl, ?_, hpos⟩
      rw [no_mark_cons, ← head_append_mark body s'.rest, ← hrest]
      exact ⟨hd, hmark⟩
    · cases hs.symm.trans e

theorem yields_blockByte_complete {start : Position} {body : List UInt8}
    (h : ¬ [Byte.star, Byte.slash] <:+: body ++ [Byte.star]) (rest : List UInt8) (p : Position) :
    Yields (blockByte start) (⟨body ++ Byte.star :: Byte.slash :: rest, p⟩ : Bytes) body
      ⟨rest, p.after (body ++ [Byte.star, Byte.slash])⟩ := by
  induction body generalizing p with
  | nil => exact .stop rfl
  | cons c body ih =>
    obtain ⟨hhead, htail⟩ := no_mark_cons.1 h
    rw [← head_append_mark body rest] at hhead
    refine .more ?_ (ih htail (p.next c))
    rcases blockByte_cases start (c :: (body ++ Byte.star :: Byte.slash :: rest)) p with
      ⟨cs, hbs, _⟩ | ⟨d, cs, hbs, _, e⟩ | ⟨hbs, _⟩
    · simp only [List.cons.injEq] at hbs
      exact absurd ⟨hbs.1, by rw [hbs.2]; rfl⟩ hhead
    · cases hbs
      exact e
    · cases hbs

theorem blockComment_sound {cs : List UInt8} {start p : Position} {l : Lexeme} {s' : Bytes}
    (h : blockComment start (⟨cs, p.after [Byte.slash, Byte.star]⟩ : Bytes) = .ok l s') :
    ∃ x, Byte.slash :: Byte.star :: cs = x ++ s'.rest ∧ s'.position = p.after x ∧
      Reading x s'.rest l := by
  unfold blockComment at h
  obtain ⟨body, s₁, h₁, h₂⟩ := bind_eq_ok.1 h
  obtain ⟨v, s₂, h₃, h₄⟩ := bind_eq_ok.1 h₂
  obtain ⟨hv, rfl⟩ := decode_eq_ok_iff.1 h₃
  cases h₄
  obtain ⟨hrest, hmark, hpos⟩ := yields_blockByte_sound ((many_eq_ok_iff _).1 h₁)
  refine ⟨Byte.slash :: Byte.star :: body ++ [Byte.star, Byte.slash], ?_, ?_,
    .blockComment hmark hv.symm⟩
  · simpa using hrest
  · rw [hpos]
    rfl

theorem blockComment_complete {body rest : List UInt8} {v : String} {start : Position}
    (hb : ¬ [Byte.star, Byte.slash] <:+: body ++ [Byte.star]) (hv : body = bytes v) (p : Position) :
    blockComment start (⟨body ++ Byte.star :: Byte.slash :: rest, p⟩ : Bytes) =
      .ok (.comment v) ⟨rest, p.after (body ++ [Byte.star, Byte.slash])⟩ := by
  unfold blockComment
  rw [bind_ok ((many_eq_ok_iff _).2 (yields_blockByte_complete hb rest p)),
    bind_ok (decode_eq_ok_iff.2 ⟨hv.symm, rfl⟩)]
  rfl

/-! ## Lexemes -/

theorem comment_sound {cs : List UInt8} {start p : Position} {l : Lexeme} {s' : Bytes}
    (h : comment start (⟨Byte.slash :: cs, p⟩ : Bytes) = .ok l s') :
    ∃ x, Byte.slash :: cs = x ++ s'.rest ∧ s'.position = p.after x ∧ Reading x s'.rest l := by
  unfold comment at h
  rw [bind_ok (Bytes.ahead_apply _ _)] at h
  rcases cs with _ | ⟨c, cs⟩
  · cases h
  · by_cases h₁ : c = Byte.slash
    · subst h₁
      exact lineComment_sound h
    · by_cases h₂ : c = Byte.star
      · subst h₂
        exact blockComment_sound h
      · simp [h₁, h₂] at h

/-- A reading that does not begin with a digit is no number. -/
theorem Reading.fits {b : UInt8} {bs x rest : List UInt8} {l : Lexeme} (h : Reading x rest l)
    (hx : b :: bs = x ++ rest) (hb : ¬ Byte.isDigit b = true) : Fits x l := by
  rintro n rfl
  cases h with
  | number hl _ =>
    cases x with
    | nil => exact absurd rfl hl.holds.1
    | cons c x =>
      rw [(List.cons.inj hx).1] at hb
      exact absurd (hl.holds.2 c (by simp)) hb

/-- A lexeme that the lexer yields is a reading of the bytes that it has taken. -/
theorem lexeme_sound {b : UInt8} {bs : List UInt8} {start p : Position} {l : Lexeme} {s' : Bytes}
    (h : lexeme b start (⟨b :: bs, p⟩ : Bytes) = .ok l s') :
    ∃ x, b :: bs = x ++ s'.rest ∧ s'.position = p.after x ∧ Reading x s'.rest l ∧ Fits x l := by
  unfold lexeme at h
  split at h
  · next hb =>
    rw [bind_ok Bytes.advance_cons] at h
    obtain ⟨x, hx, hpos, hr⟩ := word_sound hb h
    refine ⟨x, hx, hpos, hr, hr.fits hx ?_⟩
    intro hd
    rw [not_letter_of_digit hd] at hb
    cases hb
  split at h
  · next hb =>
    rw [bind_ok Bytes.advance_cons] at h
    obtain ⟨x, hx, hpos, hr⟩ := string_sound hb h
    refine ⟨x, hx, hpos, hr, hr.fits hx ?_⟩
    rcases quote_cases hb with rfl | rfl <;> decide
  split at h
  · next hb =>
    rw [bind_ok Bytes.advance_cons] at h
    exact number_sound hb h
  next hb =>
  cases hp : Punct.ofByte? b with
  | some q =>
    simp only [hp] at h
    rw [bind_ok Bytes.advance_cons] at h
    cases h
    obtain rfl := byte_of_ofByte? hp
    exact ⟨[q.byte], rfl, rfl, .punct q bs, (Reading.punct q bs).fits rfl hb⟩
  | none =>
    simp only [hp] at h
    split at h
    · next hs =>
      subst hs
      obtain ⟨x, hx, hpos, hr⟩ := comment_sound h
      exact ⟨x, hx, hpos, hr, hr.fits hx hb⟩
    · cases h

section Dispatch

variable {b : UInt8} {bs : List UInt8} {start p : Position}

theorem lexeme_letter (h : Byte.isLetter b = true) :
    lexeme b start (⟨b :: bs, p⟩ : Bytes) = word b ⟨bs, p.next b⟩ := by
  unfold lexeme
  rw [if_pos h, bind_ok Bytes.advance_cons]

theorem lexeme_quote (h : Byte.isQuote b = true) :
    lexeme b start (⟨b :: bs, p⟩ : Bytes) = string b start ⟨bs, p.next b⟩ := by
  have h₁ : Byte.isLetter b = false := by rcases quote_cases h with rfl | rfl <;> decide
  unfold lexeme
  rw [if_neg (by simp [h₁]), if_pos h, bind_ok Bytes.advance_cons]

theorem lexeme_digit (h : Byte.isDigit b = true) :
    lexeme b start (⟨b :: bs, p⟩ : Bytes) = number b start ⟨bs, p.next b⟩ := by
  have h₁ : ¬ Byte.isQuote b = true := by
    intro hq
    rcases quote_cases hq with rfl | rfl <;> cases h
  unfold lexeme
  rw [if_neg (by simp [not_letter_of_digit h]), if_neg h₁, if_pos h, bind_ok Bytes.advance_cons]

theorem lexeme_punct (q : Punct) :
    lexeme q.byte start (⟨q.byte :: bs, p⟩ : Bytes) = .ok (.punct q) ⟨bs, p.next q.byte⟩ := by
  cases q <;> rfl

theorem lexeme_slash :
    lexeme Byte.slash start (⟨Byte.slash :: bs, p⟩ : Bytes) = comment start ⟨Byte.slash :: bs, p⟩ :=
  rfl

theorem comment_line :
    comment start (⟨Byte.slash :: Byte.slash :: bs, p⟩ : Bytes) =
      lineComment start ⟨bs, p.after [Byte.slash, Byte.slash]⟩ := rfl

theorem comment_block :
    comment start (⟨Byte.slash :: Byte.star :: bs, p⟩ : Bytes) =
      blockComment start ⟨bs, p.after [Byte.slash, Byte.star]⟩ := rfl

end Dispatch

/-- A name is read in full where no dot follows. -/
theorem lexeme_of_name {ws : List (List UInt8)} {rest : List UInt8} (hne : ws ≠ [])
    (hw : ∀ w ∈ ws, IsWord w) (h : IsLongest IsName (dotted ws) rest)
    (hdot : rest.head? ≠ some Byte.dot) :
    ∃ b y, dotted ws = b :: y ∧ Byte.isBlank b = false ∧
      ∀ start p, lexeme b start (⟨dotted ws ++ rest, p⟩ : Bytes) =
        .ok (.ofSegments (Byte.text (ws.head hne)) (ws.tail.map Byte.text))
          ⟨rest, p.after (dotted ws)⟩ := by
  obtain ⟨w, more, rfl⟩ : ∃ w more, ws = w :: more := ⟨_, _, (List.cons_head_tail hne).symm⟩
  obtain ⟨c, cs, rfl, hc, hcs⟩ := hw w (by simp)
  have hend : ∀ d ∈ rest.head?, Byte.isWordPart d = false ∧ d ≠ Byte.dot := by
    intro d hd
    refine ⟨h.not_wordPart d hd, ?_⟩
    rintro rfl
    exact hdot hd
  refine ⟨c, cs ++ more.flatMap (Byte.dot :: ·), by simp [dotted_cons], (not_blank_of_letter hc).1, ?_⟩
  intro start p
  have hmore : ∀ v ∈ more, IsWord v := fun v hv => hw v (by simp [hv])
  have e : dotted ((c :: cs) :: more) ++ rest =
      c :: (cs ++ (more.flatMap (Byte.dot :: ·) ++ rest)) := by
    simp [dotted_cons]
  rw [e, lexeme_letter hc, word_apply hcs hmore hend p]
  rfl

theorem text_bytes_of_word {s : String} (h : IsWord (bytes s)) : Byte.text (bytes s) = s :=
  text_bytes fun b hb => ascii_of_wordPart (h.wordPart b hb)

/-- The lexer takes every reading. -/
theorem lexeme_complete {x rest : List UInt8} {l : Lexeme} (h : Reading x rest l) (hf : Fits x l)
    (hdot : rest.head? ≠ some Byte.dot) :
    ∃ b y, x = b :: y ∧ Byte.isBlank b = false ∧
      ∀ start p, lexeme b start (⟨x ++ rest, p⟩ : Bytes) = .ok l ⟨rest, p.after x⟩ := by
  cases h with
  | keyword hl hw hx =>
    rename_i k
    have := lexeme_of_name (List.cons_ne_nil x []) (by simpa using hw) (by simpa using hl) hdot
    have ht : Byte.text x = k.word := by
      rw [hx]
      exact text_bytes_of_word (hx ▸ hw)
    simpa [Lexeme.ofSegments, ht, ofWord?_word] using this
  | ident hl hw hx hk =>
    rename_i n
    have := lexeme_of_name (List.cons_ne_nil x []) (by simpa using hw) (by simpa using hl) hdot
    have ht : Byte.text x = n := by
      rw [hx]
      exact text_bytes_of_word (hx ▸ hw)
    simpa [Lexeme.ofSegments, ht, ofWord?_eq_none_iff.2 hk] using this
  | dotted hl hlen hw =>
    rename_i ss
    have hw' : ∀ w ∈ ss.map bytes, IsWord w := by
      intro w hw'
      obtain ⟨s, hs, rfl⟩ := List.mem_map.1 hw'
      exact hw s hs
    have ht : ∀ s ∈ ss, Byte.text (bytes s) = s := fun s hs => text_bytes_of_word (hw s hs)
    rcases ss with _ | ⟨s, _ | ⟨t, ss⟩⟩
    · simp at hlen
    · simp at hlen
    · have hmap : ((t :: ss).map bytes).map Byte.text = t :: ss := by
        rw [List.map_map]
        exact (List.map_congr_left fun u hu => ht u (by simp [hu])).trans (List.map_id _)
      have := lexeme_of_name (List.cons_ne_nil _ _) hw' hl hdot
      simp only [List.head_cons, List.tail_cons] at this
      rw [ht s (by simp), hmap] at this
      exact this
  | number hl hn =>
    rcases x with _ | ⟨c, cs⟩
    · exact absurd rfl hl.holds.1
    have hc := hl.holds.2 c (by simp)
    refine ⟨c, cs, rfl, (not_blank_of_digit hc).1, fun start p => ?_⟩
    rw [List.cons_append, lexeme_digit hc]
    exact number_complete hl hn (hf _ rfl) p
  | punct q rest =>
    refine ⟨q.byte, [], rfl, by cases q <;> decide, fun start p => ?_⟩
    exact lexeme_punct q
  | text hq hb =>
    rename_i q body v
    refine ⟨q, body ++ [q], rfl, by rcases quote_cases hq with rfl | rfl <;> decide, fun start p => ?_⟩
    have e : q :: body ++ [q] ++ rest = q :: (body ++ q :: rest) := by simp
    rw [e, lexeme_quote hq, string_complete hq hb p]
  | lineComment hl hv =>
    rename_i line v
    refine ⟨Byte.slash, _, rfl, by decide, fun start p => ?_⟩
    have e : Byte.slash :: Byte.slash :: line ++ [Byte.lineFeed] ++ rest =
        Byte.slash :: Byte.slash :: (line ++ Byte.lineFeed :: rest) := by simp
    rw [e, lexeme_slash, comment_line, lineComment_complete hl hv]
    rfl
  | lastComment hl hv =>
    rename_i line v
    refine ⟨Byte.slash, _, rfl, by decide, fun start p => ?_⟩
    rw [List.append_nil, lexeme_slash, comment_line, lastComment_complete hl hv]
    rfl
  | blockComment hb hv =>
    rename_i body v
    refine ⟨Byte.slash, _, rfl, by decide, fun start p => ?_⟩
    have e : Byte.slash :: Byte.star :: body ++ [Byte.star, Byte.slash] ++ rest =
        Byte.slash :: Byte.star :: (body ++ Byte.star :: Byte.slash :: rest) := by simp
    rw [e, lexeme_slash, comment_block, blockComment_complete hb hv]
    rfl

end Lexical
end ProtoSchema
