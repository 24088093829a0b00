import ProtoSchema.Proofs.Lexical.Reading

/-!
# ProtoSchema.Proofs.Lexical.Splitting

What the lexer makes of a whole byte list. A byte list has at most one split into lexemes
(`Splits.unique`); the lexer finds it and puts each lexeme at the place of its first byte
(`yields_next_sound`), and finds every split whose numbers are not too long
(`yields_next_complete`).
-/

namespace ProtoSchema
namespace Lexical

open Scan Lexer Text

/-! ## Places -/

/-- The place behind `front`: its line feeds count the lines, the bytes behind the last of them the
columns. -/
def placeBehind (front : List UInt8) : Position :=
  ⟨1 + front.count Byte.lineFeed, 1 + (front.reverse.takeWhile (· != Byte.lineFeed)).length⟩

theorem placeBehind_nil : placeBehind [] = .first := rfl

theorem placeBehind_concat (front : List UInt8) (b : UInt8) :
    placeBehind (front ++ [b]) = (placeBehind front).next b := by
  by_cases hb : b = Byte.lineFeed
  · subst hb
    simp [placeBehind, Position.next, Byte.lineFeed, List.count_append]
    omega
  · have hb' : ¬ b = 0x0A := hb
    simp only [placeBehind, Position.next, if_neg hb', List.count_append, List.reverse_append,
      List.reverse_singleton, List.singleton_append, List.takeWhile_cons]
    simp [hb]
    omega

theorem after_placeBehind (front bs : List UInt8) :
    (placeBehind front).after bs = placeBehind (front ++ bs) := by
  induction bs generalizing front with
  | nil => simp
  | cons b bs ih =>
    rw [Position.after_cons, ← placeBehind_concat, ih, List.append_assoc, List.singleton_append]

/-- The tokens of pieces that stand behind `front`, each at the place of its first byte. -/
def placed (front : List UInt8) : List Piece → List Token
  | [] => []
  | ⟨w, x, l⟩ :: ps => ⟨l, placeBehind (front ++ w)⟩ :: placed (front ++ (w ++ x)) ps

/-! ## There is one split -/

/-- Blanks end where a lexeme begins. -/
theorem blanks_unique {w w' x x' rest rest' : List UInt8} {l l' : Lexeme}
    (hw : ∀ b ∈ w, Byte.isBlank b = true) (hw' : ∀ b ∈ w', Byte.isBlank b = true)
    (h : Reading x rest l) (h' : Reading x' rest' l')
    (e : w ++ (x ++ rest) = w' ++ (x' ++ rest')) : w = w' ∧ x ++ rest = x' ++ rest' := by
  have front {w x rest : List UInt8} {l : Lexeme} (hw : ∀ b ∈ w, Byte.isBlank b = true)
      (h : Reading x rest l) : (w ++ (x ++ rest)).takeWhile Byte.isBlank = w := by
    obtain ⟨b, y, rfl, hb, _⟩ := h.head
    rw [List.takeWhile_append_of_pos hw, List.cons_append, List.takeWhile_cons, hb.1,
      if_neg Bool.false_ne_true, List.append_nil]
  have hww : w = w' := by
    rw [← front hw h, e, front hw' h']
  subst hww
  exact ⟨rfl, List.append_cancel_left e⟩

/-- What a byte list begins with is read in one way, if no dot stands behind it. -/
theorem Reading.unique {x x' rest rest' : List UInt8} {l l' : Lexeme}
    (h : Reading x rest l) (h' : Reading x' rest' l') (hdot : rest.head? ≠ some Byte.dot)
    (hdot' : rest'.head? ≠ some Byte.dot) (e : x ++ rest = x' ++ rest') :
    x = x' ∧ rest = rest' ∧ l = l' := by
  obtain ⟨b, y, hx, _, hnum⟩ := h.head
  obtain ⟨b', y', hx', _, hnum'⟩ := h'.head
  have hb : b = b' := by
    rw [hx, hx'] at e
    exact (List.cons.inj e).1
  subst hb
  cases hd : Byte.isDigit b with
  | true =>
    obtain ⟨hl, rfl⟩ := hnum hd
    obtain ⟨hl', rfl⟩ := hnum' hd
    obtain rfl := hl.unique hl' e
    exact ⟨rfl, List.append_cancel_left e, rfl⟩
  | false =>
    -- anything but a number is what the lexer reads here, and that is one thing
    have hf : Fits x l := h.fits (show b :: (y ++ rest) = x ++ rest by rw [hx]; rfl) (by simp [hd])
    have hf' : Fits x' l' :=
      h'.fits (show b :: (y' ++ rest') = x' ++ rest' by rw [hx']; rfl) (by simp [hd])
    obtain ⟨c, z, hc, _, hlex⟩ := lexeme_complete h hf hdot
    obtain ⟨c', z', hc', _, hlex'⟩ := lexeme_complete h' hf' hdot'
    have hcc : c = c' := by
      rw [hc, hc'] at e
      exact (List.cons.inj e).1
    subst hcc
    have := (hlex .first .first).symm.trans (e ▸ hlex' .first .first)
    simp only [EStateM.Result.ok.injEq, Bytes.mk.injEq] at this
    obtain ⟨rfl, rfl, _⟩ := this
    exact ⟨List.append_cancel_right e, rfl, rfl⟩

/-- A byte list has at most one split. -/
theorem Splits.unique {bs tail tail' : List UInt8} {ps ps' : List Piece} (h : Splits bs ps tail)
    (h' : Splits bs ps' tail') : ps = ps' ∧ tail = tail' := by
  have blank {w x rest tail : List UInt8} {l : Lexeme} (hr : Reading x rest l)
      (ht : ∀ b ∈ tail, Byte.isBlank b = true) (e : tail = w ++ (x ++ rest)) : False := by
    obtain ⟨b, y, rfl, hb, _⟩ := hr.head
    have := ht b (by simp [e])
    rw [hb.1] at this
    cases this
  induction h generalizing ps' tail' with
  | nil ht =>
    cases h' with
    | nil => exact ⟨rfl, rfl⟩
    | cons _ hr _ => exact (blank hr ht rfl).elim
  | @cons w x rest _ _ _ hw hr hs ih =>
    generalize hbs : w ++ (x ++ rest) = bs at h'
    cases h' with
    | nil ht => exact (blank hr ht hbs.symm).elim
    | cons hw' hr' hs' =>
      obtain ⟨rfl, e⟩ := blanks_unique hw hw' hr hr' hbs
      obtain ⟨rfl, rfl, rfl⟩ := hr.unique hr' hs.head_ne_dot hs'.head_ne_dot e
      obtain ⟨rfl, rfl⟩ := ih hs'
      exact ⟨rfl, rfl⟩

/-! ## The lexer finds it -/

/-- Everything that reading a token can come to, if it does not fail. -/
theorem next_cases {bs : List UInt8} {p : Position} {o : Option Token} {s' : Bytes}
    (h : next (⟨bs, p⟩ : Bytes) = .ok o s') :
    (o = none ∧ (∀ b ∈ bs, Byte.isBlank b = true) ∧ s' = ⟨[], p.after bs⟩) ∨
    ∃ w x rest l, bs = w ++ (x ++ rest) ∧ (∀ b ∈ w, Byte.isBlank b = true) ∧ Reading x rest l ∧
      Fits x l ∧ o = some ⟨l, p.after w⟩ ∧ s' = ⟨rest, p.after (w ++ x)⟩ := by
  have hsplit := List.takeWhile_append_dropWhile (p := Byte.isBlank) (l := bs)
  have hw : ∀ b ∈ bs.takeWhile Byte.isBlank, Byte.isBlank b = true :=
    fun b hb => List.all_eq_true.1 List.all_takeWhile b hb
  unfold next at h
  rw [bind_ok (Bytes.takeWhile_apply _ _ _), bind_ok (Bytes.place_apply _)] at h
  generalize bs.takeWhile Byte.isBlank = w at h hsplit hw
  generalize bs.dropWhile Byte.isBlank = cs at h hsplit
  subst hsplit
  cases cs with
  | nil =>
    rw [bind_ok Bytes.peek_nil] at h
    cases h
    exact .inl ⟨rfl, by simpa using hw, by simp⟩
  | cons b cs =>
    rw [bind_ok Bytes.peek_cons] at h
    obtain ⟨l, s₁, h₁, h₂⟩ := bind_eq_ok.1 h
    cases h₂
    obtain ⟨x, hx, hpos, hr, hf⟩ := lexeme_sound h₁
    refine .inr ⟨w, x, s'.rest, l, by rw [hx], hw, hr, hf, rfl, ?_⟩
    rw [Position.after_append, ← hpos]

theorem next_blanks {w : List UInt8} (hw : ∀ b ∈ w, Byte.isBlank b = true) (p : Position) :
    next (⟨w, p⟩ : Bytes) = .ok none ⟨[], p.after w⟩ := by
  have := Bytes.takeWhile_append hw (show ∀ c ∈ ([] : List UInt8).head?, _ by simp) p
  rw [List.append_nil] at this
  unfold next
  rw [bind_ok this, bind_ok (Bytes.place_apply _), bind_ok Bytes.peek_nil]
  rfl

theorem next_reading {w x rest : List UInt8} {l : Lexeme} (hw : ∀ b ∈ w, Byte.isBlank b = true)
    (h : Reading x rest l) (hf : Fits x l) (hdot : rest.head? ≠ some Byte.dot) (p : Position) :
    next (⟨w ++ (x ++ rest), p⟩ : Bytes) = .ok (some ⟨l, p.after w⟩) ⟨rest, p.after (w ++ x)⟩ := by
  obtain ⟨b, y, rfl, hb, hlex⟩ := lexeme_complete h hf hdot
  have hhead : ∀ c ∈ (b :: y ++ rest).head?, Byte.isBlank c = false := by
    intro c hc
    obtain rfl : b = c := by simpa using hc
    exact hb
  unfold next
  rw [bind_ok (Bytes.takeWhile_append hw hhead p), bind_ok (Bytes.place_apply _), List.cons_append,
    bind_ok Bytes.peek_cons]
  have := hlex (p.after w) (p.after w)
  rw [List.cons_append] at this
  simp only
  rw [bind_ok this, Position.after_append]
  rfl

/-- Where the lexer yields no more tokens, all bytes have been taken. -/
theorem yields_next_end {s s' : Bytes} {ts : List Token} (y : Yields next s ts s') :
    s' = ⟨[], s.position.after s.rest⟩ := by
  induction y with
  | @stop s s' h =>
    rcases next_cases h with ⟨_, _, e⟩ | ⟨_, _, _, _, _, _, _, _, e, _⟩
    · exact e
    · cases e
  | @more s s₁ s' t ts h _ ih =>
    rcases next_cases h with ⟨e, _⟩ | ⟨w, x, rest, l, hbs, _, _, _, _, rfl⟩
    · cases e
    · rw [ih, hbs, ← List.append_assoc, Position.after_append s.position (w ++ x)]

/-- The tokens that the lexer yields are the lexemes of a split. -/
theorem yields_next_sound {s s' : Bytes} {ts : List Token} (y : Yields next s ts s')
    {front : List UInt8} (hs : s.position = placeBehind front) :
    ∃ ps tail, Splits s.rest ps tail ∧ ts = placed front ps ∧
      (∀ q ∈ ps, Fits q.source q.lexeme) ∧ s' = ⟨[], placeBehind (front ++ s.rest)⟩ := by
  induction y generalizing front with
  | @stop s s' h =>
    obtain ⟨bs, p⟩ := s
    subst hs
    rcases next_cases h with ⟨_, hw, rfl⟩ | ⟨w, x, rest, l, _, _, _, _, e, _⟩
    · exact ⟨[], bs, .nil hw, rfl, by simp, by rw [after_placeBehind]⟩
    · cases e
  | @more s s₁ s' t ts h _ ih =>
    obtain ⟨bs, p⟩ := s
    subst hs
    rcases next_cases h with ⟨e, _⟩ | ⟨w, x, rest, l, rfl, hw, hr, hf, e, rfl⟩
    · cases e
    · cases e
      obtain ⟨ps, tail, hps, rfl, hfs, rfl⟩ := ih (after_placeBehind front (w ++ x))
      refine ⟨⟨w, x, l⟩ :: ps, tail, .cons hw hr hps, ?_, ?_, ?_⟩
      · rw [placed, after_placeBehind]
      · intro q hq
        rcases List.mem_cons.1 hq with rfl | hq
        · exact hf
        · exact hfs q hq
      · simp

/-- The lexer yields the lexemes of every split whose numbers are not too long. -/
theorem yields_next_complete {bs tail : List UInt8} {ps : List Piece} (h : Splits bs ps tail)
    (hf : ∀ q ∈ ps, Fits q.source q.lexeme) (front : List UInt8) :
    Yields next (⟨bs, placeBehind front⟩ : Bytes) (placed front ps)
      ⟨[], placeBehind (front ++ bs)⟩ := by
  induction h generalizing front with
  | @nil w hw =>
    have := next_blanks hw (placeBehind front)
    rw [after_placeBehind] at this
    exact .stop this
  | @cons w x rest _ l ps hw hr hs ih =>
    have := next_reading hw hr (hf ⟨w, x, l⟩ (by simp)) hs.head_ne_dot (placeBehind front)
    rw [after_placeBehind, after_placeBehind] at this
    have hrest := ih (fun q hq => hf q (by simp [hq])) (front ++ (w ++ x))
    rw [List.append_assoc, List.append_assoc] at hrest
    exact .more this hrest

/-- Lexing loses nothing: the bytes fall in one way only into blanks and lexemes of the lexical
grammar, and the tokens are those lexemes, each at the place of its first byte. -/
theorem tokenize_lossless {bs : List UInt8} {ts : List Token} {s' : Bytes}
    (h : tokenize (Bytes.ofList bs) = .ok ts s') :
    ∃ ps tail, Splits bs ps tail ∧ ts = placed [] ps ∧
      (∀ q ∈ ps, (∀ s, q.lexeme ≠ .text s) → (∀ s, q.lexeme ≠ .comment s) →
        bytes q.lexeme.plain = q.source) ∧
      ∀ ps' tail', Splits bs ps' tail' → ps' = ps ∧ tail' = tail := by
  obtain ⟨ps, tail, hps, hts, _, _⟩ :=
    yields_next_sound ((many_eq_ok_iff _).1 h) placeBehind_nil.symm
  refine ⟨ps, tail, hps, hts, hps.bytes_plain, ?_⟩
  intro ps' tail' h'
  exact h'.unique hps

/-- A string with an escaped quote, a blank, a mark, and a comment whose one star is next to the
mark that closes it. -/
theorem tokenize_lossless_sample :
    let bs := [0x27, 0x5C, 0x27, 0x27, 0x20, 0x3B, 0x2F, 0x2A, 0x2A, 0x2A, 0x2F]
    ∃ ps tail, Splits bs ps tail ∧
      [⟨.text "'", ⟨1, 1⟩⟩, ⟨.punct .semi, ⟨1, 6⟩⟩, ⟨.comment "*", ⟨1, 7⟩⟩] = placed [] ps ∧
      (∀ q ∈ ps, (∀ s, q.lexeme ≠ .text s) → (∀ s, q.lexeme ≠ .comment s) →
        bytes q.lexeme.plain = q.source) ∧
      ∀ ps' tail', Splits bs ps' tail' → ps' = ps ∧ tail' = tail := by
  have hstring (rest : List UInt8) : Reading [0x27, 0x5C, 0x27, 0x27] rest (.text "'") :=
    @Reading.text 0x27 [0x5C, 0x27] rest "'" rfl (.escape .nil)
  have hcomment : Reading [0x2F, 0x2A, 0x2A, 0x2A, 0x2F] [] (.comment "*") :=
    @Reading.blockComment [0x2A] [] "*" (by decide) rfl
  have none : ∀ b ∈ ([] : List UInt8), Byte.isBlank b = true := by simp
  have space : ∀ b ∈ [(0x20 : UInt8)], Byte.isBlank b = true := List.all_eq_true.1 (by decide)
  have hsplits : Splits [0x27, 0x5C, 0x27, 0x27, 0x20, 0x3B, 0x2F, 0x2A, 0x2A, 0x2A, 0x2F]
      [⟨[], [0x27, 0x5C, 0x27, 0x27], .text "'"⟩, ⟨[0x20], [0x3B], .punct .semi⟩,
        ⟨[], [0x2F, 0x2A, 0x2A, 0x2A, 0x2F], .comment "*"⟩] [] :=
    .cons none (hstring _) (.cons space (.punct .semi _) (.cons none hcomment (.nil none)))
  refine tokenize_lossless ((many_eq_ok_iff progresses_next).2
    (yields_next_complete hsplits ?_ []))
  simp [Fits]

end Lexical
end ProtoSchema
