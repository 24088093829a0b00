import ProtoSchema.Proofs.Lexical.Offsets
import ProtoSchema.Token.Source

/-!
# ProtoSchema.Proofs.Lexical.Trivia

Blanks and comments between lexemes. `Trivia u` says that the bytes `u` are blanks, closed block
comments and line comments with their line feeds. Where the lexer starts a token (`StartsToken`), trivia
may be put in: the lexemes before and behind stay what they are, and only comments are added
(`tokens_insert`).
-/

namespace ProtoSchema
namespace Lexical

open Scan Lexer Text

inductive Trivia : List UInt8 → Prop where
  | nil : Trivia []
  | blank {b : UInt8} {u : List UInt8} : Byte.isBlank b = true → Trivia u → Trivia (b :: u)
  | line {line u : List UInt8} {s : String} :
      Byte.lineFeed ∉ line → withoutReturn line = bytes s → Trivia u →
      Trivia (Byte.slash :: Byte.slash :: (line ++ Byte.lineFeed :: u))
  | block {body u : List UInt8} {s : String} :
      ¬ [Byte.star, Byte.slash] <:+: body ++ [Byte.star] → body = bytes s → Trivia u →
      Trivia (Byte.slash :: Byte.star :: (body ++ Byte.star :: Byte.slash :: u))

/-- The lexer yields the tokens one after another. -/
inductive Passes : Bytes → List Token → Bytes → Prop where
  | nil {s : Bytes} : Passes s [] s
  | cons {s s₁ s' : Bytes} {t : Token} {ts : List Token} :
      next s = .ok (some t) s₁ → Passes s₁ ts s' → Passes s (t :: ts) s'

/-- Behind `front` the lexer starts a token: behind some tokens and blanks it is at the first byte of
`rest`, which is no blank. The token may turn out to be none. -/
def StartsToken (front rest : List UInt8) : Prop :=
  ∃ ts w p, Passes (Bytes.ofList (front ++ rest)) ts ⟨w ++ rest, p⟩ ∧
    (∀ b ∈ w, Byte.isBlank b = true) ∧ ∃ b ∈ rest.head?, Byte.isBlank b = false

variable {u w x front rest rest' : List UInt8} {p q : Position} {ts : List Token} {l : Lexeme}

/-! ## What a lexeme is does not depend on more than the byte behind it -/

theorem not_wordPart_of_gap {c : UInt8} (h : Byte.isBlank c = true ∨ c = Byte.slash) :
    Byte.isWordPart c = false ∧ Byte.isDigit c = false ∧ c ≠ Byte.dot := by
  rcases h with h | rfl
  · rcases blank_cases h with rfl | rfl | rfl | rfl <;> decide
  · decide

/-- A lexeme stays what it is if the byte behind it does, or becomes a blank or a slash. -/
theorem Reading.swap (h : Reading x rest l) (hne : rest ≠ [])
    (hc : ∀ c ∈ rest'.head?, rest.head? = some c ∨ Byte.isBlank c = true ∨ c = Byte.slash)
    (hdot : rest'.head? ≠ some Byte.dot) : Reading x rest' l := by
  have name (hl : IsLongest IsName x rest) : IsLongest IsName x rest' := by
    refine isLongest_name hl.holds fun c hmem => ⟨?_, fun e => hdot (e ▸ hmem)⟩
    rcases hc c hmem with h | h
    · exact hl.not_wordPart c h
    · exact (not_wordPart_of_gap h).1
  cases h with
  | keyword hl hw hx => exact .keyword (name hl) hw hx
  | ident hl hw hx hk => exact .ident (name hl) hw hx hk
  | dotted hl hlen hw => exact .dotted (name hl) hlen hw
  | number hl hn =>
    refine .number (isLongest_digits hl.holds fun c hmem => ?_) hn
    rcases hc c hmem with h | h
    · exact hl.not_digit c h
    · exact (not_wordPart_of_gap h).2.1
  | punct q _ => exact .punct q _
  | text hq hb => exact .text hq hb
  | lineComment hl hv => exact .lineComment hl hv
  | lastComment => exact absurd rfl hne
  | blockComment hb hv => exact .blockComment hb hv

/-! ## Trivia are passed over -/

theorem next_behind_blanks (hw : ∀ b ∈ w, Byte.isBlank b = true) (bs : List UInt8) (p : Position) :
    next (⟨w ++ bs, p⟩ : Bytes) = next ⟨bs, p.after w⟩ := by
  unfold next
  rw [bind_ok (Bytes.takeWhile_apply _ _ _), bind_ok (Bytes.takeWhile_apply _ _ _),
    List.takeWhile_append_of_pos hw, List.dropWhile_append_of_pos hw, Position.after_append]

theorem next_of_lexeme {b : UInt8} {bs : List UInt8} {s : Bytes} (hb : Byte.isBlank b = false)
    (h : lexeme b p (⟨b :: bs, p⟩ : Bytes) = .ok l s) :
    next (⟨b :: bs, p⟩ : Bytes) = .ok (some ⟨l, p⟩) s := by
  have hblanks : takeWhile Byte.isBlank (⟨b :: bs, p⟩ : Bytes) = .ok [] ⟨b :: bs, p⟩ :=
    Bytes.takeWhile_append (x := []) (by simp) (by simpa using hb) p
  unfold next
  rw [bind_ok hblanks, bind_ok (Bytes.place_apply _), bind_ok Bytes.peek_cons]
  simp only
  rw [bind_ok h]
  rfl

/-- The next token that is no comment is the one behind the trivia. -/
theorem first_trivia (h : Trivia u) (rest : List UInt8) (p : Position) :
    first (!·.isComment) next progresses_next (⟨u ++ rest, p⟩ : Bytes) =
      first (!·.isComment) next progresses_next (⟨rest, p.after u⟩ : Bytes) := by
  induction h generalizing p with
  | nil => rfl
  | @blank b u hb _ ih =>
    have hnext := next_behind_blanks (w := [b]) (by simpa using hb) (u ++ rest) p
    exact (first_congr _ hnext).trans (ih (p.next b))
  | @line line u s hl hv _ ih =>
    have hlex : lexeme Byte.slash p
        (⟨Byte.slash :: Byte.slash :: (line ++ Byte.lineFeed :: (u ++ rest)), p⟩ : Bytes) = _ :=
      lexeme_slash.trans (comment_line.trans (lineComment_complete hl hv _))
    have hfirst := first_some (q := (!·.isComment)) progresses_next (next_of_lexeme rfl hlex)
    have hfirst := hfirst.trans (ih _)
    simpa [Position.after_append] using hfirst
  | @block body u s hb hv _ ih =>
    have hlex : lexeme Byte.slash p
        (⟨Byte.slash :: Byte.star :: (body ++ Byte.star :: Byte.slash :: (u ++ rest)), p⟩ : Bytes) = _ :=
      lexeme_slash.trans (comment_block.trans (blockComment_complete hb hv _))
    have hfirst := first_some (q := (!·.isComment)) progresses_next (next_of_lexeme rfl hlex)
    have hfirst := hfirst.trans (ih _)
    simpa [Position.after_append] using hfirst

/-! ## Lexemes before trivia -/

theorem Trivia.head (h : Trivia u) (hne : u ≠ []) :
    ∃ b, u.head? = some b ∧ (Byte.isBlank b = true ∨ b = Byte.slash) := by
  cases h with
  | nil => exact absurd rfl hne
  | blank hb => exact ⟨_, rfl, .inl hb⟩
  | line => exact ⟨_, rfl, .inr rfl⟩
  | block => exact ⟨_, rfl, .inr rfl⟩

/-- What stands behind a lexeme after trivia have been put in behind `front`: what stood there before, or
a blank or a slash; and no dot. -/
theorem Trivia.head_behind (h : Trivia u) (hne : u ≠ [])
    (hdot : front ≠ [] → front.head? ≠ some Byte.dot) (rest : List UInt8) :
    ∀ c ∈ (front ++ (u ++ rest)).head?,
      ((front ++ rest).head? = some c ∨ Byte.isBlank c = true ∨ c = Byte.slash) ∧ c ≠ Byte.dot := by
  intro c hc
  obtain ⟨b, hb, hgap⟩ := h.head hne
  by_cases hfront : front = []
  · subst hfront
    obtain rfl : b = c := by simpa [List.head?_append, hb] using hc
    exact ⟨.inr hgap, (not_wordPart_of_gap hgap).2.2⟩
  · have hfirst := hdot hfront
    obtain ⟨d, y, rfl⟩ := List.exists_cons_of_ne_nil hfront
    obtain rfl : d = c := by simpa using hc
    exact ⟨.inl rfl, by simpa using hfirst⟩

/-- What the lexer has left is an end of what it has begun with. -/
theorem Passes.suffix {s s' : Bytes} (h : Passes s ts s') : s'.rest <:+ s.rest := by
  induction h with
  | nil => exact List.suffix_refl _
  | @cons s _ _ _ _ hn _ ih =>
    obtain ⟨bs, p⟩ := s
    rcases next_cases hn with ⟨e, _⟩ | ⟨w, x, r, _, rfl, _, _, _, _, rfl⟩
    · cases e
    · refine ih.trans ?_
      rw [← List.append_assoc]
      exact List.suffix_append _ _

/-- Where the lexer goes on to a token, no dot comes first. -/
theorem Passes.head_ne_dot (h : Passes ⟨front ++ rest, p⟩ ts ⟨w ++ rest, q⟩)
    (hw : ∀ b ∈ w, Byte.isBlank b = true) (hne : front ≠ []) : front.head? ≠ some Byte.dot := by
  have hhead : (front ++ rest).head? = front.head? := by
    obtain ⟨b, y, rfl⟩ := List.exists_cons_of_ne_nil hne
    rfl
  rw [← hhead]
  generalize hs : (⟨front ++ rest, p⟩ : Bytes) = s at h
  generalize hs' : (⟨w ++ rest, q⟩ : Bytes) = s' at h
  cases h with
  | nil =>
    cases hs
    obtain ⟨rfl, _⟩ : w = front ∧ q = p := by simpa using hs'
    rw [hhead, ← List.append_nil w]
    exact head_append_ne_dot hw nofun
  | cons hn _ =>
    subst hs
    rcases next_cases hn with ⟨e, _⟩ | ⟨v, x, r, _, hbs, hv, hr, _⟩
    · cases e
    · rw [hbs]
      exact head_append_ne_dot hv hr.head_ne_dot

/-- The lexemes before trivia are what they are without them. -/
theorem Passes.insert (hu : Trivia u) (hw : ∀ b ∈ w, Byte.isBlank b = true) (hne : rest ≠ [])
    (h : Passes ⟨front ++ rest, p⟩ ts ⟨w ++ rest, q⟩) :
    Passes ⟨front ++ (u ++ rest), p⟩ ts ⟨w ++ (u ++ rest), q⟩ := by
  by_cases hnil : u = []
  · subst hnil
    exact h
  induction ts generalizing front p with
  | nil =>
    generalize hs : (⟨front ++ rest, p⟩ : Bytes) = s at h
    generalize hs' : (⟨w ++ rest, q⟩ : Bytes) = s' at h
    cases h
    cases hs
    obtain ⟨rfl, rfl⟩ : w = front ∧ q = p := by simpa using hs'
    exact .nil
  | cons t ts ih =>
    cases h with
    | cons hn hp =>
      rcases next_cases hn with ⟨e, _⟩ | ⟨v, x, r, l, hbs, hv, hr, hf, ht, rfl⟩
      · cases e
      cases ht
      -- what is behind the lexeme ends with the blanks and the rest
      obtain ⟨z, hz⟩ : w ++ rest <:+ r := hp.suffix
      obtain ⟨front', rfl⟩ : ∃ front', r = front' ++ rest := ⟨z ++ w, by rw [← hz, List.append_assoc]⟩
      obtain rfl : front = v ++ (x ++ front') := List.append_cancel_right (hbs.trans (by simp))
      have hhead := hu.head_behind hnil (hp.head_ne_dot hw) rest
      have hne' : front' ++ rest ≠ [] := by simp [hne]
      have hdot : (front' ++ (u ++ rest)).head? ≠ some Byte.dot := fun e => (hhead _ e).2 rfl
      have hstep := next_reading hv (hr.swap hne' (fun c hc => (hhead c hc).1) hdot) hf hdot p
      have hrest := ih hp
      rw [List.append_assoc, List.append_assoc]
      exact .cons hstep hrest

theorem Passes.tokens_eq {s s' : Bytes} (h : Passes s ts s') :
    (tokens s).items = ts ++ (tokens s').items ∧ (tokens s).failure = (tokens s').failure := by
  induction h with
  | nil => exact ⟨rfl, rfl⟩
  | cons hn _ ih =>
    unfold tokens at ih ⊢
    rw [run_some _ hn, ih.1, ih.2]
    exact ⟨rfl, rfl⟩

end Lexical
end ProtoSchema
