import ProtoSchema.Document.Printer
import ProtoSchema.Proofs.Lexical.Names

/-!
# ProtoSchema.Proofs.Printing.Spelling

Texts that are read as given lexemes.

* `Lexes bs ls` — the bytes fall into blanks and the lexemes `ls`, and none of them is a comment.
* `Spells s ls` — the text `s` adds `ls` in front of whatever is read behind it.
* `Opens s ls` — the same, provided that a name or a number ends behind `s`.

Names, keywords and numbers open; strings, marks and blanks spell. What opens spells together with
a mark or a blank behind it.
-/

namespace ProtoSchema
namespace Printing

open Text Lexical

inductive Lexes : List UInt8 → List Lexeme → Prop where
  | nil : Lexes [] []
  | blank {b : UInt8} {bs : List UInt8} {ls : List Lexeme} :
      Byte.isBlank b = true → Lexes bs ls → Lexes (b :: bs) ls
  | cons {x rest : List UInt8} {l : Lexeme} {ls : List Lexeme} :
      Reading x rest l → Fits x l → l.kind ≠ .comment → Lexes rest ls → Lexes (x ++ rest) (l :: ls)

/-- A name or a number ends before these bytes. -/
def Ends (rest : List UInt8) : Prop :=
  ∀ c ∈ rest.head?, Byte.isWordPart c = false ∧ c ≠ Byte.dot

def Spells (s : String) (ls : List Lexeme) : Prop :=
  ∀ rest ls', Lexes rest ls' → Lexes (bytes s ++ rest) (ls ++ ls')

def Opens (s : String) (ls : List Lexeme) : Prop :=
  ∀ rest ls', Ends rest → Lexes rest ls' → Lexes (bytes s ++ rest) (ls ++ ls')

theorem Lexes.splits {bs : List UInt8} {ls : List Lexeme} (h : Lexes bs ls) :
    ∃ ps tail, Splits bs ps tail ∧ ps.map Piece.lexeme = ls ∧
      ∀ q ∈ ps, Fits q.source q.lexeme ∧ q.lexeme.kind ≠ .comment := by
  induction h with
  | nil => exact ⟨[], [], .nil (by simp), rfl, by simp⟩
  | @blank b _ _ hb _ ih =>
    obtain ⟨ps, tail, hs, hls, hq⟩ := ih
    cases hs with
    | nil ht => exact ⟨[], _, .nil (List.forall_mem_cons.2 ⟨hb, ht⟩), hls, hq⟩
    | @cons w x _ _ l ps hw hr hs =>
      rw [List.forall_mem_cons] at hq
      exact ⟨⟨b :: w, x, l⟩ :: ps, tail, .cons (List.forall_mem_cons.2 ⟨hb, hw⟩) hr hs, hls,
        List.forall_mem_cons.2 hq⟩
  | @cons x _ l _ hr hf hc _ ih =>
    obtain ⟨ps, tail, hs, hls, hq⟩ := ih
    refine ⟨⟨[], x, l⟩ :: ps, tail, ?_, by rw [List.map_cons, hls],
      List.forall_mem_cons.2 ⟨⟨hf, hc⟩, hq⟩⟩
    exact .cons (w := []) (by simp) hr hs

/-- What a text spells can be read. -/
theorem Lexes.readable {bs : List UInt8} {l : Lexeme} {ls : List Lexeme} (h : Lexes bs (l :: ls)) :
    Readable l := by
  obtain ⟨ps, tail, hs, hls, hq⟩ := h.splits
  cases hs with
  | nil => cases hls
  | cons _ hr _ =>
    cases hls
    exact ⟨_, _, hr, (hq _ List.mem_cons_self).1⟩

section Composition

variable {s t : String} {ls ls' : List Lexeme}

theorem Spells.opens (h : Spells s ls) : Opens s ls := fun rest ls' _ hr => h rest ls' hr

theorem Opens.readable {l : Lexeme} (h : Opens s (l :: ls)) : Readable l :=
  (h [] [] nofun .nil).readable

theorem Spells.append (h : Spells s ls) (h' : Spells t ls') : Spells (s ++ t) (ls ++ ls') := by
  intro rest ls'' hr
  rw [bytes_append, List.append_assoc, List.append_assoc]
  exact h _ _ (h' _ _ hr)

theorem Spells.append_open (h : Spells s ls) (h' : Opens t ls') : Opens (s ++ t) (ls ++ ls') := by
  intro rest ls'' he hr
  rw [bytes_append, List.append_assoc, List.append_assoc]
  exact h _ _ (h' _ _ he hr)

theorem spells_nil : Spells "" [] := fun _ _ hr => hr

end Composition

/-! ## Marks and blanks -/

/-- The lexemes of bytes that are all marks and blanks. -/
def marks? : List UInt8 → Option (List Lexeme)
  | [] => some []
  | b :: bs =>
    if Byte.isBlank b then marks? bs
    else
      match Punct.ofByte? b with
      | some p => (marks? bs).map (.punct p :: ·)
      | none => none

theorem Lexes.marks {bs rest : List UInt8} {ms ls : List Lexeme} (h : marks? bs = some ms)
    (hr : Lexes rest ls) : Lexes (bs ++ rest) (ms ++ ls) := by
  induction bs generalizing ms with
  | nil => cases h; exact hr
  | cons b bs ih =>
    unfold marks? at h
    by_cases hb : Byte.isBlank b = true
    · rw [if_pos hb] at h
      exact .blank hb (ih h)
    · rw [if_neg hb] at h
      cases hp : Punct.ofByte? b with
      | none =>
        rw [hp] at h
        cases h
      | some p =>
        rw [hp] at h
        obtain ⟨ms', hms, rfl⟩ := Option.map_eq_some_iff.1 h
        have : Reading [b] (bs ++ rest) (.punct p) := by
          rw [← byte_of_ofByte? hp]
          exact .punct p _
        exact .cons (x := [b]) this nofun nofun (ih hms)

theorem spells_marks {s : String} {ms : List Lexeme} (h : marks? (bytes s) = some ms) :
    Spells s ms :=
  fun _ _ hr => hr.marks h

theorem Ends.head_ne_dot {rest : List UInt8} (he : Ends rest) : rest.head? ≠ some Byte.dot :=
  fun h => (he _ h).2 rfl

theorem ends_punct (q : Punct) (rest : List UInt8) : Ends (q.byte :: rest) := by
  intro c hc
  obtain rfl : q.byte = c := by simpa using hc
  cases q <;> decide

/-- A mark or a blank ends what is before it. -/
theorem ends_of_marks {bs rest : List UInt8} {ms : List Lexeme} (h : marks? bs = some ms)
    (hne : bs ≠ []) : Ends (bs ++ rest) := by
  cases bs with
  | nil => exact absurd rfl hne
  | cons b bs =>
    intro c hc
    obtain rfl : b = c := by simpa using hc
    unfold marks? at h
    by_cases hb : Byte.isBlank b = true
    · rcases blank_cases hb with rfl | rfl | rfl | rfl <;> decide
    · rw [if_neg hb] at h
      cases hp : Punct.ofByte? b with
      | none =>
        rw [hp] at h
        cases h
      | some p =>
        rw [← byte_of_ofByte? hp]
        exact ends_punct p (bs ++ rest) p.byte rfl

/-- What opens is closed by marks and blanks. -/
theorem Opens.marks {s t : String} {ls ms : List Lexeme} (h : Opens s ls)
    (ht : marks? (bytes t) = some ms) (hne : bytes t ≠ []) : Spells (s ++ t) (ls ++ ms) := by
  intro rest ls' hr
  rw [bytes_append, List.append_assoc, List.append_assoc]
  exact h _ _ (ends_of_marks ht hne) (hr.marks ht)

/-! ## Names and numbers -/

theorem opens_of_reading {s : String} {l : Lexeme} (hf : Fits (bytes s) l)
    (hc : l.kind ≠ .comment) (h : ∀ rest, Ends rest → Reading (bytes s) rest l) : Opens s [l] :=
  fun rest _ he hr => .cons (h rest he) hf hc hr

theorem reading_keyword (k : Keyword) {rest : List UInt8} (he : Ends rest) :
    Reading (bytes k.word) rest (.keyword k) := by
  have hw := isWord_bytes_iff.2 (isIdentifier_word k)
  exact .keyword (isLongest_name (.of_word hw) he) hw rfl

theorem reading_ident {n : String} (h : IsPlainName n) {rest : List UInt8} (he : Ends rest) :
    Reading (bytes n) rest (.ident n) := by
  have hw := isWord_bytes_iff.2 h.1
  exact .ident (isLongest_name (.of_word hw) he) hw rfl h.2

theorem reading_dotted {ss : List String} (h : IsDotted ss) {rest : List UInt8} (he : Ends rest) :
    Reading (bytes (".".intercalate ss)) rest (.dotted ss) := by
  obtain ⟨hlen, hss⟩ := h
  have hw : ∀ s ∈ ss, IsWord (bytes s) := fun s hs => isWord_bytes_iff.2 (hss s hs)
  have hb : bytes (".".intercalate ss) = dotted (ss.map bytes) := bytes_intercalate "." ss
  have hname : IsName (dotted (ss.map bytes)) := by
    refine ⟨ss.map bytes, ?_, List.forall_mem_map.2 hw, rfl⟩
    intro e
    rw [List.map_eq_nil_iff] at e
    simp [e] at hlen
  rw [hb]
  exact .dotted (isLongest_name hname he) hlen hw

theorem opens_keyword (k : Keyword) : Opens k.word [.keyword k] :=
  opens_of_reading nofun nofun fun _ => reading_keyword k

theorem opens_ident {n : String} (h : IsPlainName n) : Opens n [.ident n] :=
  opens_of_reading nofun nofun fun _ => reading_ident h

theorem opens_dotted {ss : List String} (h : IsDotted ss) :
    Opens (".".intercalate ss) [.dotted ss] :=
  opens_of_reading nofun nofun fun _ => reading_dotted h

theorem opens_number {n : Nat} (h : (toString n).length ≤ Lexer.maxDigits) :
    Opens (toString n) [.number n] := by
  have hn := isNumeral_bytes_toString n
  refine opens_of_reading ?_ nofun fun rest he => ?_
  · intro _ _
    rw [length_bytes_numeral]
    exact h
  · have hend : ∀ c ∈ rest.head?, Byte.isDigit c = false := by
      intro c hc
      have := (he c hc).1
      simp only [Byte.isWordPart, Bool.or_eq_false_iff] at this
      exact this.1.2
    have := @Reading.number _ rest (isLongest_digits hn.1 hend) hn
    rwa [number_bytes_toString] at this

/-! ## String literals -/

theorem StringBody.plain_append {q : UInt8} {x body value : List UInt8}
    (hx : ∀ b ∈ x, b ≠ q ∧ b ≠ Byte.backslash) (h : StringBody q body value) :
    StringBody q (x ++ body) (x ++ value) := by
  induction x with
  | nil => exact h
  | cons b x ih =>
    obtain ⟨⟨h₁, h₂⟩, hx⟩ := List.forall_mem_cons.1 hx
    exact .plain h₁ h₂ (ih hx)

/-- Characters between double quotes are read as themselves. -/
theorem stringBody_literal (cs : List Char) :
    StringBody Byte.doubleQuote (Utf8.encode (cs.flatMap literalChar)) (Utf8.encode cs) := by
  induction cs with
  | nil => exact .nil
  | cons c cs ih =>
    rw [List.flatMap_cons, Utf8.encode_append, Utf8.encode_cons]
    by_cases hc : c = '\x5c' ∨ c = '\x22'
    · rcases hc with rfl | rfl
      · exact .escape ih
      · exact .escape ih
    · obtain ⟨h₁, h₂⟩ := not_or.1 hc
      have hlit : literalChar c = [c] := by simp [literalChar, h₁, h₂]
      rw [hlit, Utf8.encode_cons, Utf8.encode_nil, List.append_nil]
      refine StringBody.plain_append ?_ ih
      intro b hb
      rw [ne_eq, ne_eq, Utf8.eq_iff_toNat_eq, Utf8.eq_iff_toNat_eq]
      by_cases ha : c.toNat < 0x80
      · have h₁' : c.toNat ≠ 0x5C := fun e => h₁ (Char.toNat_inj.1 e)
        have h₂' : c.toNat ≠ 0x22 := fun e => h₂ (Char.toNat_inj.1 e)
        rw [encodeChar_ascii ha, List.mem_singleton] at hb
        subst hb
        rw [Utf8.toNat_ofNat_of_lt (by omega)]
        exact ⟨h₂', h₁'⟩
      · have := encodeChar_of_not_ascii ha b hb
        simp only [Byte.doubleQuote, Byte.backslash, UInt8.reduceToNat]
        omega

theorem bytes_literal (s : String) : bytes (literal s) =
    Byte.doubleQuote :: Utf8.encode (s.toList.flatMap literalChar) ++ [Byte.doubleQuote] := by
  rw [literal, bytes_ofList, List.cons_append, Utf8.encode_cons, Utf8.encode_append]
  rfl

theorem spells_literal (s : String) : Spells (literal s) [.text s] := by
  intro rest ls' hr
  rw [bytes_literal]
  exact .cons (.text (by decide) (stringBody_literal s.toList)) nofun nofun hr

/-! ## Lists of texts -/

/-- Each text spells a part of `ls`. -/
inductive SpellsAll : List String → List Lexeme → Prop where
  | nil : SpellsAll [] []
  | cons {s : String} {ss : List String} {ls ls' : List Lexeme} :
      Spells s ls → SpellsAll ss ls' → SpellsAll (s :: ss) (ls ++ ls')

theorem SpellsAll.append {ss ts : List String} {ls ls' : List Lexeme} (h : SpellsAll ss ls)
    (h' : SpellsAll ts ls') : SpellsAll (ss ++ ts) (ls ++ ls') := by
  induction h with
  | nil => exact h'
  | cons hs _ ih =>
    rw [List.append_assoc]
    exact .cons hs ih

/-- Blanks between texts change nothing. -/
theorem SpellsAll.intercalate {ss : List String} {ls : List Lexeme} (h : SpellsAll ss ls)
    (sep : String) (hsep : marks? (bytes sep) = some []) : Spells (sep.intercalate ss) ls := by
  induction h with
  | nil => exact spells_nil
  | @cons s ss ls ls' hs hss ih =>
    cases hss with
    | nil => simpa using hs
    | @cons t ss ls ls' ht hss =>
      rw [String.intercalate_cons_cons]
      have := (hs.append (spells_marks hsep)).append ih
      rwa [List.append_nil] at this

end Printing
end ProtoSchema
