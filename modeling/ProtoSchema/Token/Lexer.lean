import ProtoSchema.Byte
import ProtoSchema.Input.Basic

/-!
# ProtoSchema.Token.Lexer

The lexical grammar: how bytes make tokens. `Lexer.next` reads one token, after any blanks, with
one function for each class of lexemes; `Lexer.tokens` reads until the input ends or a lexeme is
refused. Every token uses up at least one byte (`Lexer.progresses_next`).
-/

namespace ProtoSchema

/-- The lexeme of an identifier: a single segment may be a keyword, several make a dotted
identifier whatever they are. -/
def Lexeme.ofSegments (first : String) : List String → Lexeme
  | [] =>
    match Keyword.ofWord? first with
    | some k => .keyword k
    | none => .ident first
  | more => .dotted (first :: more)

namespace Lexer

open ByteInput Scan

variable {σ : Type} [ByteInput σ]

/-- The most digits that a number may have. -/
def maxDigits : Nat := 4300

/-- The text that the bytes inside a lexeme encode. -/
def decode (inside : Kind) (start : Position) (bs : List UInt8) : Scan σ String :=
  match Utf8.decode bs with
  | .ok cs => pure (String.ofList cs)
  | .error fault => refuse (.invalidUtf8 inside fault) start

/-- A dot and the segment behind it; nothing if no dot follows. -/
def segment : Scan σ (Option (List UInt8)) := do
  match ← peek with
  | none => pure none
  | some b =>
    if b = Byte.dot then
      let dot ← place
      advance
      match ← peek with
      | none => refuse .danglingDot dot
      | some c =>
        if Byte.isLetter c then
          let bs ← takeWhile Byte.isWordPart
          pure (some bs)
        else refuse .danglingDot dot
    else pure none

/-- One byte of the body of a string, a backslash standing for the byte behind it; nothing at the
closing quote. -/
def stringByte (quote : UInt8) (start : Position) : Scan σ (Option UInt8) := do
  match ← take with
  | none => refuse .unterminatedString start
  | some b =>
    if b = quote then pure none
    else if b = Byte.backslash then
      match ← take with
      | none => refuse .unterminatedString start
      | some c => pure (some c)
    else pure (some b)

/-- One byte of the body of a block comment; nothing at the closing mark. -/
def blockByte (start : Position) : Scan σ (Option UInt8) := do
  match ← peek with
  | none => refuse .unterminatedComment start
  | some b =>
    if b = Byte.star then
      let two ← ahead 2
      if two = [Byte.star, Byte.slash] then
        advance
        advance
        pure none
      else take
    else take

/-! ## Each step uses up what it yields -/

theorem nonGrowing_decode (inside : Kind) (start : Position) (bs : List UInt8) :
    NonGrowing (decode inside start bs : Scan σ String) := by
  unfold decode
  split
  · exact .pure _
  · exact .refuse _ _

/-- What follows the taking of a byte that has been shown ends with fewer bytes. -/
theorem left_lt_of_advance {α : Type} {m : Scan σ α} (hm : NonGrowing m) {b : UInt8} {s s₁ s' : σ}
    {a : α} (h : peek s = .ok (some b) s₁) (e : (advance >>= fun _ => m) s₁ = .ok a s') :
    left s' < left s := by
  obtain ⟨_, s₂, h₁, h₂⟩ := bind_eq_ok.1 e
  cases h₁
  exact Nat.lt_of_le_of_lt (hm h₂) (left_lt_of_peek h)

theorem progresses_segment : Progresses (segment : Scan σ (Option (List UInt8))) := by
  intro s bs s' h
  obtain ⟨o, s₁, h₁, h₂⟩ := bind_eq_ok.1 h
  cases o with
  | none => cases h₂
  | some b =>
    simp only at h₂
    split at h₂
    · obtain ⟨dot, s₂, h₃, h₄⟩ := bind_eq_ok.1 h₂
      cases h₃
      refine left_lt_of_advance ?_ h₁ h₄
      refine .bind nonGrowing_peek fun o => ?_
      cases o with
      | none => exact .refuse _ _
      | some c =>
        simp only
        split
        · exact .bind (nonGrowing_takeWhile _) fun _ => .pure _
        · exact .refuse _ _
    · cases h₂

theorem nonGrowing_segment : NonGrowing (segment : Scan σ (Option (List UInt8))) := by
  refine progresses_segment.nonGrowing_of_none ?_
  intro s s' h
  obtain ⟨o, s₁, h₁, h₂⟩ := bind_eq_ok.1 h
  cases o with
  | none =>
    cases h₂
    exact nonGrowing_peek h₁
  | some b =>
    simp only at h₂
    split at h₂
    · obtain ⟨dot, s₂, h₃, h₄⟩ := bind_eq_ok.1 h₂
      cases h₃
      obtain ⟨_, s₃, h₅, h₆⟩ := bind_eq_ok.1 h₄
      cases h₅
      obtain ⟨o, s₄, _, h₈⟩ := bind_eq_ok.1 h₆
      cases o with
      | none => cases h₈
      | some c =>
        simp only at h₈
        split at h₈
        · obtain ⟨_, s₅, _, h₉⟩ := bind_eq_ok.1 h₈
          cases h₉
        · cases h₈
    · cases h₂
      exact nonGrowing_peek h₁

theorem nonGrowing_stringByte (quote : UInt8) (start : Position) :
    NonGrowing (stringByte quote start : Scan σ (Option UInt8)) := by
  refine .bind (nonGrowing_takeIf _) fun o => ?_
  cases o with
  | none => exact .refuse _ _
  | some b =>
    simp only
    split
    · exact .pure _
    · split
      · refine .bind (nonGrowing_takeIf _) fun o => ?_
        cases o with
        | none => exact .refuse _ _
        | some c => exact .pure _
      · exact .pure _

theorem progresses_stringByte (quote : UInt8) (start : Position) :
    Progresses (stringByte quote start : Scan σ (Option UInt8)) := by
  intro s b s' h
  obtain ⟨o, s₁, h₁, h₂⟩ := bind_eq_ok.1 h
  cases o with
  | none => cases h₂
  | some b =>
    have hlt := progresses_takeIf _ h₁
    simp only at h₂
    split at h₂
    · cases h₂
    · split at h₂
      · obtain ⟨o, s₂, h₃, h₄⟩ := bind_eq_ok.1 h₂
        cases o with
        | none => cases h₄
        | some c =>
          cases h₄
          exact Nat.lt_of_le_of_lt (nonGrowing_takeIf _ h₃) hlt
      · cases h₂
        exact hlt

theorem nonGrowing_blockByte (start : Position) :
    NonGrowing (blockByte start : Scan σ (Option UInt8)) := by
  refine .bind nonGrowing_peek fun o => ?_
  cases o with
  | none => exact .refuse _ _
  | some b =>
    simp only
    split
    · refine .bind (nonGrowing_ahead 2) fun two => ?_
      split
      · exact .bind nonGrowing_advance fun _ => .bind nonGrowing_advance fun _ => .pure _
      · exact nonGrowing_takeIf _
    · exact nonGrowing_takeIf _

theorem progresses_blockByte (start : Position) :
    Progresses (blockByte start : Scan σ (Option UInt8)) := by
  intro s b s' h
  obtain ⟨o, s₁, h₁, h₂⟩ := bind_eq_ok.1 h
  have hle := nonGrowing_peek h₁
  cases o with
  | none => cases h₂
  | some b =>
    simp only at h₂
    split at h₂
    · obtain ⟨two, s₂, h₃, h₄⟩ := bind_eq_ok.1 h₂
      split at h₄
      · obtain ⟨_, s₃, h₅, h₆⟩ := bind_eq_ok.1 h₄
        obtain ⟨_, s₄, _, h₇⟩ := bind_eq_ok.1 h₆
        cases h₇
      · exact Nat.lt_of_lt_of_le (progresses_takeIf _ h₄) (Nat.le_trans (left_ahead h₃) hle)
    · exact Nat.lt_of_lt_of_le (progresses_takeIf _ h₂) hle

/-! ## Lexemes -/

/-- The rest of an identifier that begins with the letter `first`. -/
def word (first : UInt8) : Scan σ Lexeme := do
  let rest ← takeWhile Byte.isWordPart
  let more ← many segment progresses_segment
  pure (.ofSegments (Byte.text (first :: rest)) (more.map Byte.text))

/-- The rest of a string that `quote` has opened. -/
def string (quote : UInt8) (start : Position) : Scan σ Lexeme := do
  let body ← many (stringByte quote start) (progresses_stringByte quote start)
  let value ← decode .text start body
  pure (.text value)

/-- The rest of a number that begins with the digit `first`. -/
def number (first : UInt8) (start : Position) : Scan σ Lexeme := do
  let rest ← takeWhile Byte.isDigit
  let digits := first :: rest
  if first = Byte.zero ∧ rest ≠ [] then refuse (.leadingZero (Byte.text digits)) start
  else if maxDigits < digits.length then throw (.numberTooLong maxDigits)
  else pure (.number (Byte.number digits))

/-- A line without the carriage return at its end. -/
def withoutReturn (line : List UInt8) : List UInt8 :=
  if line.getLast? = some Byte.carriageReturn then line.dropLast else line

/-- The rest of a line comment, with the line feed that ends it. -/
def lineComment (start : Position) : Scan σ Lexeme := do
  let line ← takeWhile (· != Byte.lineFeed)
  let _ ← take
  let body ← decode .comment start (withoutReturn line)
  pure (.comment body)

def blockComment (start : Position) : Scan σ Lexeme := do
  let bytes ← many (blockByte start) (progresses_blockByte start)
  let body ← decode .comment start bytes
  pure (.comment body)

def comment (start : Position) : Scan σ Lexeme := do
  let two ← ahead 2
  if two = [Byte.slash, Byte.slash] then
    advance
    advance
    lineComment start
  else if two = [Byte.slash, Byte.star] then
    advance
    advance
    blockComment start
  else refuse (.unexpectedByte Byte.slash) start

/-- The lexeme that begins with the byte `b`, which has been shown and not taken. -/
def lexeme (b : UInt8) (start : Position) : Scan σ Lexeme :=
  if Byte.isLetter b then do
    advance
    word b
  else if Byte.isQuote b then do
    advance
    string b start
  else if Byte.isDigit b then do
    advance
    number b start
  else
    match Punct.ofByte? b with
    | some p => do
      advance
      pure (.punct p)
    | none => if b = Byte.slash then comment start else refuse (.unexpectedByte b) start

/-- The next token, comments included; nothing at the end of the input. -/
def next : Scan σ (Option Token) := do
  let _ ← takeWhile Byte.isBlank
  let start ← place
  match ← peek with
  | none => pure none
  | some b =>
    let l ← lexeme b start
    pure (some ⟨l, start⟩)

theorem nonGrowing_word (first : UInt8) : NonGrowing (word first : Scan σ Lexeme) :=
  .bind (nonGrowing_takeWhile _) fun _ => .bind (.many _ nonGrowing_segment) fun _ => .pure _

theorem nonGrowing_string (quote : UInt8) (start : Position) :
    NonGrowing (string quote start : Scan σ Lexeme) :=
  .bind (.many _ (nonGrowing_stringByte quote start)) fun _ =>
    .bind (nonGrowing_decode _ _ _) fun _ => .pure _

theorem nonGrowing_number (first : UInt8) (start : Position) :
    NonGrowing (number first start : Scan σ Lexeme) := by
  refine .bind (nonGrowing_takeWhile _) fun rest => ?_
  simp only
  split
  · exact .refuse _ _
  · split
    · exact .throw _
    · exact .pure _

theorem nonGrowing_lineComment (start : Position) :
    NonGrowing (lineComment start : Scan σ Lexeme) :=
  .bind (nonGrowing_takeWhile _) fun _ => .bind (nonGrowing_takeIf _) fun _ =>
    .bind (nonGrowing_decode _ _ _) fun _ => .pure _

theorem nonGrowing_blockComment (start : Position) :
    NonGrowing (blockComment start : Scan σ Lexeme) :=
  .bind (.many _ (nonGrowing_blockByte start)) fun _ =>
    .bind (nonGrowing_decode _ _ _) fun _ => .pure _

/-- A comment uses up its first byte. -/
theorem left_lt_of_comment {start : Position} {s s' : σ} {l : Lexeme}
    (h : comment start s = .ok l s') : left s' < left s := by
  obtain ⟨two, s₁, h₁, h₂⟩ := bind_eq_ok.1 h
  split at h₂
  · next h₀ =>
    subst h₀
    obtain ⟨_, s₂, h₃, h₄⟩ := bind_eq_ok.1 h₂
    cases h₃
    exact Nat.lt_of_le_of_lt
      (NonGrowing.bind nonGrowing_advance (fun _ => nonGrowing_lineComment start) h₄)
      (left_skip h₁)
  · split at h₂
    · next h₀ =>
      subst h₀
      obtain ⟨_, s₂, h₃, h₄⟩ := bind_eq_ok.1 h₂
      cases h₃
      exact Nat.lt_of_le_of_lt
        (NonGrowing.bind nonGrowing_advance (fun _ => nonGrowing_blockComment start) h₄)
        (left_skip h₁)
    · cases h₂

/-- A lexeme uses up its first byte. -/
theorem left_lt_of_lexeme {b : UInt8} {start : Position} {s s₁ s' : σ} {l : Lexeme}
    (h : peek s = .ok (some b) s₁) (e : lexeme b start s₁ = .ok l s') : left s' < left s := by
  unfold lexeme at e
  split at e
  · exact left_lt_of_advance (nonGrowing_word b) h e
  · split at e
    · exact left_lt_of_advance (nonGrowing_string b start) h e
    · split at e
      · exact left_lt_of_advance (nonGrowing_number b start) h e
      · cases hp : Punct.ofByte? b with
        | some p =>
          simp only [hp] at e
          exact left_lt_of_advance (.pure _) h e
        | none =>
          simp only [hp] at e
          split at e
          · exact Nat.lt_of_lt_of_le (left_lt_of_comment e) (nonGrowing_peek h)
          · cases e

/-- A token uses up at least one byte. -/
theorem progresses_next : Progresses (next : Scan σ (Option Token)) := by
  intro s t s' h
  obtain ⟨_, s₁, h₁, h₂⟩ := bind_eq_ok.1 h
  obtain ⟨start, s₂, h₃, h₄⟩ := bind_eq_ok.1 h₂
  cases h₃
  obtain ⟨o, s₃, h₅, h₆⟩ := bind_eq_ok.1 h₄
  cases o with
  | none => cases h₆
  | some b =>
    obtain ⟨l, s₄, h₇, h₈⟩ := bind_eq_ok.1 h₆
    cases h₈
    exact Nat.lt_of_lt_of_le (left_lt_of_lexeme h₅ h₇) (nonGrowing_takeWhile _ h₁)

/-- The tokens up to the end of the input or to the first lexeme that is refused. -/
def tokens (s : σ) : Run σ Token := run next progresses_next s

def tokenize : Scan σ (List Token) := many next progresses_next

end Lexer
end ProtoSchema
