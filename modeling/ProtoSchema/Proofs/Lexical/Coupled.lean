import ProtoSchema.Proofs.Coupling
import ProtoSchema.Token.Lexer

/-!
# ProtoSchema.Proofs.Lexical.Coupled

The lexer on two inputs, side by side. An `InputCoupling` couples the steps that inputs have: showing
bytes, taking a byte that has been shown, and the place that has been reached. Its index is the bytes
that have been shown. The lexer is put together from these steps, so it couples with itself
(`InputCoupling.couples_next`).

Of an input the lexer asks little (`Asks`): it looks at one byte, and at a second one only behind a
slash or a star.
-/

namespace ProtoSchema

/-- The failures of the lexer itself, as opposed to those of its input. -/
inductive Failure.InLexeme : Failure → Prop where
  | refused {c : Cause} {p : Position} : c.layer = .lexical → InLexeme (.refused ⟨c, p⟩)
  | invalidUtf8 (inside : Kind) (fault : Utf8.Fault) (p : Position) :
      InLexeme (.refused ⟨.invalidUtf8 inside fault, p⟩)
  | numberTooLong : InLexeme (.numberTooLong Lexer.maxDigits)

/-- A failure of the input itself. -/
def Failure.Unreadable (e : Failure) : Prop := ∃ reason p, e = .refused ⟨.unreadable reason, p⟩

theorem Failure.InLexeme.not_unreadable {e : Failure} (h : e.InLexeme) : ¬ e.Unreadable := by
  rintro ⟨reason, p, rfl⟩
  cases h with
  | refused h => cases h

/-- How many bytes the lexer asks to see where the bytes `w` have been shown. -/
inductive Asks : List UInt8 → Nat → Prop where
  | one {w : List UInt8} : Asks w 1
  | slash : Asks [Byte.slash] 2
  | star : Asks [Byte.star] 2

open ByteInput Scan Coupling

/-- A coupling of two inputs, counted by the bytes that have been shown. An input is lost only if it
cannot be read. -/
structure InputCoupling (σ τ : Type) [ByteInput σ] [ByteInput τ] extends
    Coupling Failure.InLexeme (List UInt8) σ τ where
  lost : ∀ {e : Failure} {s : σ}, Lost e s → e.Unreadable
  shorten : ∀ {v w : List UInt8} {s : σ} {t : τ}, v <+: w → Rel w s t → Rel v s t
  place : ∀ {w : List UInt8} {s : σ} {t : τ}, Rel w s t → position s = position t
  ahead : ∀ {n : Nat} {w : List UInt8}, Asks w n →
    toCoupling.Couples w (ByteInput.ahead n) (ByteInput.ahead n) id
  skip : ∀ {b : UInt8} {w : List UInt8} {s : σ} {t : τ}, Rel (b :: w) s t →
    Rel w (ByteInput.skip s) (ByteInput.skip t)
  gone_skip : ∀ {t : τ}, Gone t → Gone (ByteInput.skip t)

namespace InputCoupling

variable {σ τ α : Type} [ByteInput σ] [ByteInput τ] (C : InputCoupling σ τ) {w : List UInt8}

/-- `m` couples with `m'` where the bytes `w` have been shown; what it has shown itself is left open. -/
def CouplesFrom (w : List UInt8) (m : Scan σ α) (m' : Scan τ α) : Prop :=
  C.Couples w m m' fun _ => []

theorem couples_pure (a : α) : C.CouplesFrom w (pure a) (pure a) :=
  Coupling.couples_pure a fun _ _ h => C.shorten List.nil_prefix h

theorem couples_refuse {c : Cause} {p : Position} (h : (Failure.refused ⟨c, p⟩).InLexeme) :
    C.CouplesFrom w (refuse c p : Scan σ α) (refuse c p) :=
  Coupling.couples_refuse h

theorem couples_place : C.Couples w Scan.place Scan.place fun _ => w := by
  refine ⟨?_, fun t hg => hg⟩
  intro s t h
  unfold Scan.place
  rw [C.place h]
  exact .ok h

theorem couples_peek : C.Couples w peek peek Option.toList := by
  refine couples_bind (C.ahead .one) fun bs => Coupling.couples_pure _ ?_
  intro s t h
  cases bs with
  | nil => exact h
  | cons b bs => exact C.shorten (by simp) h

theorem couples_advance {b : UInt8} : C.Couples (b :: w) advance advance fun _ => w :=
  ⟨fun _ _ h => .ok (C.skip h), fun _ hg => C.gone_skip hg⟩

theorem couples_takeIf (q : UInt8 → Bool) : C.CouplesFrom w (takeIf q) (takeIf q) := by
  refine couples_bind C.couples_peek fun o => ?_
  cases o with
  | none => exact C.couples_pure none
  | some b =>
    exact couples_ite (fun _ => couples_bind C.couples_advance fun _ => C.couples_pure _)
      (fun _ => C.couples_pure _)

theorem couples_many {step : Scan σ (Option α)} {step' : Scan τ (Option α)} (h : Progresses step)
    (h' : Progresses step') (hs : C.CouplesFrom [] step step') :
    C.CouplesFrom w (many step h) (many step' h') :=
  (Coupling.couples_many h h' hs).weaken (fun _ _ => C.shorten List.nil_prefix) fun _ _ _ hr => hr

theorem couples_takeWhile (q : UInt8 → Bool) : C.CouplesFrom w (takeWhile q) (takeWhile q) :=
  C.couples_many _ _ (C.couples_takeIf q)

open Lexer

theorem couples_decode (inside : Kind) (start : Position) (bs : List UInt8) :
    C.CouplesFrom w (decode inside start bs) (decode inside start bs) := by
  unfold decode
  split
  · exact C.couples_pure _
  · exact C.couples_refuse (.invalidUtf8 ..)

theorem couples_segment : C.CouplesFrom w segment segment := by
  refine couples_bind C.couples_peek fun o => ?_
  cases o with
  | none => exact C.couples_pure none
  | some b =>
    refine couples_ite (fun _ => ?_) fun _ => C.couples_pure _
    refine couples_bind C.couples_place fun dot => couples_bind C.couples_advance fun _ =>
      couples_bind C.couples_peek fun o => ?_
    cases o with
    | none => exact C.couples_refuse (.refused rfl)
    | some c =>
      exact couples_ite
        (fun _ => couples_bind (C.couples_takeWhile _) fun _ => C.couples_pure _)
        (fun _ => C.couples_refuse (.refused rfl))

theorem couples_stringByte (q : UInt8) (start : Position) :
    C.CouplesFrom w (stringByte q start) (stringByte q start) := by
  refine couples_bind (C.couples_takeIf _) fun o => ?_
  cases o with
  | none => exact C.couples_refuse (.refused rfl)
  | some b =>
    refine couples_ite (fun _ => C.couples_pure _) fun _ =>
      couples_ite (fun _ => couples_bind (C.couples_takeIf _) fun o => ?_) fun _ => C.couples_pure _
    cases o with
    | none => exact C.couples_refuse (.refused rfl)
    | some c => exact C.couples_pure _

theorem couples_blockByte (start : Position) :
    C.CouplesFrom w (blockByte start) (blockByte start) := by
  refine couples_bind C.couples_peek fun o => ?_
  cases o with
  | none => exact C.couples_refuse (.refused rfl)
  | some b =>
    refine couples_ite ?_ fun _ => C.couples_takeIf _
    rintro rfl
    refine couples_bind (C.ahead .star) fun two => couples_ite ?_ fun _ => C.couples_takeIf _
    rintro rfl
    exact couples_bind C.couples_advance fun _ => couples_bind C.couples_advance fun _ =>
      C.couples_pure _

theorem couples_word (b : UInt8) : C.CouplesFrom w (word b) (word b) :=
  couples_bind (C.couples_takeWhile _) fun _ =>
    couples_bind (C.couples_many _ _ C.couples_segment) fun _ => C.couples_pure _

theorem couples_string (q : UInt8) (start : Position) :
    C.CouplesFrom w (string q start) (string q start) :=
  couples_bind (C.couples_many _ _ (C.couples_stringByte q start)) fun _ =>
    couples_bind (C.couples_decode _ _ _) fun _ => C.couples_pure _

theorem couples_number (b : UInt8) (start : Position) :
    C.CouplesFrom w (number b start) (number b start) :=
  couples_bind (C.couples_takeWhile _) fun _ =>
    couples_ite (fun _ => C.couples_refuse (.refused rfl)) fun _ =>
      couples_ite (fun _ => couples_throw .numberTooLong) fun _ => C.couples_pure _

theorem couples_lineComment (start : Position) :
    C.CouplesFrom w (lineComment start) (lineComment start) :=
  couples_bind (C.couples_takeWhile _) fun _ => couples_bind (C.couples_takeIf _) fun _ =>
    couples_bind (C.couples_decode _ _ _) fun _ => C.couples_pure _

theorem couples_blockComment (start : Position) :
    C.CouplesFrom w (blockComment start) (blockComment start) :=
  couples_bind (C.couples_many _ _ (C.couples_blockByte start)) fun _ =>
    couples_bind (C.couples_decode _ _ _) fun _ => C.couples_pure _

theorem couples_comment (start : Position) :
    C.CouplesFrom [Byte.slash] (comment start) (comment start) := by
  refine couples_bind (C.ahead .slash) fun two => couples_ite ?_ fun _ => couples_ite ?_ fun _ =>
    C.couples_refuse (.refused rfl)
  · rintro rfl
    exact couples_bind C.couples_advance fun _ => couples_bind C.couples_advance fun _ =>
      C.couples_lineComment start
  · rintro rfl
    exact couples_bind C.couples_advance fun _ => couples_bind C.couples_advance fun _ =>
      C.couples_blockComment start

theorem couples_lexeme (b : UInt8) (start : Position) :
    C.CouplesFrom [b] (lexeme b start) (lexeme b start) := by
  refine couples_ite (fun _ => couples_bind C.couples_advance fun _ => C.couples_word b) fun _ =>
    couples_ite (fun _ => couples_bind C.couples_advance fun _ => C.couples_string b start) fun _ =>
    couples_ite (fun _ => couples_bind C.couples_advance fun _ => C.couples_number b start)
      fun _ => ?_
  cases Punct.ofByte? b with
  | some p => exact couples_bind C.couples_advance fun _ => C.couples_pure _
  | none =>
    refine couples_ite ?_ fun _ => C.couples_refuse (.refused rfl)
    rintro rfl
    exact C.couples_comment start

/-- Tokens are read alike from both inputs. -/
theorem couples_next : C.CouplesFrom [] next next := by
  refine couples_bind (C.couples_takeWhile _) fun _ => couples_bind C.couples_place fun start =>
    couples_bind C.couples_peek fun o => ?_
  cases o with
  | none => exact C.couples_pure none
  | some b => exact couples_bind (C.couples_lexeme b start) fun l => C.couples_pure _

end InputCoupling
end ProtoSchema
