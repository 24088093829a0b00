import ProtoSchema.Error

/-!
# ProtoSchema.Input.Basic

Bytes that are read one after another. A `ByteInput` shows the next few bytes without taking them
and takes one byte at a time; it may fail when it has to fetch a byte. Reading is a `Scan`, a
computation on the state of the input that keeps that state when it fails, so that it can go on
from where it stopped.

Loops take a step and a proof that the step uses up a byte whenever it yields a value
(`Progresses`), and end because an input is finite.
-/

namespace ProtoSchema

/-- A computation that reads from an input with state `σ`. -/
abbrev Scan (σ α : Type) := EStateM Failure σ α

/-- Bytes that are read one after another. `left` bounds how many are left; showing bytes does not
raise it, and taking one that has been shown lowers it. -/
class ByteInput (σ : Type) where
  /-- The next `n` bytes, or as many as there are. -/
  ahead : Nat → Scan σ (List UInt8)
  /-- Takes the next byte, if it has been shown. -/
  skip : σ → σ
  /-- The place of the next byte. -/
  position : σ → Position
  left : σ → Nat
  left_ahead : ∀ {n s bs s'}, ahead n s = .ok bs s' → left s' ≤ left s
  left_skip_le : ∀ s, left (skip s) ≤ left s
  left_skip : ∀ {n s b bs s'}, ahead n s = .ok (b :: bs) s' → left (skip s') < left s

namespace Scan

open ByteInput

variable {σ α β : Type}

/-- Stops with a cause at a place. -/
def refuse (cause : Cause) (p : Position) : Scan σ α := throw (.refused ⟨cause, p⟩)

/-- A sequence succeeds by succeeding in both parts. -/
theorem bind_eq_ok {m : Scan σ α} {f : α → Scan σ β} {s s' : σ} {b : β} :
    (m >>= f) s = .ok b s' ↔ ∃ a s₁, m s = .ok a s₁ ∧ f a s₁ = .ok b s' := by
  show (EStateM.bind m f) s = _ ↔ _
  unfold EStateM.bind
  cases hm : m s with
  | ok a s₁ =>
    constructor
    · intro h
      exact ⟨a, s₁, rfl, h⟩
    · rintro ⟨a', s₁', h, h'⟩
      cases h
      exact h'
  | error e s₁ =>
    constructor
    · intro h
      cases h
    · rintro ⟨a', s₁', h, _⟩
      cases h

variable [ByteInput σ]

def place : Scan σ Position := fun s => .ok (position s) s

/-- The next byte, left in place; nothing at the end. -/
def peek : Scan σ (Option UInt8) := do
  let bs ← ahead 1
  pure bs.head?

/-- Takes the byte that has been shown. -/
def advance : Scan σ Unit := modify skip

/-- Takes the next byte if there is one and it satisfies `p`. -/
def takeIf (p : UInt8 → Bool) : Scan σ (Option UInt8) := do
  match ← peek with
  | some b =>
    if p b then
      advance
      pure (some b)
    else pure none
  | none => pure none

/-- Takes the next byte; nothing at the end. -/
def take : Scan σ (Option UInt8) := takeIf fun _ => true

/-- Whether all bytes have been taken. -/
def atEnd : Scan σ Bool := do
  let b ← peek
  pure b.isNone

/-- A step that never gives bytes back. -/
def NonGrowing (m : Scan σ α) : Prop := ∀ ⦃s a s'⦄, m s = .ok a s' → left s' ≤ left s

/-- A step that has used up a byte whenever it yields a value. -/
def Progresses (m : Scan σ (Option α)) : Prop :=
  ∀ ⦃s a s'⦄, m s = .ok (some a) s' → left s' < left s

/-- What a loop has done: the values its step has yielded, the failure that stopped it if one did,
and the state it stopped in. -/
structure Run (σ α : Type) where
  items : List α
  failure : Option Failure
  final : σ

/-- Repeats a step until it yields nothing or fails. -/
def run (step : Scan σ (Option α)) (h : Progresses step) (s : σ) : Run σ α :=
  match _hs : step s with
  | .error e s' => ⟨[], some e, s'⟩
  | .ok none s' => ⟨[], none, s'⟩
  | .ok (some a) s' =>
    let r := run step h s'
    ⟨a :: r.items, r.failure, r.final⟩
termination_by left s
decreasing_by exact h _hs

/-- The values that a step yields until it yields nothing. -/
def many (step : Scan σ (Option α)) (h : Progresses step) : Scan σ (List α) := fun s =>
  match run step h s with
  | ⟨as, none, s'⟩ => .ok as s'
  | ⟨_, some e, s'⟩ => .error e s'

/-- The first value of a repeated step that satisfies `p`. -/
def first (p : α → Bool) (step : Scan σ (Option α)) (h : Progresses step) :
    Scan σ (Option α) := fun s =>
  match _hs : step s with
  | .error e s' => .error e s'
  | .ok none s' => .ok none s'
  | .ok (some a) s' => if p a then .ok (some a) s' else first p step h s'
termination_by s => left s
decreasing_by exact h _hs

/-! ## Steps that give nothing back -/

theorem Progresses.nonGrowing_of_none {m : Scan σ (Option α)} (h : Progresses m)
    (hn : ∀ ⦃s s'⦄, m s = .ok none s' → left s' ≤ left s) : NonGrowing m := by
  intro s a s' e
  cases a with
  | none => exact hn e
  | some a => exact Nat.le_of_lt (h e)

theorem NonGrowing.pure (a : α) : NonGrowing (Pure.pure a : Scan σ α) := by
  intro s b s' h
  cases h
  exact Nat.le_refl _

theorem NonGrowing.throw (e : Failure) : NonGrowing (throw e : Scan σ α) := by
  intro s b s' h
  cases h

theorem NonGrowing.refuse (c : Cause) (p : Position) : NonGrowing (refuse c p : Scan σ α) :=
  .throw _

theorem NonGrowing.bind {m : Scan σ α} {f : α → Scan σ β} (hm : NonGrowing m)
    (hf : ∀ a, NonGrowing (f a)) : NonGrowing (m >>= f) := by
  intro s b s' h
  obtain ⟨a, s₁, h₁, h₂⟩ := bind_eq_ok.1 h
  exact Nat.le_trans (hf a h₂) (hm h₁)

theorem nonGrowing_ahead (n : Nat) : NonGrowing (ahead n : Scan σ (List UInt8)) :=
  fun _ _ _ h => left_ahead h

theorem nonGrowing_peek : NonGrowing (peek : Scan σ (Option UInt8)) :=
  .bind (nonGrowing_ahead 1) fun _ => .pure _

theorem nonGrowing_advance : NonGrowing (advance : Scan σ Unit) := by
  intro s a s' h
  cases h
  exact left_skip_le s

/-- Taking a byte that has been shown uses it up. -/
theorem left_lt_of_peek {s s' : σ} {b : UInt8} (h : peek s = .ok (some b) s') :
    left (skip s') < left s := by
  obtain ⟨bs, s₁, h₁, h₂⟩ := bind_eq_ok.1 h
  cases bs with
  | nil => cases h₂
  | cons c bs =>
    cases h₂
    exact left_skip h₁

theorem progresses_takeIf (p : UInt8 → Bool) : Progresses (takeIf p : Scan σ (Option UInt8)) := by
  intro s b s' h
  obtain ⟨o, s₁, h₁, h₂⟩ := bind_eq_ok.1 h
  cases o with
  | none => cases h₂
  | some c =>
    simp only at h₂
    split at h₂
    · obtain ⟨_, s₂, h₃, h₄⟩ := bind_eq_ok.1 h₂
      cases h₃
      cases h₄
      exact left_lt_of_peek h₁
    · cases h₂

theorem nonGrowing_takeIf (p : UInt8 → Bool) : NonGrowing (takeIf p : Scan σ (Option UInt8)) := by
  refine .bind nonGrowing_peek fun o => ?_
  cases o with
  | none => exact .pure _
  | some b =>
    simp only
    split
    · exact .bind nonGrowing_advance fun _ => .pure _
    · exact .pure _

theorem left_run_le {step : Scan σ (Option α)} (h : Progresses step) (hn : NonGrowing step)
    (s : σ) : (run step h s).failure = none → left (run step h s).final ≤ left s := by
  fun_induction run step h s with
  | case1 => simp
  | case2 s s' hs => intro _; exact hn hs
  | case3 s a s' hs r ih => intro hf; exact Nat.le_trans (ih hf) (hn hs)

theorem NonGrowing.many {step : Scan σ (Option α)} (h : Progresses step) (hn : NonGrowing step) :
    NonGrowing (many step h) := by
  intro s as s' e
  unfold Scan.many at e
  split at e
  · next hr =>
    cases e
    have := left_run_le h hn s
    rw [hr] at this
    exact this rfl
  · cases e

theorem Progresses.first {p : α → Bool} {step : Scan σ (Option α)} (h : Progresses step) :
    Progresses (first p step h) := by
  intro s a s' e
  fun_induction Scan.first p step h s with
  | case1 => cases e
  | case2 => cases e
  | case3 s b s₁ hs hp => cases e; exact h hs
  | case4 s b s₁ hs hp ih => exact Nat.lt_trans (ih e) (h hs)

/-- The longest run of bytes that satisfy `p`. -/
def takeWhile (p : UInt8 → Bool) : Scan σ (List UInt8) := many (takeIf p) (progresses_takeIf p)

theorem nonGrowing_takeWhile (p : UInt8 → Bool) :
    NonGrowing (takeWhile p : Scan σ (List UInt8)) :=
  .many _ (nonGrowing_takeIf p)

end Scan
end ProtoSchema
