import ProtoSchema.Document.Parser.Basic
import ProtoSchema.Proofs.Input

/-!
# ProtoSchema.Proofs.Syntactic.Recognizer

Productions as recognizers of token languages. `Reads s ts s'` says that the source `s` hands out
the tokens `ts` and is then in the state `s'`. A production recognizes a language if its runs are
exactly the readings of words of the language (`Recognizes`), or exactly the readings of such words
up to the end of the input (`Finishes`); both speak about sources with fewer than `n` tokens left,
so that budgets can run along.

There is one rule for each way in which productions are put together.
-/

namespace ProtoSchema

/-- A source of tokens that has fewer tokens left after each token. -/
class LawfulTokenSource (σ : Type) [TokenSource σ] : Prop where
  left_lt : ∀ {s s' : σ} {t : Token}, TokenSource.next s = .ok (some t) s' →
    TokenSource.left s' < TokenSource.left s

instance {σ : Type} [ByteInput σ] : LawfulTokenSource σ where
  left_lt h := Scan.Progresses.first Lexer.progresses_next h

namespace Syntactic

open Scan ProtoSchema.Parser

variable {σ α β : Type} [TokenSource σ]

/-- The source hands out tokens one after another. -/
inductive Reads : σ → List Token → σ → Prop where
  | nil {s : σ} : Reads s [] s
  | cons {s s₁ s' : σ} {t : Token} {ts : List Token} :
      token? s = .ok (some t) s₁ → Reads s₁ ts s' → Reads s (t :: ts) s'

theorem Reads.append {s s₁ s' : σ} {us vs : List Token} (h : Reads s us s₁) (h' : Reads s₁ vs s') :
    Reads s (us ++ vs) s' := by
  induction h with
  | nil => exact h'
  | cons ht _ ih => exact .cons ht (ih h')

theorem reads_append_iff {s s' : σ} {us vs : List Token} :
    Reads s (us ++ vs) s' ↔ ∃ s₁, Reads s us s₁ ∧ Reads s₁ vs s' := by
  constructor
  · intro h
    induction us generalizing s with
    | nil => exact ⟨s, .nil, h⟩
    | cons u us ih =>
      cases h with
      | cons ht h =>
        obtain ⟨s₁, h₁, h₂⟩ := ih h
        exact ⟨s₁, .cons ht h₁, h₂⟩
  · rintro ⟨s₁, h₁, h₂⟩
    exact h₁.append h₂

theorem yields_append_iff {s s' : σ} {us vs : List Token} :
    Yields token? s (us ++ vs) s' ↔ ∃ s₁, Reads s us s₁ ∧ Yields token? s₁ vs s' := by
  constructor
  · intro h
    induction us generalizing s with
    | nil => exact ⟨s, .nil, h⟩
    | cons u us ih =>
      cases h with
      | more ht h =>
        obtain ⟨s₁, h₁, h₂⟩ := ih h
        exact ⟨s₁, .cons ht h₁, h₂⟩
  · rintro ⟨s₁, h₁, h₂⟩
    induction h₁ with
    | nil => exact h₂
    | cons ht _ ih => exact .more ht (ih h₂)

/-! ## Languages -/

/-- A set of words, each with a value that it has. -/
abbrev Lang (α : Type) := List Token → α → Prop

namespace Lang

@[simp] abbrev empty : Lang α := fun _ _ => False

/-- The empty word. -/
@[simp] abbrev one (a : α) : Lang α := fun ts b => ts = [] ∧ b = a

/-- A word of `G` and behind it one of the language that its value chooses. -/
@[simp] abbrev seq (G : Lang α) (K : α → Lang β) : Lang β :=
  fun ts b => ∃ a us vs, ts = us ++ vs ∧ G us a ∧ K a vs b

@[simp] abbrev map (f : α → β) (G : Lang α) : Lang β := fun ts b => ∃ a, G ts a ∧ b = f a

@[simp] abbrev cases (c : Prop) (G H : Lang α) : Lang α := fun ts a => (c ∧ G ts a) ∨ (¬ c ∧ H ts a)

/-- A token and behind it a word of the language that it chooses. -/
@[simp] abbrev token (K : Token → Lang β) : Lang β := fun ts b => ∃ t us, ts = t :: us ∧ K t us b

/-- A token that `read` understands and behind it a word of the language that its value chooses. -/
@[simp] abbrev taken (read : Token → Option α) (K : α → Lang β) : Lang β :=
  fun ts b => ∃ t us a, ts = t :: us ∧ read t = some a ∧ K a us b

end Lang

/-! ## Judgements -/

/-- The runs of `p` are the readings of the words of `G`, on sources with fewer than `n` tokens. -/
def Recognizes (n : Nat) (p : Scan σ α) (G : Lang α) : Prop :=
  ∀ s, TokenSource.left s < n → ∀ a s', p s = .ok a s' ↔ ∃ ts, Reads s ts s' ∧ G ts a

/-- The runs of `p` are the readings of the words of `G` up to the end of the input, on sources with
fewer than `n` tokens. -/
def Finishes (n : Nat) (p : Scan σ α) (G : Lang α) : Prop :=
  ∀ s, TokenSource.left s < n → ∀ a s', p s = .ok a s' ↔ ∃ ts, Yields token? s ts s' ∧ G ts a

section Rules

variable {n m : Nat} {p q : Scan σ α} {G H : Lang α}

theorem Recognizes.congr (h : Recognizes n p G) (e : ∀ ts a, G ts a ↔ H ts a) :
    Recognizes n p H := by
  intro s hs a s'
  simp only [h s hs a s', e]

theorem Finishes.congr (h : Finishes n p G) (e : ∀ ts a, G ts a ↔ H ts a) : Finishes n p H := by
  intro s hs a s'
  simp only [h s hs a s', e]

theorem Recognizes.mono (h : Recognizes m p G) (hn : n ≤ m) : Recognizes n p G :=
  fun s hs => h s (Nat.lt_of_lt_of_le hs hn)

theorem Recognizes.step (h : Recognizes (n + 1) p G) : Recognizes n p G := h.mono (Nat.le_succ n)

theorem recognizes_zero : Recognizes 0 p G := fun _ hs => absurd hs (Nat.not_lt_zero _)

theorem recognizes_pure (a : α) :
    Recognizes n (pure a : Scan σ α) (.one a) := by
  intro s _ b s'
  constructor
  · intro h
    cases h
    exact ⟨[], .nil, rfl, rfl⟩
  · rintro ⟨ts, h, rfl, rfl⟩
    cases h
    rfl

/-- What never succeeds recognizes nothing. -/
theorem recognizes_none (h : ∀ s a s', p s ≠ .ok a s') : Recognizes n p .empty := by
  intro s _ a s'
  simp [h s a s']

theorem finishes_none (h : ∀ s a s', p s ≠ .ok a s') : Finishes n p .empty := by
  intro s _ a s'
  simp [h s a s']

theorem recognizes_refuse (c : Cause) (x : Position) :
    Recognizes n (refuse c x : Scan σ α) .empty :=
  recognizes_none fun _ _ _ h => by cases h

theorem recognizes_throw (e : Failure) :
    Recognizes n (throw e : Scan σ α) .empty :=
  recognizes_none fun _ _ _ h => by cases h

theorem recognizes_adaptExcept {f : Failure → Failure} (h : Recognizes n p G) :
    Recognizes n (EStateM.adaptExcept f p) G := by
  intro s hs a s'
  rw [← h s hs a s']
  unfold EStateM.adaptExcept
  cases p s <;> simp

theorem recognizes_ite {c : Prop} [Decidable c] (h : c → Recognizes n p G)
    (h' : ¬ c → Recognizes n q H) :
    Recognizes n (if c then p else q) (.cases c G H) := by
  by_cases hc : c
  · rw [if_pos hc]
    exact (h hc).congr fun ts a => by simp [hc]
  · rw [if_neg hc]
    exact (h' hc).congr fun ts a => by simp [hc]

theorem finishes_ite {c : Prop} [Decidable c] (h : c → Finishes n p G) (h' : ¬ c → Finishes n q H) :
    Finishes n (if c then p else q) (.cases c G H) := by
  by_cases hc : c
  · rw [if_pos hc]
    exact (h hc).congr fun ts a => by simp [hc]
  · rw [if_neg hc]
    exact (h' hc).congr fun ts a => by simp [hc]

variable [LawfulTokenSource σ]

theorem Reads.left_le {s s' : σ} {ts : List Token} (h : Reads s ts s') :
    TokenSource.left s' ≤ TokenSource.left s := by
  induction h with
  | nil => exact Nat.le_refl _
  | cons ht _ ih => exact Nat.le_trans ih (Nat.le_of_lt (LawfulTokenSource.left_lt ht))

theorem recognizes_bind {f : α → Scan σ β} {K : α → Lang β} (hp : Recognizes n p G)
    (hf : ∀ a, Recognizes n (f a) (K a)) :
    Recognizes n (p >>= f) (.seq G K) := by
  intro s hs b s'
  rw [bind_eq_ok]
  constructor
  · rintro ⟨a, s₁, h₁, h₂⟩
    obtain ⟨us, hu, ha⟩ := (hp s hs a s₁).1 h₁
    obtain ⟨vs, hv, hb⟩ := (hf a s₁ (Nat.lt_of_le_of_lt hu.left_le hs) b s').1 h₂
    exact ⟨us ++ vs, hu.append hv, a, us, vs, rfl, ha, hb⟩
  · rintro ⟨_, h, a, us, vs, rfl, ha, hb⟩
    obtain ⟨s₁, hu, hv⟩ := reads_append_iff.1 h
    exact ⟨a, s₁, (hp s hs a s₁).2 ⟨us, hu, ha⟩,
      (hf a s₁ (Nat.lt_of_le_of_lt hu.left_le hs) b s').2 ⟨vs, hv, hb⟩⟩

theorem recognizes_map (f : α → β) (hp : Recognizes n p G) :
    Recognizes n (p >>= fun a => pure (f a)) (.map f G) := by
  refine (recognizes_bind hp fun a => recognizes_pure (f a)).congr fun ts b => ?_
  constructor
  · rintro ⟨a, us, vs, rfl, ha, rfl, rfl⟩
    exact ⟨a, by simpa using ha, rfl⟩
  · rintro ⟨a, ha, rfl⟩
    exact ⟨a, ts, [], by simp, ha, rfl, rfl⟩

theorem finishes_bind {f : α → Scan σ β} {K : α → Lang β} (hp : Recognizes n p G)
    (hf : ∀ a, Finishes n (f a) (K a)) :
    Finishes n (p >>= f) (.seq G K) := by
  intro s hs b s'
  rw [bind_eq_ok]
  constructor
  · rintro ⟨a, s₁, h₁, h₂⟩
    obtain ⟨us, hu, ha⟩ := (hp s hs a s₁).1 h₁
    obtain ⟨vs, hv, hb⟩ := (hf a s₁ (Nat.lt_of_le_of_lt hu.left_le hs) b s').1 h₂
    exact ⟨us ++ vs, yields_append_iff.2 ⟨s₁, hu, hv⟩, a, us, vs, rfl, ha, hb⟩
  · rintro ⟨_, h, a, us, vs, rfl, ha, hb⟩
    obtain ⟨s₁, hu, hv⟩ := yields_append_iff.1 h
    exact ⟨a, s₁, (hp s hs a s₁).2 ⟨us, hu, ha⟩,
      (hf a s₁ (Nat.lt_of_le_of_lt hu.left_le hs) b s').2 ⟨vs, hv, hb⟩⟩

omit [LawfulTokenSource σ] in
theorem finishes_map (f : α → β) (hp : Finishes n p G) :
    Finishes n (p >>= fun a => pure (f a)) (.map f G) := by
  intro s hs b s'
  rw [bind_eq_ok]
  constructor
  · rintro ⟨a, s₁, h₁, h₂⟩
    cases h₂
    obtain ⟨ts, ht, ha⟩ := (hp s hs a s').1 h₁
    exact ⟨ts, ht, a, ha, rfl⟩
  · rintro ⟨ts, ht, a, ha, rfl⟩
    exact ⟨a, s', (hp s hs a s').2 ⟨ts, ht, ha⟩, rfl⟩

/-! ## Single tokens -/

theorem recognizes_require_bind {what : Demand} {f : Token → Scan σ β}
    {K : Token → Lang β} (hf : ∀ t, Recognizes n (f t) (K t)) :
    Recognizes (n + 1) (require what >>= f) (.token K) := by
  intro s hs b s'
  rw [bind_eq_ok]
  have hreq {t : Token} {s₁ : σ} : require what s = .ok t s₁ ↔ token? s = .ok (some t) s₁ := by
    unfold require
    rw [bind_eq_ok]
    constructor
    · rintro ⟨o, s₂, h₁, h₂⟩
      cases o with
      | none => cases h₂
      | some u => cases h₂; exact h₁
    · intro h
      exact ⟨some t, s₁, h, rfl⟩
  constructor
  · rintro ⟨t, s₁, h₁, h₂⟩
    have ht := hreq.1 h₁
    have hlt := LawfulTokenSource.left_lt ht
    obtain ⟨us, hu, hb⟩ := (hf t s₁ (by omega) b s').1 h₂
    exact ⟨t :: us, .cons ht hu, t, us, rfl, hb⟩
  · rintro ⟨_, h, t, us, rfl, hb⟩
    cases h with
    | cons ht hu =>
      have hlt := LawfulTokenSource.left_lt ht
      exact ⟨t, _, hreq.2 ht, (hf t _ (by omega) b s').2 ⟨us, hu, hb⟩⟩

omit [LawfulTokenSource σ] in
theorem recognizes_taken_bind {what : Demand} {read : Token → Option α} {f : α → Scan σ β}
    {K : α → Lang β} (hf : ∀ a, Recognizes n (f a) (K a)) (t : Token) :
    Recognizes n
      ((match read t with | some a => pure a | none => refuseToken what t) >>= f)
      fun us b => ∃ a, read t = some a ∧ K a us b := by
  cases read t with
  | some a => exact (hf a).congr fun us b => by simp
  | none => exact (recognizes_none fun s b s' h => by cases h).congr fun us b => by simp

omit [LawfulTokenSource σ] in
theorem accept_bind_eq {what : Demand} {read : Token → Option α} {f : α → Scan σ β} :
    accept what read >>= f = require what >>= fun t =>
      (match read t with | some a => pure a | none => refuseToken what t) >>= f :=
  bind_assoc _ _ _

theorem recognizes_accept_bind {what : Demand} {read : Token → Option α} {f : α → Scan σ β}
    {K : α → Lang β} (hf : ∀ a, Recognizes n (f a) (K a)) :
    Recognizes (n + 1) (accept what read >>= f) (.taken read K) := by
  rw [accept_bind_eq]
  refine (recognizes_require_bind (recognizes_taken_bind hf)).congr fun ts b => ?_
  constructor
  · rintro ⟨t, us, rfl, a, ha, hb⟩
    exact ⟨t, us, a, rfl, ha, hb⟩
  · rintro ⟨t, us, a, rfl, ha, hb⟩
    exact ⟨t, us, rfl, a, ha, hb⟩

theorem finishes_token {f : Token → Scan σ β} {K : Token → Lang β} (b₀ : β)
    (hf : ∀ t, Finishes n (f t) (K t)) :
    Finishes (n + 1) (token? >>= fun o => match o with | none => pure b₀ | some t => f t)
      fun ts b => (ts = [] ∧ b = b₀) ∨ ∃ t us, ts = t :: us ∧ K t us b := by
  intro s hs b s'
  rw [bind_eq_ok]
  constructor
  · rintro ⟨o, s₁, h₁, h₂⟩
    cases o with
    | none =>
      cases h₂
      exact ⟨[], .stop h₁, .inl ⟨rfl, rfl⟩⟩
    | some t =>
      have hlt := LawfulTokenSource.left_lt h₁
      obtain ⟨us, hu, hb⟩ := (hf t s₁ (by omega) b s').1 h₂
      exact ⟨t :: us, .more h₁ hu, .inr ⟨t, us, rfl, hb⟩⟩
  · rintro ⟨ts, h, ⟨rfl, rfl⟩ | ⟨t, us, rfl, hb⟩⟩
    · cases h with
      | stop ht => exact ⟨none, s', ht, rfl⟩
    · cases h with
      | more ht hu =>
        have hlt := LawfulTokenSource.left_lt ht
        exact ⟨some t, _, ht, (hf t _ (by omega) b s').2 ⟨us, hu, hb⟩⟩

omit [LawfulTokenSource σ] in
/-- A production with enough budget for all sources has enough for the one that it runs on. -/
theorem finishes_budgeted {p : Nat → Scan σ α} (hp : ∀ m, Finishes m (p m) G) :
    Finishes n (budgeted p) G :=
  fun s _ => hp (TokenSource.left s + 1) s (Nat.lt_succ_self _)

end Rules

end Syntactic
end ProtoSchema
