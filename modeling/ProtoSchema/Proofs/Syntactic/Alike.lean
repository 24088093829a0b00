import ProtoSchema.Proofs.Document.Alike
import ProtoSchema.Proofs.Syntactic.FirstError

/-!
# ProtoSchema.Proofs.Syntactic.Alike

The parser on two inputs that hold the same lexemes. Inputs are `Abreast` if they hand out the same
lexemes, comments apart, and end alike; the places of the tokens are related by any relation `R`. From
such inputs the parser reads values that are the same but for places, or fails alike
(`agrees_document`): no production looks at a place or at a comment.

`Agrees` is the judgement for scans that need not end where tokens can be read on, `AgreesWithin` the
one for productions. As a production may have a budget, inputs carry one bound each on what is left.
-/

namespace ProtoSchema
namespace Syntactic

open Scan ProtoSchema.Parser

variable {σ τ α β γ δ : Type}

/-- How two runs end: with values that `V` relates, or alike. -/
inductive EndsAlike (R : Position → Position → Prop) (V : α → β → Prop) (Post : σ → τ → Prop) :
    EStateM.Result Failure σ α → EStateM.Result Failure τ β → Prop where
  | ok {a : α} {b : β} {s : σ} {t : τ} : V a b → Post s t → EndsAlike R V Post (.ok a s) (.ok b t)
  | error {e e' : Failure} {s : σ} {t : τ} :
      e.Alike R e' → EndsAlike R V Post (.error e s) (.error e' t)

/-- From states that `Pre` relates, the scans end with values that `V` relates, in states that `Post`
relates, or fail alike. -/
def Agrees (R : Position → Position → Prop) (Pre Post : σ → τ → Prop) (V : α → β → Prop)
    (p : Scan σ α) (p' : Scan τ β) : Prop :=
  ∀ s t, Pre s t → EndsAlike R V Post (p s) (p' t)

section Rules

variable {R : Position → Position → Prop} {Pre M Post : σ → τ → Prop} {U : γ → δ → Prop}
  {V : α → β → Prop} {p : Scan σ α} {p' : Scan τ β}

theorem agrees_pure {a : α} {b : β} (h : V a b) (hp : ∀ s t, Pre s t → Post s t) :
    Agrees R Pre Post V (pure a) (pure b) :=
  fun s t hr => .ok h (hp s t hr)

theorem agrees_throw {e e' : Failure} (h : e.Alike R e') : Agrees R Pre Post V (throw e) (throw e') :=
  fun _ _ _ => .error h

theorem agrees_refuse {c c' : Cause} {x y : Position} (hl : c.layer = c'.layer)
    (hm : c.message = c'.message) (hr : R x y) : Agrees R Pre Post V (refuse c x) (refuse c' y) :=
  agrees_throw (.refused hl hm hr)

theorem agrees_refuseToken {what : Demand} {a b : Token} (h : a.Alike R b) :
    Agrees R Pre Post V (refuseToken what a) (refuseToken what b) := by
  have hm : (Cause.expected what (.token a)).message = (Cause.expected what (.token b)).message :=
    congrArg (fun s => "expected " ++ what.message ++ ", got " ++ s) h.describe
  exact agrees_refuse rfl hm h.position

theorem agrees_unexpected {context : String} {a b : Token} (h : a.Alike R b) :
    Agrees R Pre Post V (throw (.refused (unexpected a context)))
      (throw (.refused (unexpected b context))) := by
  have hm : (Cause.unexpectedToken a context).message = (Cause.unexpectedToken b context).message :=
    congrArg (fun s => "unexpected token " ++ s ++ (if context.isEmpty then "" else " " ++ context))
      h.describe
  exact agrees_refuse rfl hm h.position

theorem Agrees.bind {m : Scan σ γ} {m' : Scan τ δ} {f : γ → Scan σ α} {f' : δ → Scan τ β}
    (h : Agrees R Pre M U m m') (hf : ∀ a b, U a b → Agrees R M Post V (f a) (f' b)) :
    Agrees R Pre Post V (m >>= f) (m' >>= f') := by
  intro s t hr
  have hm := h s t hr
  generalize hl : m s = r at hm
  generalize hl' : m' t = r' at hm
  cases hm with
  | ok hu hp =>
    rw [bind_ok hl, bind_ok hl']
    exact hf _ _ hu _ _ hp
  | error he =>
    rw [bind_error hl, bind_error hl']
    exact .error he

theorem Agrees.weaken {Pre' Post' : σ → τ → Prop} (h : Agrees R Pre Post V p p')
    (hpre : ∀ s t, Pre' s t → Pre s t) (hpost : ∀ s t, Post s t → Post' s t) :
    Agrees R Pre' Post' V p p' := by
  intro s t hr
  have hm := h s t (hpre s t hr)
  generalize p s = r at hm ⊢
  generalize p' t = r' at hm ⊢
  cases hm with
  | ok hv hp => exact .ok hv (hpost _ _ hp)
  | error he => exact .error he

/-- Conditions on what is alike come out alike. -/
theorem agrees_ite {c c' : Prop} [Decidable c] [Decidable c'] {q : Scan σ α} {q' : Scan τ β}
    (hc : c ↔ c') (h : c → Agrees R Pre Post V p p') (h' : ¬ c → Agrees R Pre Post V q q') :
    Agrees R Pre Post V (if c then p else q) (if c' then p' else q') := by
  by_cases hcase : c
  · rw [if_pos hcase, if_pos (hc.1 hcase)]
    exact h hcase
  · rw [if_neg hcase, if_neg (mt hc.2 hcase)]
    exact h' hcase

theorem Agrees.inField (h : Agrees R Pre Post V p p') :
    Agrees R Pre Post V (EStateM.adaptExcept Failure.inField p)
      (EStateM.adaptExcept Failure.inField p') := by
  intro s t hr
  have hm := h s t hr
  unfold EStateM.adaptExcept
  generalize p s = r at hm ⊢
  generalize p' t = r' at hm ⊢
  cases hm with
  | ok hv hp => exact .ok hv hp
  | error he => exact .error he.inField

end Rules

/-! ## Inputs with the same lexemes -/

section Inputs

variable [ByteInput σ] [ByteInput τ] {R : Position → Position → Prop} {s : σ} {t : τ}

/-- Inputs that hand out the same lexemes, comments apart, and then end alike. -/
structure Abreast (R : Position → Position → Prop) (s : σ) (t : τ) : Prop where
  tokens : List.Forall₂ (Token.Alike R) (plainTokens s) (plainTokens t)
  failure : Option.Rel (Failure.Alike R) (Lexer.tokens s).failure (Lexer.tokens t).failure
  final : (Lexer.tokens s).failure = none →
    R (ByteInput.position (Lexer.tokens s).final) (ByteInput.position (Lexer.tokens t).final)

/-- What the next token of such inputs is. -/
inductive NextAlike (R : Position → Position → Prop) :
    EStateM.Result Failure σ (Option Token) → EStateM.Result Failure τ (Option Token) → Prop where
  | token {a b : Token} {s : σ} {t : τ} :
      a.Alike R b → Abreast R s t → NextAlike R (.ok (some a) s) (.ok (some b) t)
  | ending {s : σ} {t : τ} :
      R (ByteInput.position s) (ByteInput.position t) → NextAlike R (.ok none s) (.ok none t)
  | failure {e e' : Failure} {s : σ} {t : τ} :
      e.Alike R e' → NextAlike R (.error e s) (.error e' t)

/-- Behind a token the input goes on with the other tokens, and ends as it does. -/
theorem tokens_of_some {s s₁ : σ} {t : Token} (h : token? s = .ok (some t) s₁) :
    plainTokens s = t :: plainTokens s₁ ∧ (Lexer.tokens s).failure = (Lexer.tokens s₁).failure ∧
      (Lexer.tokens s).final = (Lexer.tokens s₁).final := by
  have hr := (run_token s).symm.trans (run_token_of_reads (.cons h .nil))
  simpa using hr

theorem Abreast.next (h : Abreast R s t) :
    NextAlike R (token? s : EStateM.Result Failure σ (Option Token)) (token? t) := by
  obtain ⟨hts, hf, hp⟩ := h
  generalize hs : (token? s : EStateM.Result Failure σ (Option Token)) = r
  generalize ht : (token? t : EStateM.Result Failure τ (Option Token)) = r'
  -- the tokens and the failures leave the three cases where both inputs do the same
  rcases r with ⟨_ | a, s'⟩ | ⟨e, s'⟩
  · obtain ⟨hs₁, hs₂, hs₃⟩ := tokens_of_none .nil hs
    rw [hs₁] at hts
    rw [hs₂] at hf hp
    rcases r' with ⟨_ | b, t'⟩ | ⟨e', t'⟩
    · rw [hs₃, (tokens_of_none .nil ht).2.2] at hp
      exact .ending (hp rfl)
    · rw [(tokens_of_some ht).1] at hts
      cases hts
    · rw [(tokens_of_error .nil ht).2] at hf
      cases hf
  · obtain ⟨hs₁, hs₂, hs₃⟩ := tokens_of_some hs
    rw [hs₁] at hts
    rw [hs₂] at hf hp
    rcases r' with ⟨_ | b, t'⟩ | ⟨e', t'⟩
    · rw [(tokens_of_none .nil ht).1] at hts
      cases hts
    · obtain ⟨ht₁, ht₂, ht₃⟩ := tokens_of_some ht
      rw [ht₁] at hts
      rw [ht₂] at hf
      rw [hs₃, ht₃] at hp
      obtain ⟨hab, hts⟩ := List.forall₂_cons.1 hts
      exact .token hab ⟨hts, hf, hp⟩
    · rw [(tokens_of_error .nil ht).1] at hts
      cases hts
  · obtain ⟨hs₁, hs₂⟩ := tokens_of_error .nil hs
    rw [hs₁] at hts
    rw [hs₂] at hf
    rcases r' with ⟨_ | b, t'⟩ | ⟨e', t'⟩
    · rw [(tokens_of_none .nil ht).2.1] at hf
      cases hf
    · rw [(tokens_of_some ht).1] at hts
      cases hts
    · rw [(tokens_of_error .nil ht).2] at hf
      cases hf with
      | some he => exact .failure he

/-- Such inputs, with fewer bytes left than their bounds. -/
structure Within (R : Position → Position → Prop) (i : Nat × Nat) (s : σ) (t : τ) : Prop where
  abreast : Abreast R s t
  left : TokenSource.left s < i.1
  left' : TokenSource.left t < i.2

/-- A production and another leave inputs abreast that have been so. -/
abbrev AgreesWithin (R : Position → Position → Prop) (i : Nat × Nat) (V : α → β → Prop)
    (p : Scan σ α) (p' : Scan τ β) : Prop :=
  Agrees R (Within R i) (Within R i) V p p'

variable {i : Nat × Nat} {n m : Nat} {V : α → β → Prop} {W : γ → δ → Prop}

theorem Within.mono {j : Nat × Nat} (h : Within R i s t) (h₁ : i.1 ≤ j.1) (h₂ : i.2 ≤ j.2) :
    Within R j s t :=
  ⟨h.abreast, Nat.lt_of_lt_of_le h.left h₁, Nat.lt_of_lt_of_le h.left' h₂⟩

theorem AgreesWithin.succ {p : Scan σ α} {p' : Scan τ β} (h : AgreesWithin R (n, m) V p p') :
    Agrees R (Within R (n, m)) (Within R (n + 1, m + 1)) V p p' :=
  h.weaken (fun _ _ hr => hr) fun _ _ hr => hr.mono (Nat.le_succ n) (Nat.le_succ m)

/-- Where a bound is 0 there are no such inputs. -/
theorem agrees_zero {Post : σ → τ → Prop} {p : Scan σ α} {p' : Scan τ β} (h : i.1 = 0 ∨ i.2 = 0) :
    Agrees R (Within R i) Post V p p' := by
  intro s t hr
  have := hr.left
  have := hr.left'
  omega

/-- Loops with two budgets go down with both. -/
theorem two_budgets {P : Nat → Nat → Prop} (h₀ : ∀ n m, n = 0 ∨ m = 0 → P n m)
    (hs : ∀ n m, P n m → P (n + 1) (m + 1)) (n m : Nat) : P n m := by
  induction n generalizing m with
  | zero => exact h₀ 0 m (.inl rfl)
  | succ n ih =>
    cases m with
    | zero => exact h₀ (n + 1) 0 (.inr rfl)
    | succ m => exact hs n m (ih m)

theorem within_pure {a : α} {b : β} (h : V a b) :
    AgreesWithin R i V (pure a : Scan σ α) (pure b : Scan τ β) :=
  agrees_pure h fun _ _ hr => hr

/-- Values that are computed from alike values. -/
theorem AgreesWithin.map {p : Scan σ α} {p' : Scan τ β} {f : α → γ} {f' : β → δ}
    (h : AgreesWithin R i V p p') (hf : ∀ a b, V a b → W (f a) (f' b)) :
    AgreesWithin R i W (p >>= fun a => pure (f a)) (p' >>= fun b => pure (f' b)) :=
  h.bind fun a b hab => within_pure (hf a b hab)

/-- What comes behind a token has less left; behind the end only the place is known. -/
theorem agrees_token_bind {Post : σ → τ → Prop} {f : Option Token → Scan σ α}
    {f' : Option Token → Scan τ β}
    (hnone : Agrees R (fun s t => R (TokenSource.position s) (TokenSource.position t)) Post V (f none)
      (f' none))
    (hsome : ∀ a b, a.Alike R b → Agrees R (Within R (n, m)) Post V (f (some a)) (f' (some b))) :
    Agrees R (Within R (n + 1, m + 1)) Post V (token? >>= f) (token? >>= f') := by
  rintro s t ⟨hab, hs, ht⟩
  have hnext := hab.next
  generalize hl : (token? s : EStateM.Result Failure σ (Option Token)) = r at hnext
  generalize hl' : (token? t : EStateM.Result Failure τ (Option Token)) = r' at hnext
  cases hnext with
  | token h hab =>
    rw [bind_ok hl, bind_ok hl']
    exact hsome _ _ h _ _ ⟨hab, Nat.lt_of_lt_of_le (progresses_token hl) (Nat.le_of_lt_succ hs),
      Nat.lt_of_lt_of_le (progresses_token hl') (Nat.le_of_lt_succ ht)⟩
  | ending h =>
    rw [bind_ok hl, bind_ok hl']
    exact hnone _ _ h
  | failure he =>
    rw [bind_error hl, bind_error hl']
    exact .error he

theorem agrees_require (what : Demand) :
    Agrees R (Within R (n + 1, m + 1)) (Within R (n, m)) (Token.Alike R) (require what : Scan σ Token)
      (require what : Scan τ Token) :=
  agrees_token_bind (fun _ _ h => .error (.same h)) fun _ _ h => within_pure h

/-- What follows a token has lower bounds. -/
theorem require_bind {what : Demand} {f : Token → Scan σ α} {f' : Token → Scan τ β}
    (hf : ∀ a b, a.Alike R b → AgreesWithin R (n, m) V (f a) (f' b)) :
    AgreesWithin R (n + 1, m + 1) V (require what >>= f) (require what >>= f') :=
  (agrees_require what).bind fun a b h => (hf a b h).succ

theorem agrees_accept {what : Demand} {read : Token → Option α} {read' : Token → Option β}
    (hread : ∀ a b, a.Alike R b → Option.Rel V (read a) (read' b)) :
    Agrees R (Within R (n + 1, m + 1)) (Within R (n, m)) V (accept what read : Scan σ α)
      (accept what read' : Scan τ β) := by
  refine (agrees_require what).bind fun a b h => ?_
  have hread := hread a b h
  generalize read a = o at hread ⊢
  generalize read' b = o' at hread ⊢
  cases hread with
  | none => exact agrees_refuseToken h
  | some hv => exact within_pure hv

theorem accept_bind {what : Demand} {read : Token → Option γ} {read' : Token → Option δ}
    {f : γ → Scan σ α} {f' : δ → Scan τ β}
    (hread : ∀ a b, a.Alike R b → Option.Rel W (read a) (read' b))
    (hf : ∀ a b, W a b → AgreesWithin R (n, m) V (f a) (f' b)) :
    AgreesWithin R (n + 1, m + 1) V (accept what read >>= f) (accept what read' >>= f') :=
  (agrees_accept hread).bind fun a b h => (hf a b h).succ

theorem within_require (what : Demand) :
    AgreesWithin R i (Token.Alike R) (require what : Scan σ Token) (require what : Scan τ Token) :=
  (agrees_require what).weaken (fun _ _ hr => hr.mono (Nat.le_succ i.1) (Nat.le_succ i.2))
    fun _ _ hr => hr

theorem within_accept {what : Demand} {read : Token → Option α} {read' : Token → Option β}
    (hread : ∀ a b, a.Alike R b → Option.Rel V (read a) (read' b)) :
    AgreesWithin R i V (accept what read : Scan σ α) (accept what read' : Scan τ β) :=
  (agrees_accept hread).weaken (fun _ _ hr => hr.mono (Nat.le_succ i.1) (Nat.le_succ i.2))
    fun _ _ hr => hr

/-- What is read from the lexeme alone. -/
theorem rel_of_lexeme (read : Lexeme → Option α) (a b : Token) (h : a.Alike R b) :
    Option.Rel Eq (read a.lexeme) (read b.lexeme) := by
  rw [h.lexeme]
  cases read b.lexeme with
  | none => exact .none
  | some v => exact .some rfl

/-! ## Statements -/

theorem within_punct (q : Punct) :
    AgreesWithin R i Eq (punct q : Scan σ Unit) (punct q : Scan τ Unit) :=
  within_accept (rel_of_lexeme (fun l => if l = .punct q then some () else none))

theorem within_keyword (k : Keyword) :
    AgreesWithin R i Eq (keyword k : Scan σ Unit) (keyword k : Scan τ Unit) :=
  within_accept (rel_of_lexeme (fun l => if l = .keyword k then some () else none))

theorem alike_identOf? (a b : Token) (h : a.Alike R b) : Option.Rel Eq (identOf? a) (identOf? b) :=
  rel_of_lexeme (fun l => identOf? ⟨l, .first⟩) a b h

theorem alike_nameOf? (a b : Token) (h : a.Alike R b) : Option.Rel Eq (nameOf? a) (nameOf? b) :=
  rel_of_lexeme (fun l => nameOf? ⟨l, .first⟩) a b h

theorem alike_segmentsOf? (a b : Token) (h : a.Alike R b) :
    Option.Rel Eq (segmentsOf? a) (segmentsOf? b) :=
  rel_of_lexeme (fun l => segmentsOf? ⟨l, .first⟩) a b h

theorem alike_optionValueOf? (a b : Token) (h : a.Alike R b) :
    Option.Rel Eq (optionValueOf? a) (optionValueOf? b) :=
  rel_of_lexeme (fun l => optionValueOf? ⟨l, .first⟩) a b h

theorem within_ident : AgreesWithin R i Eq (ident : Scan σ String) (ident : Scan τ String) :=
  within_accept alike_identOf?

theorem within_reference :
    AgreesWithin R i Eq (reference : Scan σ String) (reference : Scan τ String) :=
  (within_accept alike_segmentsOf?).map fun _ _ h => congrArg (String.intercalate ".") h

/-- A value with the place where it stands. -/
def Placed (R : Position → Position → Prop) (a b : α × Position) : Prop := a.1 = b.1 ∧ R a.2 b.2

theorem within_number :
    AgreesWithin R i (Placed R) (number : Scan σ (Nat × Position)) (number : Scan τ (Nat × Position)) := by
  refine within_accept fun a b h => ?_
  rw [h.lexeme]
  cases b.lexeme with
  | number n => exact .some ⟨rfl, h.position⟩
  | _ => exact .none

theorem within_dialect :
    AgreesWithin R i Eq (dialect : Scan σ Dialect) (dialect : Scan τ Dialect) := by
  refine (within_keyword _).bind fun _ _ _ => (within_punct _).bind fun _ _ _ =>
    Agrees.bind (U := Placed R) (within_accept fun a b h => ?_) ?_
  · rw [h.lexeme]
    cases b.lexeme with
    | text s => exact .some ⟨rfl, h.position⟩
    | _ => exact .none
  · rintro ⟨word, x⟩ ⟨_, y⟩ ⟨rfl, hr⟩
    simp only
    cases Dialect.ofWord? word with
    | some d => exact (within_punct _).map fun _ _ _ => rfl
    | none => exact agrees_refuse rfl rfl hr

theorem within_package :
    AgreesWithin R i Eq (package : Scan σ (List String)) (package : Scan τ (List String)) :=
  (within_accept alike_segmentsOf?).bind fun _ _ h => (within_punct _).map fun _ _ _ => h

theorem within_importPath {kind : ImportKind} {x y : Position} {a b : Token} (h : a.Alike R b) :
    AgreesWithin R i (fun d d' => d.unplaced = d'.unplaced)
      (match a.lexeme with
        | .text path => do
          punct .semi
          pure ⟨path, kind, x⟩
        | _ => refuseToken (.phrase "import path string") a : Scan σ ImportDecl)
      (match b.lexeme with
        | .text path => do
          punct .semi
          pure ⟨path, kind, y⟩
        | _ => refuseToken (.phrase "import path string") b : Scan τ ImportDecl) := by
  obtain ⟨l, z⟩ := a
  obtain rfl : l = b.lexeme := h.lexeme
  simp only
  split
  · exact (within_punct _).map fun _ _ _ => rfl
  · exact agrees_refuseToken h

theorem within_importDecl (start start' : Token) :
    AgreesWithin R i (fun d d' => d.unplaced = d'.unplaced) (importDecl start : Scan σ ImportDecl)
      (importDecl start' : Scan τ ImportDecl) := by
  refine (within_require _).bind fun a b h => ?_
  have hkind : importKindOf a = importKindOf b := by rw [importKindOf, importKindOf, h.lexeme]
  simp only [hkind]
  refine agrees_ite Iff.rfl (fun _ => ?_) fun _ => ?_
  · exact (within_pure h).bind fun _ _ h => within_importPath h
  · exact (within_require _).bind fun _ _ h => within_importPath h

theorem within_optionDecl (start start' : Token) :
    AgreesWithin R i (fun d d' => d.unplaced = d'.unplaced) (optionDecl start : Scan σ OptionDecl)
      (optionDecl start' : Scan τ OptionDecl) := by
  refine within_reference.bind fun name name' hname => (within_punct _).bind fun _ _ _ =>
    (within_accept alike_optionValueOf?).bind fun v v' hv => (within_punct _).map fun _ _ _ => ?_
  rw [hname, hv]
  rfl

/-! ## Fields -/

variable {start start' : Token}

theorem within_mapTypeWith {type : Token → Scan σ FieldType} {type' : Token → Scan τ FieldType}
    (h : ∀ a b, a.Alike R b → AgreesWithin R (n, m) Eq (type a) (type' b)) :
    AgreesWithin R (n + 1, m + 1) Eq (mapTypeWith type) (mapTypeWith type') := by
  refine accept_bind (rel_of_lexeme (fun l => if l = .punct .langle then some () else none))
    fun _ _ _ => (within_require _).bind fun k k' hk => (h k k' hk).bind fun key _ hkey => ?_
  subst hkey
  refine agrees_ite Iff.rfl (fun _ => ?_) fun _ => agrees_refuse rfl rfl hk.position
  refine (within_punct _).bind fun _ _ _ => (within_require _).bind fun v v' hv =>
    (h v v' hv).bind fun value _ hvalue => (within_punct _).map fun _ _ _ => ?_
  rw [hvalue]

theorem within_fieldType (n m : Nat) {a b : Token} (h : a.Alike R b) :
    AgreesWithin R (n, m) Eq (fieldType n a : Scan σ FieldType) (fieldType m b : Scan τ FieldType) := by
  refine two_budgets (P := fun n m => ∀ a b, a.Alike R b → AgreesWithin R (n, m) Eq
    (fieldType n a : Scan σ FieldType) (fieldType m b : Scan τ FieldType))
    (fun _ _ h₀ _ _ _ => agrees_zero h₀) ?_ n m a b h
  rintro n m ih ⟨l, x⟩ ⟨l', y⟩ h
  obtain rfl : l = l' := h.lexeme
  cases l with
  | ident => exact within_pure rfl
  | dotted => exact within_pure rfl
  | keyword k =>
    cases k with
    | scalar => exact within_pure rfl
    | mapWord => exact within_mapTypeWith ih
    | _ => exact agrees_refuseToken h
  | _ => exact agrees_refuseToken h

/-- A field as it is written, whatever the place of its number is. -/
structure Written (R : Position → Position → Prop) (r r' : FieldType × String × Nat × Position × Bool) :
    Prop where
  type : r.1 = r'.1
  name : r.2.1 = r'.2.1
  number : r.2.2.1 = r'.2.2.1
  place : R r.2.2.2.1 r'.2.2.2.1
  repeated : r.2.2.2.2 = r'.2.2.2.2

theorem within_fieldSyntax (hstart : start.Alike R start') :
    AgreesWithin R (n, m) (Written R) (fieldSyntax n start : Scan σ _)
      (fieldSyntax m start' : Scan τ _) := by
  have typed (a b : Token) (h : a.Alike R b) : AgreesWithin R (n, m) (Written R)
      (fieldType n a >>= fun type => name "field name" >>= fun name => punct .equals >>= fun _ =>
        number >>= fun r => punct .semi >>= fun _ =>
          pure (type, name, r.1, r.2, start.lexeme == .keyword .repeatedWord) : Scan σ _)
      (fieldType m b >>= fun type => name "field name" >>= fun name => punct .equals >>= fun _ =>
        number >>= fun r => punct .semi >>= fun _ =>
          pure (type, name, r.1, r.2, start'.lexeme == .keyword .repeatedWord) : Scan τ _) :=
    (within_fieldType n m h).bind fun _ _ htype => (within_accept alike_nameOf?).bind fun _ _ hname =>
      (within_punct _).bind fun _ _ _ => within_number.bind fun _ _ hnum => (within_punct _).map
        fun _ _ _ => ⟨htype, hname, hnum.1, hnum.2, by rw [hstart.lexeme]⟩
  refine agrees_ite (by rw [hstart.lexeme]) (fun _ => ?_) fun _ => ?_
  · exact (within_require _).bind typed
  · exact (within_pure hstart).bind typed

theorem within_field (hstart : start.Alike R start') :
    AgreesWithin R (n, m) (Field.Alike R) (field n start : Scan σ Field)
      (field m start' : Scan τ Field) := by
  refine (within_fieldSyntax hstart).inField.bind ?_
  rintro ⟨type, name, number, x, repeated⟩ ⟨_, _, _, y, _⟩ ⟨rfl, rfl, rfl, hr, rfl⟩
  exact agrees_ite Iff.rfl (fun _ => within_pure ⟨rfl, hstart.position⟩) fun _ =>
    agrees_refuse rfl rfl hr

theorem within_skipStatement (n m : Nat) :
    AgreesWithin R (n, m) Eq (skipStatement n : Scan σ Unit) (skipStatement m : Scan τ Unit) := by
  refine two_budgets (P := fun n m => AgreesWithin R (n, m) Eq
    (skipStatement n : Scan σ Unit) (skipStatement m : Scan τ Unit))
    (fun _ _ h₀ => agrees_zero h₀) (fun n m ih => ?_) n m
  exact require_bind fun a b h => agrees_ite (by rw [h.lexeme]) (fun _ => within_pure rfl) fun _ => ih

/-! ## Messages -/

structure BodyAlike (R : Position → Position → Prop) (b b' : MessageBody) : Prop where
  fields : List.Forall₂ (Field.Alike R) b.fields b'.fields
  nested : b.nested.map Message.unplaced = b'.nested.map Message.unplaced
  options : b.options.map OptionDecl.unplaced = b'.options.map OptionDecl.unplaced

theorem within_checkFields (message : String) {fs gs : List Field}
    (h : List.Forall₂ (Field.Alike R) fs gs) :
    AgreesWithin R i Eq (checkFields message fs : Scan σ Unit) (checkFields message gs : Scan τ Unit) := by
  have hclash := clash_alike message .nil h
  unfold checkFields
  generalize firstClash? message [] fs = o at hclash ⊢
  generalize firstClash? message [] gs = o' at hclash ⊢
  cases hclash with
  | none => exact within_pure rfl
  | @some e e' h => exact agrees_refuse (by rw [h.1]) (by rw [h.1]) h.2

theorem within_messageWith {body : Scan σ MessageBody} {body' : Scan τ MessageBody}
    (h : AgreesWithin R i (BodyAlike R) body body') (start start' : Token) :
    AgreesWithin R i (fun m m' => m.unplaced = m'.unplaced) (messageWith body start)
      (messageWith body' start') := by
  refine within_ident.bind fun name _ hname => (within_punct _).bind fun _ _ _ =>
    h.bind fun b b' hb => ?_
  subst hname
  refine (within_checkFields name hb.fields).map fun _ _ _ => ?_
  rw [Message.unplaced_eq, Message.unplaced_eq, map_unplaced_of_alike hb.fields, hb.nested, hb.options]

theorem within_messageBody (n m : Nat) :
    AgreesWithin R (n, m) (BodyAlike R) (messageBody n : Scan σ MessageBody)
      (messageBody m : Scan τ MessageBody) := by
  refine two_budgets (P := fun n m => AgreesWithin R (n, m) (BodyAlike R)
    (messageBody n : Scan σ MessageBody) (messageBody m : Scan τ MessageBody))
    (fun _ _ h₀ => agrees_zero h₀) (fun n m ih => ?_) n m
  refine require_bind fun a b h => ?_
  have hskip : isSkipped a = isSkipped b := by rw [isSkipped, isSkipped, h.lexeme]
  have hunsupported : unsupportedOf? a = unsupportedOf? b := by
    rw [unsupportedOf?, unsupportedOf?, h.lexeme]
  refine agrees_ite (by rw [h.lexeme]) (fun _ => within_pure ⟨.nil, rfl, rfl⟩) fun _ => ?_
  refine agrees_ite (by rw [h.lexeme]) (fun _ => ih) fun _ => ?_
  refine agrees_ite (by rw [h.lexeme]) (fun _ => ?_) fun _ => ?_
  · exact (within_messageWith ih a b).bind fun c c' hc => ih.map fun r r' hr =>
      ⟨hr.fields, by simp only [MessageBody.addNested, List.map_cons, hc, hr.nested], hr.options⟩
  refine agrees_ite (by rw [h.lexeme]) (fun _ => ?_) fun _ => ?_
  · exact (within_optionDecl a b).bind fun o o' ho => ih.map fun r r' hr =>
      ⟨hr.fields, hr.nested, by simp only [MessageBody.addOption, List.map_cons, ho, hr.options]⟩
  refine agrees_ite (by rw [hskip]) (fun _ => (within_skipStatement n m).bind fun _ _ _ => ih) fun _ => ?_
  rw [hunsupported]
  cases unsupportedOf? b with
  | some u => exact agrees_refuse rfl rfl h.position
  | none =>
    exact (within_field h).bind fun f f' hf => ih.map fun r r' hr =>
      ⟨.cons hf hr.fields, hr.nested, hr.options⟩

/-! ## Services -/

theorem alike_either (p q : Punct) (a b : Token) (h : a.Alike R b) :
    Option.Rel Eq (if a.lexeme = .punct p then some true
      else if a.lexeme = .punct q then some false else none)
      (if b.lexeme = .punct p then some true
      else if b.lexeme = .punct q then some false else none) :=
  rel_of_lexeme (fun l => if l = .punct p then some true
    else if l = .punct q then some false else none) a b h

theorem within_moreParams (n m : Nat) :
    AgreesWithin R (n, m) Eq (moreParams n : Scan σ (List String))
      (moreParams m : Scan τ (List String)) := by
  refine two_budgets (P := fun n m => AgreesWithin R (n, m) Eq
    (moreParams n : Scan σ (List String)) (moreParams m : Scan τ (List String)))
    (fun _ _ h₀ => agrees_zero h₀) (fun n m ih => ?_) n m
  refine accept_bind (alike_either .comma .rparen) fun more _ hmore => ?_
  subst hmore
  refine agrees_ite Iff.rfl (fun _ => ?_) fun _ => within_pure rfl
  exact within_reference.bind fun p p' hp => ih.map fun ps ps' hps => by rw [hp, hps]

theorem within_rpcBody (method : String) (n m : Nat) :
    AgreesWithin R (n, m) Eq (rpcBody method n : Scan σ Unit) (rpcBody method m : Scan τ Unit) := by
  refine two_budgets (P := fun n m => AgreesWithin R (n, m) Eq
    (rpcBody method n : Scan σ Unit) (rpcBody method m : Scan τ Unit))
    (fun _ _ h₀ => agrees_zero h₀) (fun n m ih => ?_) n m
  refine require_bind fun a b h => ?_
  refine agrees_ite (by rw [h.lexeme]) (fun _ => within_pure rfl) fun _ => ?_
  refine agrees_ite (by rw [h.lexeme]) (fun _ => (within_optionDecl a b).bind fun _ _ _ => ih) fun _ => ?_
  exact agrees_ite (by rw [h.lexeme]) (fun _ => ih) fun _ => agrees_unexpected h

theorem within_returnsWord :
    AgreesWithin R i Eq (returnsWord : Scan σ Unit) (returnsWord : Scan τ Unit) := by
  refine Agrees.bind (U := Token.Alike R) (within_accept fun a b h => ?_) fun a b h => ?_
  · rw [h.lexeme]
    split
    · exact .some h
    · exact .none
  · exact agrees_ite (by rw [h.lexeme]) (fun _ => within_pure rfl) fun _ => agrees_refuseToken h

theorem within_rpc (start start' : Token) :
    AgreesWithin R (n, m) (fun r r' => r.unplaced = r'.unplaced) (rpc n start : Scan σ Rpc)
      (rpc m start' : Scan τ Rpc) := by
  refine within_ident.bind fun name _ hname => (within_punct _).bind fun _ _ _ =>
    within_reference.bind fun first _ hfirst => (within_moreParams n m).bind fun more _ hmore =>
      within_returnsWord.bind fun _ _ _ => (within_punct _).bind fun _ _ _ =>
        within_reference.bind fun result _ hresult => (within_punct _).bind fun _ _ _ =>
          (within_accept (alike_either .semi .lbrace)).bind fun closed _ hclosed => ?_
  subst hname hfirst hmore hresult hclosed
  refine agrees_ite Iff.rfl (fun _ => ?_) fun _ => ?_
  · exact within_pure rfl
  · exact (within_rpcBody name n m).map fun _ _ _ => rfl

structure ServiceBodyAlike (b b' : ServiceBody) : Prop where
  rpcs : b.rpcs.map Rpc.unplaced = b'.rpcs.map Rpc.unplaced
  options : b.options.map OptionDecl.unplaced = b'.options.map OptionDecl.unplaced

theorem within_serviceBody (service : String) (n m : Nat) :
    AgreesWithin R (n, m) ServiceBodyAlike (serviceBody service n : Scan σ ServiceBody)
      (serviceBody service m : Scan τ ServiceBody) := by
  refine two_budgets (P := fun n m => AgreesWithin R (n, m) ServiceBodyAlike
    (serviceBody service n : Scan σ ServiceBody) (serviceBody service m : Scan τ ServiceBody))
    (fun _ _ h₀ => agrees_zero h₀) (fun n m ih => ?_) n m
  refine require_bind fun a b h => ?_
  refine agrees_ite (by rw [h.lexeme]) (fun _ => within_pure ⟨rfl, rfl⟩) fun _ => ?_
  refine agrees_ite (by rw [h.lexeme]) (fun _ => ih) fun _ => ?_
  refine agrees_ite (by rw [h.lexeme]) (fun _ => ?_) fun _ => ?_
  · exact (within_optionDecl a b).bind fun o o' ho => ih.map fun r r' hr =>
      ⟨hr.rpcs, by simp only [ServiceBody.addOption, List.map_cons, ho, hr.options]⟩
  refine agrees_ite (by rw [h.lexeme]) (fun _ => ?_) fun _ => agrees_unexpected h
  exact (within_rpc a b).bind fun c c' hc => ih.map fun r r' hr =>
    ⟨by simp only [ServiceBody.addRpc, List.map_cons, hc, hr.rpcs], hr.options⟩

theorem within_service (start start' : Token) :
    AgreesWithin R (n, m) (fun s s' => s.unplaced = s'.unplaced) (service n start : Scan σ Service)
      (service m start' : Scan τ Service) := by
  refine within_ident.bind fun name _ hname => (within_punct _).bind fun _ _ _ => ?_
  subst hname
  refine (within_serviceBody name n m).map fun b b' hb => ?_
  rw [Service.unplaced, Service.unplaced, hb.rpcs, hb.options]

/-! ## Schemas -/

structure StatementsAlike (b b' : Body) : Prop where
  package : b.package = b'.package
  imports : b.imports.map ImportDecl.unplaced = b'.imports.map ImportDecl.unplaced
  options : b.options.map OptionDecl.unplaced = b'.options.map OptionDecl.unplaced
  messages : b.messages.map Message.unplaced = b'.messages.map Message.unplaced
  services : b.services.map Service.unplaced = b'.services.map Service.unplaced

/-- Statements are read to the end, and nothing is read behind them. -/
theorem agrees_statements (packaged : Bool) (n m : Nat) :
    Agrees R (Within R (n, m)) (fun _ _ => True) StatementsAlike (statements packaged n : Scan σ Body)
      (statements packaged m : Scan τ Body) := by
  refine two_budgets (P := fun n m => ∀ packaged, Agrees R (Within R (n, m)) (fun _ _ => True)
    StatementsAlike (statements packaged n : Scan σ Body) (statements packaged m : Scan τ Body))
    (fun _ _ h₀ _ => agrees_zero h₀) (fun n m ih packaged => ?_) n m packaged
  have rest (packaged : Bool) {f f' : Body → Body}
      (hf : ∀ b b', StatementsAlike b b' → StatementsAlike (f b) (f' b')) :
      Agrees R (Within R (n, m)) (fun _ _ => True) StatementsAlike
        (statements packaged n >>= fun b => pure (f b) : Scan σ Body)
        (statements packaged m >>= fun b => pure (f' b) : Scan τ Body) :=
    (ih packaged).bind fun b b' hb => agrees_pure (hf b b' hb) fun _ _ h => h
  refine agrees_token_bind (agrees_pure ⟨rfl, rfl, rfl, rfl, rfl⟩ fun _ _ _ => trivial) ?_
  rintro ⟨l, x⟩ ⟨l', y⟩ h
  obtain rfl : l = l' := h.lexeme
  cases l with
  | punct q =>
    cases q with
    | semi => exact ih packaged
    | _ => exact agrees_unexpected h
  | keyword k =>
    cases k with
    | syntaxWord => exact agrees_refuse rfl rfl h.position
    | packageWord =>
      refine agrees_ite Iff.rfl (fun _ => agrees_refuse rfl rfl h.position) fun _ => ?_
      refine within_package.bind fun ss _ hss => rest true fun b b' hb => ?_
      subst hss
      exact ⟨rfl, hb.imports, hb.options, hb.messages, hb.services⟩
    | importWord =>
      refine (within_importDecl _ _).bind fun d d' hd => rest packaged fun b b' hb => ?_
      exact ⟨hb.package, by simp only [Body.addImport, List.map_cons, hd, hb.imports], hb.options,
        hb.messages, hb.services⟩
    | optionWord =>
      refine (within_optionDecl _ _).bind fun o o' ho => rest packaged fun b b' hb => ?_
      exact ⟨hb.package, hb.imports, by simp only [Body.addOption, List.map_cons, ho, hb.options],
        hb.messages, hb.services⟩
    | messageWord =>
      refine (within_messageWith (within_messageBody n m) _ _).bind fun c c' hc =>
        rest packaged fun b b' hb => ?_
      exact ⟨hb.package, hb.imports, hb.options,
        by simp only [Body.addMessage, List.map_cons, hc, hb.messages], hb.services⟩
    | serviceWord =>
      refine (within_service _ _).bind fun c c' hc => rest packaged fun b b' hb => ?_
      exact ⟨hb.package, hb.imports, hb.options, hb.messages,
        by simp only [Body.addService, List.map_cons, hc, hb.services]⟩
    | enumWord => exact agrees_refuse rfl rfl h.position
    | oneofWord => exact agrees_refuse rfl rfl h.position
    | extendWord => exact agrees_refuse rfl rfl h.position
    | _ => exact agrees_unexpected h
  | _ => exact agrees_unexpected h

/-- The parser looks at nothing but the lexemes, comments apart: from inputs that are abreast it reads
documents that are alike, whatever their sources are called, or it fails alike. -/
theorem agrees_document (source source' : Option String) :
    Agrees R (Abreast R) (fun _ _ => True) Document.Alike (document source : Scan σ Document)
      (document source' : Scan τ Document) := by
  intro s t hab
  have hin : Within R (TokenSource.left s + 1, TokenSource.left t + 1) s t :=
    ⟨hab, Nat.lt_succ_self _, Nat.lt_succ_self _⟩
  refine Agrees.bind within_dialect (fun d _ hd => ?_) s t hin
  subst hd
  refine Agrees.bind (M := fun _ _ => True) (U := StatementsAlike) ?_ fun b b' hb => agrees_pure ?_ fun _ _ h => h
  · exact fun s t hr => agrees_statements false _ _ s t
      ⟨hr.abreast, Nat.lt_succ_self _, Nat.lt_succ_self _⟩
  · simp only [Document.Alike, Document.unplaced, hb.package, hb.imports, hb.options, hb.messages,
      hb.services]

end Inputs

end Syntactic
end ProtoSchema
