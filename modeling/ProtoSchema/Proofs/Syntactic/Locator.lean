import ProtoSchema.Proofs.Document.Valid
import ProtoSchema.Proofs.Lexical.Names
import ProtoSchema.Proofs.Syntactic.Recognizer

/-!
# ProtoSchema.Proofs.Syntactic.Locator

Productions find the first error. A production that fails has read the front of a word, and stands
before a token that no word with that front goes on with, or at an end that comes too early
(`Locates`). A production that is entered by a token may instead refuse that token itself, and then no
word begins with it (`LocatesFrom`).

A part of a schema ends where a word of its language ends, so of two words that begin alike neither
goes on behind the other (`Unique`); a whole schema ends where the input ends.

There is one rule for each way in which productions are put together.
-/

namespace ProtoSchema

/-- A failure of the input or of the lexer. -/
def Failure.FromBelow (e : Failure) : Prop := e.InLexeme ∨ e.Unreadable

theorem Failure.FromBelow.inField {e : Failure} (h : e.FromBelow) : e.inField = e := by
  rcases h with h | ⟨reason, p, rfl⟩
  · cases h with
    | @refused c p h =>
      have hne : ¬ c.layer = .syntactic := by simp [h]
      simp only [Failure.inField, if_neg hne]
    | invalidUtf8 => rfl
    | numberTooLong => rfl
  · rfl

namespace Syntactic

open Scan ProtoSchema.Parser

/-- A source of tokens whose failures are those of the input or of the lexer. -/
class PlainTokenSource (σ : Type) [TokenSource σ] : Prop extends LawfulTokenSource σ where
  fromBelow : ∀ {s s' : σ} {e : Failure}, TokenSource.next s = .error e s' → e.FromBelow

variable {σ α β : Type}

/-! ## Languages and their fronts -/

/-- Some word of `G` begins with `us`. -/
def Viable (G : Lang α) (us : List Token) : Prop := ∃ vs a, G (us ++ vs) a

/-- Tokens that can be read go on behind `us` to a word of `G`. -/
def Completable (G : Lang α) (us : List Token) : Prop :=
  ∃ vs a, (∀ v ∈ vs, Lexical.Readable v.lexeme) ∧ G (us ++ vs) a

/-- Words of `G` begin with `us`, which is none itself. -/
structure Unfinished (G : Lang α) (us : List Token) : Prop where
  completable : Completable G us
  not_word : ∀ a, ¬ G us a

/-- A word of fewer than `n` tokens is no front of another word, and has one value. -/
def Unique (n : Nat) (G : Lang α) : Prop :=
  ∀ us us' a a', us.length < n → G us a → G us' a' → us <+: us' → us = us' ∧ a = a'

/-- Whether something follows what a production reads. -/
inductive Extent where
  | part
  | whole

/-- What a production has read where it asks for one more token. -/
def Extent.Pending : Extent → Lang α → List Token → Prop
  | part => Unfinished
  | whole => Completable

theorem Unfinished.pending {G : Lang α} {us : List Token} (h : Unfinished G us) (x : Extent) :
    x.Pending G us := by
  cases x with
  | part => exact h
  | whole => exact h.completable

section Words

variable {n : Nat} {G : Lang α} {K : α → Lang β} {us vs : List Token} {a : α}

theorem Completable.seq (h : Completable G us) (hK : ∀ a, Completable (K a) []) :
    Completable (.seq G K) us := by
  obtain ⟨vs, a, hvs, h⟩ := h
  obtain ⟨ws, b, hws, hb⟩ := hK a
  exact ⟨vs ++ ws, b, List.forall_mem_append.2 ⟨hvs, hws⟩, a, us ++ vs, ws,
    (List.append_assoc ..).symm, h, hb⟩

theorem Completable.of_word (h : G us a) : Completable G us :=
  ⟨[], a, nofun, by rwa [List.append_nil]⟩

theorem completable_of_mark (q : Punct) (h : G [⟨.punct q, .first⟩] a) : Completable G [] :=
  ⟨[⟨.punct q, .first⟩], a, by simpa using Lexical.readable_punct q, h⟩

/-- A word of `G` is cut off in one way only. -/
theorem Unique.split (hG : Unique n G) {us' vs' : List Token} {a' : α} (hn : us.length < n)
    (h : G us a) (h' : G us' a') (e : us ++ vs = us' ++ vs') : us = us' ∧ a = a' ∧ vs = vs' := by
  have hsame : us = us' ∧ a = a' := by
    rcases List.prefix_or_prefix_of_prefix (List.prefix_append us vs) ⟨vs', e.symm⟩ with hp | hp
    · exact hG us us' a a' hn h h' hp
    · obtain ⟨rfl, rfl⟩ := hG us' us a' a (Nat.lt_of_le_of_lt hp.length_le hn) h' h hp
      exact ⟨rfl, rfl⟩
  obtain ⟨rfl, rfl⟩ := hsame
  exact ⟨rfl, rfl, List.append_cancel_left e⟩

/-- A word that begins with an unfinished front is longer than it. -/
theorem Unique.not_prefix (hG : Unique n G) (hn : us.length < n) (h : Unfinished G us)
    (hw : G vs a) : ¬ vs <+: us := by
  intro hp
  obtain ⟨ws, a', _, h'⟩ := h.completable
  have hlen : vs.length < n := Nat.lt_of_le_of_lt hp.length_le hn
  obtain ⟨rest, rfl⟩ := hp
  obtain ⟨e, _⟩ := hG vs _ a a' hlen hw h' ⟨rest ++ ws, (List.append_assoc ..).symm⟩
  have hrest : rest = [] := by
    have := congrArg List.length e
    simp only [List.length_append] at this
    exact List.eq_nil_of_length_eq_zero (by omega)
  rw [hrest, List.append_nil] at h
  exact h.not_word a hw

theorem Unique.seq (hG : Unique n G) (hK : ∀ a, Unique n (K a)) : Unique n (.seq G K) := by
  rintro _ _ b b' hn ⟨a, us, vs, rfl, h, hb⟩ ⟨a', us', vs', rfl, h', hb'⟩ ⟨rest, e⟩
  rw [List.length_append] at hn
  rw [List.append_assoc] at e
  obtain ⟨rfl, rfl, e⟩ := hG.split (by omega) h h' e
  obtain ⟨rfl, rfl⟩ := hK a vs vs' b b' (by omega) hb hb' ⟨rest, e⟩
  exact ⟨rfl, rfl⟩

theorem Unfinished.seq (hG : Unique n G) (hn : us.length < n) (h : Unfinished G us)
    (hK : ∀ a, Completable (K a) []) : Unfinished (.seq G K) us := by
  refine ⟨h.completable.seq hK, ?_⟩
  rintro b ⟨a, vs, ws, rfl, hw, _⟩
  exact hG.not_prefix hn h hw (List.prefix_append ..)

/-- What ends an unfinished front of `G` for good ends it also where words follow. -/
theorem not_viable_seq (hG : Unique n G) (hn : us.length < n) (h : Unfinished G us) {t : Token}
    (ht : ¬ Viable G (us ++ [t])) : ¬ Viable (.seq G K) (us ++ [t]) := by
  rintro ⟨ws, b, a, us', vs', e, hw, _⟩
  rw [List.append_assoc] at e
  -- the word of `G` reaches beyond `us` and so takes `t`, or it ends within `us`
  rcases List.prefix_or_prefix_of_prefix (List.prefix_append us _) ⟨vs', e.symm⟩ with ⟨rest, rfl⟩ | hp
  · cases rest with
    | nil =>
      rw [List.append_nil] at hw
      exact h.not_word a hw
    | cons u rest =>
      rw [List.append_assoc] at e
      obtain ⟨rfl, _⟩ := List.cons.inj (List.append_cancel_left e)
      refine ht ⟨rest, a, ?_⟩
      rwa [List.append_assoc]
  · exact hG.not_prefix hn h hw hp

/-- Behind a word of `G` the words of the language that its value chooses are left. -/
theorem seq_append_iff (hG : Unique n G) (hn : us.length < n) (h : G us a) {b : β} :
    Lang.seq G K (us ++ vs) b ↔ K a vs b := by
  constructor
  · rintro ⟨a', us', vs', e, h', hb⟩
    obtain ⟨rfl, rfl, rfl⟩ := hG.split hn h h' e
    exact hb
  · intro hb
    exact ⟨a, us, vs, rfl, h, hb⟩

/-- Where `K` is what is left of `G` behind `us`, fronts of both correspond. -/
theorem viable_append_iff {H : Lang α} (h : ∀ vs a, G (us ++ vs) a ↔ H vs a) :
    Viable G (us ++ vs) ↔ Viable H vs := by
  simp only [Viable, List.append_assoc, h]

theorem Completable.append {H : Lang α} (h : ∀ vs a, G (us ++ vs) a ↔ H vs a)
    (hv : Completable H vs) : Completable G (us ++ vs) := by
  obtain ⟨ws, a, hws, ha⟩ := hv
  refine ⟨ws, a, hws, ?_⟩
  rwa [List.append_assoc, h]

theorem Unfinished.append {H : Lang α} (h : ∀ vs a, G (us ++ vs) a ↔ H vs a)
    (hv : Unfinished H vs) : Unfinished G (us ++ vs) :=
  ⟨hv.completable.append h, fun a hw => hv.not_word a ((h vs a).1 hw)⟩

theorem Extent.Pending.append {x : Extent} {H : Lang α} (h : ∀ vs a, G (us ++ vs) a ↔ H vs a)
    (hv : x.Pending H vs) : x.Pending G (us ++ vs) := by
  cases x with
  | part => exact Unfinished.append h hv
  | whole => exact Completable.append h hv

end Words

/-! ## Where productions fail -/

section Outcomes

variable [TokenSource σ]

/-- How a run of a production from `s` ends: it has read a word of `G`, or it breaks a rule about
declarations, or it stops before a token, at the end of the input, or where the source fails. -/
inductive Outcome (x : Extent) (G : Lang α) (s : σ) : EStateM.Result Failure σ α → Prop where
  | done {a : α} {s' : σ} : (x = .part → ∃ us, Reads s us s' ∧ G us a) → Outcome x G s (.ok a s')
  | rule {c : Cause} {p : Position} {s' : σ} :
      c.IsRule → Outcome x G s (.error (.refused ⟨c, p⟩) s')
  | token {us : List Token} {t : Token} {c : Cause} {s₁ s₂ s' : σ} :
      c.layer = .syntactic → Reads s us s₁ → token? s₁ = .ok (some t) s₂ → x.Pending G us →
      ¬ Viable G (us ++ [t]) → Outcome x G s (.error (.refused ⟨c, t.position⟩) s')
  | ending {us : List Token} {c : Cause} {s₁ s₂ s' : σ} :
      c.layer = .syntactic → Reads s us s₁ → token? s₁ = .ok none s₂ → Unfinished G us →
      Outcome x G s (.error (.refused ⟨c, TokenSource.position s₂⟩) s')
  | source {us : List Token} {e : Failure} {s₁ s₂ s' : σ} :
      Reads s us s₁ → token? s₁ = .error e s₂ → x.Pending G us → Outcome x G s (.error e s')

/-- On sources with fewer than `n` tokens the production `p` finds the first error with respect to
`G`. -/
structure Locates (x : Extent) (n : Nat) (p : Scan σ α) (G : Lang α) : Prop where
  inhabited : Completable G []
  unique : x = .part → Unique n G
  outcome : ∀ s, TokenSource.left s < n → Outcome x G s (p s)

/-- The production `p`, entered by the token `t`, finds the first error with respect to `G`, which may
be `t` itself. -/
inductive LocatesFrom (t : Token) (x : Extent) (n : Nat) (p : Scan σ α) (G : Lang α) : Prop where
  | refuses :
      (0 < n → ∀ ts a, ¬ G ts a) →
      (∀ s, TokenSource.left s < n →
        ∃ c s', c.layer = .syntactic ∧ p s = .error (.refused ⟨c, t.position⟩) s') →
      LocatesFrom t x n p G
  | locates : Locates x n p G → LocatesFrom t x n p G

/-- What happens behind tokens that have been read already. -/
theorem Outcome.append {x : Extent} {G H : Lang α} {us : List Token} {s s₁ : σ}
    {r : EStateM.Result Failure σ α} (hr : Reads s us s₁) (h : ∀ vs a, G (us ++ vs) a ↔ H vs a)
    (ho : Outcome x H s₁ r) : Outcome x G s r := by
  cases ho with
  | done hw =>
    refine .done fun hx => ?_
    obtain ⟨vs, hv, ha⟩ := hw hx
    exact ⟨us ++ vs, hr.append hv, (h vs _).2 ha⟩
  | rule hc => exact .rule hc
  | token hc hv ht hp hn =>
    refine .token hc (hr.append hv) ht (hp.append h) ?_
    rwa [List.append_assoc, viable_append_iff h]
  | ending hc hv ht hu => exact .ending hc (hr.append hv) ht (hu.append h)
  | source hv ht hp => exact .source (hr.append hv) ht (hp.append h)

end Outcomes

section Rules

variable [TokenSource σ] {x : Extent} {n m : Nat} {p q : Scan σ α} {G H : Lang α} {t : Token}

theorem Locates.congr (h : Locates x n p G) (e : ∀ ts a, G ts a ↔ H ts a) : Locates x n p H := by
  have he : G = H := funext fun ts => funext fun a => propext (e ts a)
  exact he ▸ h

theorem LocatesFrom.congr (h : LocatesFrom t x n p G) (e : ∀ ts a, G ts a ↔ H ts a) :
    LocatesFrom t x n p H := by
  have he : G = H := funext fun ts => funext fun a => propext (e ts a)
  exact he ▸ h

theorem Locates.mono (h : Locates x m p G) (hn : n ≤ m) : Locates x n p G where
  inhabited := h.inhabited
  unique hx us us' a a' hlen := h.unique hx us us' a a' (Nat.lt_of_lt_of_le hlen hn)
  outcome s hs := h.outcome s (Nat.lt_of_lt_of_le hs hn)

theorem Locates.step (h : Locates x (n + 1) p G) : Locates x n p G := h.mono (Nat.le_succ n)

theorem LocatesFrom.unique (h : LocatesFrom t x n p G) (hx : x = .part) : Unique n G := by
  cases h with
  | refuses hG _ => exact fun us _ a _ hn hw => absurd hw (hG (by omega) us a)
  | locates h => exact h.unique hx

/-- No source has fewer than no tokens left. -/
theorem locates_zero (h : Completable G []) : Locates x 0 p G where
  inhabited := h
  unique _ _ _ _ _ hn := absurd hn (Nat.not_lt_zero _)
  outcome _ hs := absurd hs (Nat.not_lt_zero _)

theorem locatesFrom_zero : LocatesFrom t x 0 p G :=
  .refuses nofun fun _ hs => absurd hs (Nat.not_lt_zero _)

theorem locates_pure (a : α) : Locates .part n (pure a : Scan σ α) (.one a) where
  inhabited := ⟨[], a, nofun, rfl, rfl⟩
  unique := by
    rintro _ _ _ _ _ _ ⟨rfl, rfl⟩ ⟨rfl, rfl⟩ _
    exact ⟨rfl, rfl⟩
  outcome _ _ := .done fun _ => ⟨[], .nil, rfl, rfl⟩

theorem locatesFrom_refuse {c : Cause} (hc : c.layer = .syntactic) :
    LocatesFrom t x n (refuse c t.position : Scan σ α) .empty :=
  .refuses (fun _ _ _ h => h) fun s _ => ⟨c, s, hc, rfl⟩

theorem locatesFrom_pure_bind {f : α → Scan σ β} {K : α → Lang β} {a : α}
    (h : LocatesFrom t x n (f a) (K a)) : LocatesFrom t x n (pure a >>= f) (.seq (.one a) K) := by
  rw [pure_bind]
  refine h.congr fun ts b => ?_
  constructor
  · intro hb
    exact ⟨a, [], ts, rfl, ⟨rfl, rfl⟩, hb⟩
  · rintro ⟨_, _, vs, rfl, ⟨rfl, rfl⟩, hb⟩
    exact hb

theorem locatesFrom_ite {c : Prop} [Decidable c] (h : c → LocatesFrom t x n p G)
    (h' : ¬ c → LocatesFrom t x n q H) : LocatesFrom t x n (if c then p else q) (.cases c G H) := by
  by_cases hc : c
  · rw [if_pos hc]
    exact (h hc).congr fun ts a => by simp [hc]
  · rw [if_neg hc]
    exact (h' hc).congr fun ts a => by simp [hc]

theorem locates_ite {c : Prop} [Decidable c] (h : c → Locates x n p G) (h' : ¬ c → Locates x n q H) :
    Locates x n (if c then p else q) (.cases c G H) := by
  by_cases hc : c
  · rw [if_pos hc]
    exact (h hc).congr fun ts a => by simp [hc]
  · rw [if_neg hc]
    exact (h' hc).congr fun ts a => by simp [hc]

/-- A check of a rule about declarations stands in the way of no word. -/
theorem Locates.guard {c : Prop} [Decidable c] {cause : Cause} {y : Position} (h : Locates x n p G)
    (hc : cause.IsRule) : Locates x n (if c then p else refuse cause y) G where
  inhabited := h.inhabited
  unique := h.unique
  outcome s hs := by
    split
    · exact h.outcome s hs
    · exact .rule hc

theorem Locates.map (f : α → β) (h : Locates x n p G) :
    Locates x n (p >>= fun a => pure (f a)) (.map f G) := by
  have hcomplete {us : List Token} : Completable G us → Completable (.map f G) us := by
    rintro ⟨vs, a, hvs, ha⟩
    exact ⟨vs, f a, hvs, a, ha, rfl⟩
  have hnot {us : List Token} : Viable (.map f G) us → Viable G us := by
    rintro ⟨vs, _, a, ha, rfl⟩
    exact ⟨vs, a, ha⟩
  have hopen {us : List Token} (hu : Unfinished G us) : Unfinished (.map f G) us := by
    refine ⟨hcomplete hu.completable, ?_⟩
    rintro _ ⟨a, ha, rfl⟩
    exact hu.not_word a ha
  have hpending {us : List Token} (hp : x.Pending G us) : x.Pending (.map f G) us := by
    cases x with
    | part => exact hopen hp
    | whole => exact hcomplete hp
  refine ⟨hcomplete h.inhabited, ?_, ?_⟩
  · rintro hx us us' _ _ hn ⟨a, ha, rfl⟩ ⟨a', ha', rfl⟩ hp
    obtain ⟨rfl, rfl⟩ := h.unique hx us us' a a' hn ha ha' hp
    exact ⟨rfl, rfl⟩
  · intro s hs
    have ho := h.outcome s hs
    generalize hr : p s = r at ho
    cases ho with
    | done hw =>
      rw [bind_ok hr]
      refine .done fun hx => ?_
      obtain ⟨us, hu, ha⟩ := hw hx
      exact ⟨us, hu, _, ha, rfl⟩
    | rule hc =>
      rw [bind_error hr]
      exact .rule hc
    | token hc hu ht hp hn =>
      rw [bind_error hr]
      exact .token hc hu ht (hpending hp) (mt hnot hn)
    | ending hc hu ht hp =>
      rw [bind_error hr]
      exact .ending hc hu ht (hopen hp)
    | source hu ht hp =>
      rw [bind_error hr]
      exact .source hu ht (hpending hp)

variable [LawfulTokenSource σ]

theorem Reads.length_lt {s s' : σ} {us : List Token} (h : Reads s us s')
    (hs : TokenSource.left s < n) : us.length < n := by
  have hle : us.length + TokenSource.left s' ≤ TokenSource.left s := by
    clear hs
    induction h with
    | nil => simp
    | cons ht _ ih =>
      have := LawfulTokenSource.left_lt ht
      rw [List.length_cons]
      omega
  omega

theorem Locates.bind {f : α → Scan σ β} {K : α → Lang β} (hp : Locates .part n p G)
    (hf : ∀ a, Locates x n (f a) (K a)) : Locates x n (p >>= f) (.seq G K) where
  inhabited := hp.inhabited.seq fun a => (hf a).inhabited
  unique hx := (hp.unique rfl).seq fun a => (hf a).unique hx
  outcome s hs := by
    have hG := hp.unique rfl
    have hK (a : α) : Completable (K a) [] := (hf a).inhabited
    have ho := hp.outcome s hs
    generalize hr : p s = r at ho
    cases ho with
    | @done a s₁ hw =>
      rw [bind_ok hr]
      obtain ⟨us, hu, ha⟩ := hw rfl
      -- the second production starts behind a word of `G`, which is cut off in one way only
      exact ((hf a).outcome s₁ (Nat.lt_of_le_of_lt hu.left_le hs)).append hu fun vs b =>
        seq_append_iff hG (hu.length_lt hs) ha
    | rule hc =>
      rw [bind_error hr]
      exact .rule hc
    | token hc hu ht hpend hn =>
      rw [bind_error hr]
      exact .token hc hu ht ((Unfinished.seq hG (hu.length_lt hs) hpend hK).pending x)
        (not_viable_seq hG (hu.length_lt hs) hpend hn)
    | ending hc hu ht hpend =>
      rw [bind_error hr]
      exact .ending hc hu ht (hpend.seq hG (hu.length_lt hs) hK)
    | source hu ht hpend =>
      rw [bind_error hr]
      exact .source hu ht ((Unfinished.seq hG (hu.length_lt hs) hpend hK).pending x)

theorem LocatesFrom.bind {f : α → Scan σ β} {K : α → Lang β} (hp : LocatesFrom t .part n p G)
    (hf : ∀ a, Locates x n (f a) (K a)) : LocatesFrom t x n (p >>= f) (.seq G K) := by
  cases hp with
  | locates hp => exact .locates (hp.bind hf)
  | refuses hG hp =>
    refine .refuses (fun hn ts b ⟨a, us, _, _, ha, _⟩ => hG hn us a ha) fun s hs => ?_
    obtain ⟨c, s', hc, hr⟩ := hp s hs
    exact ⟨c, s', hc, bind_error hr⟩

/-! ## Single tokens -/

/-- What a production finds behind the token `t`, which it has just read. -/
theorem LocatesFrom.outcome {s s₁ : σ} (h : LocatesFrom t x n p G) (ht : token? s = .ok (some t) s₁)
    (hs : TokenSource.left s < n + 1) {H : Lang α} (hH : ∀ vs a, H (t :: vs) a ↔ G vs a)
    (hpend : x.Pending H []) : Outcome x H s (p s₁) := by
  have hlt := LawfulTokenSource.left_lt ht
  cases h with
  | locates h => exact (h.outcome s₁ (by omega)).append (.cons ht .nil) hH
  | refuses hG hp =>
    obtain ⟨c, s', hc, hr⟩ := hp s₁ (by omega)
    rw [hr]
    refine .token hc .nil ht hpend ?_
    rintro ⟨vs, a, ha⟩
    exact hG (by omega) vs a ((hH vs a).1 ha)

theorem locates_require_bind {what : Demand} {f : Token → Scan σ β} {K : Token → Lang β}
    (hf : ∀ t, LocatesFrom t x n (f t) (K t))
    (hi : ∃ t, Lexical.Readable t.lexeme ∧ Completable (K t) []) :
    Locates x (n + 1) (require what >>= f) (.token K) := by
  have hcomplete : Completable (.token K) [] := by
    obtain ⟨t, ht, vs, b, hvs, hb⟩ := hi
    exact ⟨t :: vs, b, List.forall_mem_cons.2 ⟨ht, hvs⟩, t, vs, rfl, hb⟩
  have hopen : Unfinished (.token K) [] := ⟨hcomplete, fun b ⟨t, us, e, _⟩ => by cases e⟩
  refine ⟨hcomplete, ?_, ?_⟩
  · rintro hx _ _ b b' hn ⟨t, us, rfl, hb⟩ ⟨t', us', rfl, hb'⟩ hp
    obtain ⟨rfl, hus⟩ := List.cons_prefix_cons.1 hp
    obtain ⟨rfl, rfl⟩ := (hf t).unique hx us us' b b' (Nat.lt_of_succ_lt_succ hn) hb hb' hus
    exact ⟨rfl, rfl⟩
  · intro s hs
    unfold require
    rw [bind_assoc]
    cases ht : (token? : Scan σ (Option Token)) s with
    | error e s₁ =>
      rw [bind_error ht]
      exact .source .nil ht (hopen.pending x)
    | ok o s₁ =>
      rw [bind_ok ht]
      cases o with
      | none => exact .ending rfl (.nil : Reads s [] s) ht hopen
      | some t =>
        refine (hf t).outcome ht hs ?_ (hopen.pending x)
        intro vs b
        constructor
        · rintro ⟨_, _, e, hb⟩
          cases e
          exact hb
        · intro hb
          exact ⟨t, vs, rfl, hb⟩

omit [LawfulTokenSource σ] in
theorem locatesFrom_taken {what : Demand} {read : Token → Option α} {f : α → Scan σ β}
    {K : α → Lang β} (hf : ∀ a, read t = some a → LocatesFrom t x n (f a) (K a)) :
    LocatesFrom t x n
      ((match read t with | some a => pure a | none => refuseToken what t) >>= f)
      fun us b => ∃ a, read t = some a ∧ K a us b := by
  cases h : read t with
  | some a => exact (hf a h).congr fun us b => by simp
  | none => exact (locatesFrom_refuse rfl).congr fun us b => by simp

theorem locates_accept_bind {what : Demand} {read : Token → Option α} {f : α → Scan σ β}
    {K : α → Lang β} (hf : ∀ t a, read t = some a → LocatesFrom t x n (f a) (K a))
    (hi : ∃ t a, Lexical.Readable t.lexeme ∧ read t = some a ∧ Completable (K a) []) :
    Locates x (n + 1) (accept what read >>= f) (.taken read K) := by
  rw [accept_bind_eq]
  refine (locates_require_bind (fun t => locatesFrom_taken (hf t)) ?_).congr fun ts b => ?_
  · obtain ⟨t, a, ht, ha, vs, b, hvs, hb⟩ := hi
    exact ⟨t, ht, vs, b, hvs, a, ha, hb⟩
  · constructor
    · rintro ⟨t, us, rfl, a, ha, hb⟩
      exact ⟨t, us, a, rfl, ha, hb⟩
    · rintro ⟨t, us, a, rfl, ha, hb⟩
      exact ⟨t, us, rfl, a, ha, hb⟩

theorem locates_token {f : Token → Scan σ β} {K : Token → Lang β} (b₀ : β)
    (hf : ∀ t, LocatesFrom t .whole n (f t) (K t)) :
    Locates .whole (n + 1) (token? >>= fun o => match o with | none => pure b₀ | some t => f t)
      fun ts b => (ts = [] ∧ b = b₀) ∨ Lang.token K ts b := by
  have hcomplete : Completable (fun ts b => (ts = [] ∧ b = b₀) ∨ Lang.token K ts b) [] :=
    ⟨[], b₀, nofun, .inl ⟨rfl, rfl⟩⟩
  refine ⟨hcomplete, nofun, ?_⟩
  intro s hs
  cases ht : (token? : Scan σ (Option Token)) s with
  | error e s₁ =>
    rw [bind_error ht]
    exact .source .nil ht hcomplete
  | ok o s₁ =>
    rw [bind_ok ht]
    cases o with
    | none => exact .done nofun
    | some t =>
      refine (hf t).outcome ht hs ?_ hcomplete
      intro vs b
      constructor
      · rintro (⟨e, _⟩ | ⟨_, _, e, hb⟩)
        · cases e
        · cases e
          exact hb
      · intro hb
        exact .inr ⟨t, vs, rfl, hb⟩

omit [LawfulTokenSource σ] in
theorem locates_budgeted {p : Nat → Scan σ α} (hp : ∀ m, Locates x m (p m) G) :
    Locates x n (budgeted p) G where
  inhabited := (hp n).inhabited
  unique := (hp n).unique
  outcome s _ := (hp (TokenSource.left s + 1)).outcome s (Nat.lt_succ_self _)

end Rules

section Fields

variable [TokenSource σ] [PlainTokenSource σ] {x : Extent} {n : Nat} {p : Scan σ α} {G : Lang α}
  {t : Token}

/-- What is wrong with the syntax of a field stays where it is. -/
theorem Locates.inField (h : Locates x n p G) :
    Locates x n (EStateM.adaptExcept Failure.inField p) G where
  inhabited := h.inhabited
  unique := h.unique
  outcome s hs := by
    have ho := h.outcome s hs
    unfold EStateM.adaptExcept
    generalize p s = r at ho
    cases ho with
    | done hw => exact .done hw
    | rule hc =>
      have hne : ¬ _ = Layer.syntactic := fun h => by cases hc.layer.symm.trans h
      simp only [Failure.inField, if_neg hne]
      exact .rule hc
    | token hc hu ht hp hn =>
      simp only [Failure.inField, if_pos hc]
      exact .token rfl hu ht hp hn
    | ending hc hu ht hp =>
      simp only [Failure.inField, if_pos hc]
      exact .ending rfl hu ht hp
    | source hu ht hp =>
      simp only [(PlainTokenSource.fromBelow ht).inField]
      exact .source hu ht hp

theorem LocatesFrom.inField (h : LocatesFrom t x n p G) :
    LocatesFrom t x n (EStateM.adaptExcept Failure.inField p) G := by
  cases h with
  | locates h => exact .locates h.inField
  | refuses hG hp =>
    refine .refuses hG fun s hs => ?_
    obtain ⟨c, s', hc, hr⟩ := hp s hs
    refine ⟨.invalidField c, s', rfl, ?_⟩
    simp only [EStateM.adaptExcept, hr, Failure.inField, if_pos hc]

end Fields

end Syntactic
end ProtoSchema
