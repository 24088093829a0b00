import ProtoSchema.Proofs.Input

/-!
# ProtoSchema.Proofs.Coupling

Two runs of one scan, side by side, on two kinds of input. A `Coupling` says which states belong
together and how the runs may part: the left one may lose its input, and then the state of the right
one has a mark that no later step wipes off. A scan `Couples` with another if from states that belong
together both give the same value or fail alike, and end in states that belong together again, or the
left one has lost its input.

States that belong together are counted by an index, so that what a scan knows about the states can
run along: which bytes have been shown, or how much of a budget is left.

There is one rule for each way in which scans are put together.
-/

namespace ProtoSchema
namespace Scan

variable {ι σ τ α β : Type}

/-- The state that a scan ends in. -/
def endState : EStateM.Result Failure σ α → σ
  | .ok _ s => s
  | .error _ s => s

/-- Which states of two inputs belong together, what it means that the left run has lost its input, and
the mark that this leaves on the right state. Both runs may fail alike with a failure that is `Fair`. -/
structure Coupling (Fair : Failure → Prop) (ι σ τ : Type) where
  Rel : ι → σ → τ → Prop
  Lost : Failure → σ → Prop
  Gone : τ → Prop

namespace Coupling

variable {Fair : Failure → Prop} {C : Coupling Fair ι σ τ}

/-- How two runs may end: alike, or with the left one having lost its input. -/
inductive Ends (C : Coupling Fair ι σ τ) (j : α → ι) :
    EStateM.Result Failure σ α → EStateM.Result Failure τ α → Prop where
  | ok {a : α} {s : σ} {t : τ} : C.Rel (j a) s t → Ends C j (.ok a s) (.ok a t)
  | error {e : Failure} {i : ι} {s : σ} {t : τ} :
      Fair e → C.Rel i s t → Ends C j (.error e s) (.error e t)
  | lost {e : Failure} {s : σ} {r : EStateM.Result Failure τ α} :
      C.Lost e s → C.Gone (endState r) → Ends C j (.error e s) r

/-- From states at the index `i` the scans end alike, at the index that `j` says of the value, and the
right one keeps the mark. -/
structure Couples (C : Coupling Fair ι σ τ) (i : ι) (m : Scan σ α) (m' : Scan τ α) (j : α → ι) : Prop where
  ends : ∀ s t, C.Rel i s t → C.Ends j (m s) (m' t)
  gone : ∀ t, C.Gone t → C.Gone (endState (m' t))

variable {i k : ι} {j : α → ι} {m : Scan σ α} {m' : Scan τ α}

theorem Couples.ends_of_eq {s : σ} {t : τ} {r : EStateM.Result Failure σ α}
    {r' : EStateM.Result Failure τ α} (h : C.Couples i m m' j) (hr : C.Rel i s t) (hl : m s = r)
    (hl' : m' t = r') : C.Ends j r r' := by
  rw [← hl, ← hl']
  exact h.ends s t hr

theorem Couples.gone_of_eq {t : τ} {r' : EStateM.Result Failure τ α} (h : C.Couples i m m' j)
    (hg : C.Gone t) (hl' : m' t = r') : C.Gone (endState r') := by
  rw [← hl']
  exact h.gone t hg

/-- More may be known of the states before, and less of those after. -/
theorem Couples.weaken {j' : α → ι} (h : C.Couples i m m' j)
    (hi : ∀ s t, C.Rel k s t → C.Rel i s t) (hj : ∀ a s t, C.Rel (j a) s t → C.Rel (j' a) s t) :
    C.Couples k m m' j' := by
  refine ⟨?_, h.gone⟩
  intro s t hr
  generalize hl : m s = r
  generalize hl' : m' t = r'
  cases h.ends_of_eq (hi s t hr) hl hl' with
  | ok hr => exact .ok (hj _ _ _ hr)
  | error he hr => exact .error he hr
  | lost hlost hg => exact .lost hlost hg

theorem couples_pure (a : α) (h : ∀ s t, C.Rel i s t → C.Rel (j a) s t) :
    C.Couples i (pure a) (pure a) j :=
  ⟨fun s t hr => .ok (h s t hr), fun _ hg => hg⟩

theorem couples_throw {e : Failure} (he : Fair e) : C.Couples i (throw e) (throw e) j :=
  ⟨fun _ _ hr => .error he hr, fun _ hg => hg⟩

theorem couples_refuse {c : Cause} {p : Position} (he : Fair (.refused ⟨c, p⟩)) :
    C.Couples i (refuse c p) (refuse c p) j :=
  couples_throw he

theorem couples_bind {f : α → Scan σ β} {f' : α → Scan τ β} {j' : β → ι} (h : C.Couples i m m' j)
    (hf : ∀ a, C.Couples (j a) (f a) (f' a) j') : C.Couples i (m >>= f) (m' >>= f') j' := by
  constructor
  · intro s t hr
    generalize hl : m s = r
    generalize hl' : m' t = r'
    cases h.ends_of_eq hr hl hl' with
    | ok hr =>
      rw [bind_ok hl, bind_ok hl']
      exact (hf _).ends _ _ hr
    | error he hr =>
      rw [bind_error hl, bind_error hl']
      exact .error he hr
    | lost hlost hg =>
      -- the right scan may go on alone, and its state keeps the mark
      rw [bind_error hl]
      refine .lost hlost ?_
      cases r' with
      | ok a t₁ =>
        rw [bind_ok hl']
        exact (hf a).gone t₁ hg
      | error e t₁ =>
        rw [bind_error hl']
        exact hg
  · intro t hg
    cases hl' : m' t with
    | ok a t₁ =>
      rw [bind_ok hl']
      exact (hf a).gone t₁ (h.gone_of_eq hg hl')
    | error e t₁ =>
      rw [bind_error hl']
      exact h.gone_of_eq hg hl'

theorem couples_ite {c : Prop} [Decidable c] {n : Scan σ α} {n' : Scan τ α}
    (h : c → C.Couples i m m' j) (h' : ¬ c → C.Couples i n n' j) :
    C.Couples i (if c then m else n) (if c then m' else n') j := by
  by_cases hc : c
  · rw [if_pos hc, if_pos hc]
    exact h hc
  · rw [if_neg hc, if_neg hc]
    exact h' hc

theorem couples_adaptExcept {f : Failure → Failure} (h : C.Couples i m m' j)
    (hfair : ∀ e, Fair e → Fair (f e)) (hlost : ∀ e s, C.Lost e s → C.Lost (f e) s) :
    C.Couples i (EStateM.adaptExcept f m) (EStateM.adaptExcept f m') j := by
  have state (r : EStateM.Result Failure τ α) : ∀ t, m' t = r →
      endState (EStateM.adaptExcept f m' t) = endState r := by
    intro t hl
    cases r <;> simp only [EStateM.adaptExcept, hl, endState]
  constructor
  · intro s t hr
    generalize hl : m s = r
    generalize hl' : m' t = r'
    cases h.ends_of_eq hr hl hl' with
    | ok hr =>
      simp only [EStateM.adaptExcept, hl, hl']
      exact .ok hr
    | error he hr =>
      simp only [EStateM.adaptExcept, hl, hl']
      exact .error (hfair _ he) hr
    | lost hlost' hg =>
      simp only [EStateM.adaptExcept, hl]
      exact .lost (hlost _ _ hlost') (state _ t hl' ▸ hg)
  · intro t hg
    exact state _ t rfl ▸ h.gone t hg

/-! ## Loops -/

section Loops

/-- How two loops may end. -/
inductive RunEnds (C : Coupling Fair ι σ τ) (i : ι) : Run σ α → Run τ α → Prop where
  | done {as : List α} {s : σ} {t : τ} : C.Rel i s t → RunEnds C i ⟨as, none, s⟩ ⟨as, none, t⟩
  | failed {as : List α} {e : Failure} {k : ι} {s : σ} {t : τ} :
      Fair e → C.Rel k s t → RunEnds C i ⟨as, some e, s⟩ ⟨as, some e, t⟩
  | lost {as : List α} {e : Failure} {s : σ} {r : Run τ α} :
      C.Lost e s → C.Gone r.final → RunEnds C i ⟨as, some e, s⟩ r

theorem RunEnds.cons {r : Run σ α} {r' : Run τ α} (h : RunEnds C i r r') (a : α) :
    RunEnds C i ⟨a :: r.items, r.failure, r.final⟩ ⟨a :: r'.items, r'.failure, r'.final⟩ := by
  cases h with
  | done hr => exact .done hr
  | failed he hr => exact .failed he hr
  | lost hlost hg => exact .lost hlost hg

variable [ByteInput τ] {step : Scan σ (Option α)} {step' : Scan τ (Option α)}

theorem gone_run (h' : Progresses step') (hs : C.Couples i step step' fun _ => i) (t : τ)
    (hg : C.Gone t) : C.Gone (run step' h' t).final := by
  fun_induction run step' h' t with
  | case1 t e t₁ ht => exact hs.gone_of_eq hg ht
  | case2 t t₁ ht => exact hs.gone_of_eq hg ht
  | case3 t a t₁ ht r ih => exact ih (hs.gone_of_eq hg ht)

theorem gone_first (q : α → Bool) (h' : Progresses step')
    (hs : C.Couples i step step' fun _ => i) (t : τ) (hg : C.Gone t) :
    C.Gone (endState (first q step' h' t)) := by
  fun_induction first q step' h' t with
  | case1 t e t₁ ht => exact hs.gone_of_eq hg ht
  | case2 t t₁ ht => exact hs.gone_of_eq hg ht
  | case3 t a t₁ ht hq => exact hs.gone_of_eq hg ht
  | case4 t a t₁ ht hq ih => exact ih (hs.gone_of_eq hg ht)

variable [ByteInput σ]

/-- A step that leads back to where it starts from may be repeated. -/
theorem runEnds_run (h : Progresses step) (h' : Progresses step')
    (hs : C.Couples i step step' fun _ => i) (s : σ) (t : τ) (hr : C.Rel i s t) :
    RunEnds C i (run step h s) (run step' h' t) := by
  -- the left loop gives the cases; where it is lost, any number of rounds may be left on the right
  fun_induction run step h s generalizing t with
  | case1 s e s₁ hl =>
    generalize hl' : step' t = r'
    cases hs.ends_of_eq hr hl hl' with
    | error he hr =>
      rw [run_error h' hl']
      exact .failed he hr
    | lost hlost hg =>
      refine .lost hlost ?_
      cases r' with
      | error e t₁ =>
        rw [run_error h' hl']
        exact hg
      | ok o t₁ =>
        cases o with
        | none =>
          rw [run_none h' hl']
          exact hg
        | some a =>
          rw [run_some h' hl']
          exact gone_run h' hs t₁ hg
  | case2 s s₁ hl =>
    generalize hl' : step' t = r'
    cases hs.ends_of_eq hr hl hl' with
    | ok hr =>
      rw [run_none h' hl']
      exact .done hr
  | case3 s a s₁ hl r ih =>
    generalize hl' : step' t = r'
    cases hs.ends_of_eq hr hl hl' with
    | ok hr =>
      rw [run_some h' hl']
      exact (ih _ hr).cons a

theorem couples_many (h : Progresses step) (h' : Progresses step')
    (hs : C.Couples i step step' fun _ => i) :
    C.Couples i (many step h) (many step' h') fun _ => i := by
  have state (t : τ) : endState (many step' h' t) = (run step' h' t).final := by
    unfold many
    split <;> simp only [endState, *]
  constructor
  · intro s t hr
    have hm := runEnds_run h h' hs s t hr
    have ht := state t
    unfold many at ht ⊢
    generalize run step h s = r at hm
    generalize run step' h' t = r' at hm ht
    cases hm with
    | done hr => exact .ok hr
    | failed he hr => exact .error he hr
    | lost hl hg => exact .lost hl (ht ▸ hg)
  · intro t hg
    rw [state]
    exact gone_run h' hs t hg

theorem couples_first (q : α → Bool) (h : Progresses step) (h' : Progresses step')
    (hs : C.Couples i step step' fun _ => i) :
    C.Couples i (first q step h) (first q step' h') fun _ => i := by
  refine ⟨?_, gone_first q h' hs⟩
  intro s t hr
  fun_induction first q step h s generalizing t with
  | case1 s e s₁ hl =>
    generalize hl' : step' t = r'
    cases hs.ends_of_eq hr hl hl' with
    | error he hr =>
      rw [first_error h' hl']
      exact .error he hr
    | lost hlost hg =>
      refine .lost hlost ?_
      cases r' with
      | error e t₁ =>
        rw [first_error h' hl']
        exact hg
      | ok o t₁ =>
        cases o with
        | none =>
          rw [first_none h' hl']
          exact hg
        | some a =>
          rw [first_some h' hl']
          split
          · exact hg
          · exact gone_first q h' hs t₁ hg
  | case2 s s₁ hl =>
    generalize hl' : step' t = r'
    cases hs.ends_of_eq hr hl hl' with
    | ok hr =>
      rw [first_none h' hl']
      exact .ok hr
  | case3 s a s₁ hl hq =>
    generalize hl' : step' t = r'
    cases hs.ends_of_eq hr hl hl' with
    | ok hr =>
      rw [first_some h' hl', if_pos hq]
      exact .ok hr
  | case4 s a s₁ hl hq ih =>
    generalize hl' : step' t = r'
    cases hs.ends_of_eq hr hl hl' with
    | ok hr =>
      rw [first_some h' hl', if_neg hq]
      exact ih _ hr

end Loops

end Coupling
end Scan
end ProtoSchema
