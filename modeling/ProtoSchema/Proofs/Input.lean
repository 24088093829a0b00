import ProtoSchema.Input.Bytes

/-!
# ProtoSchema.Proofs.Input

Scans as relations. `Scan.Yields` is the relation of a repeated step, and `Scan.many_eq_ok_iff`
says that the loop computes it. On bytes in memory every basic scan has a closed form, which the
lemmas of the namespace `Bytes` state.
-/

namespace ProtoSchema
namespace Scan

open ByteInput

variable {σ α β : Type}

/-- A step that yields the values `as` one after another and then stops in `s'`. -/
inductive Yields (step : Scan σ (Option α)) : σ → List α → σ → Prop where
  | stop {s s' : σ} : step s = .ok none s' → Yields step s [] s'
  | more {s s₁ s' : σ} {a : α} {as : List α} :
      step s = .ok (some a) s₁ → Yields step s₁ as s' → Yields step s (a :: as) s'

section Loops

variable [ByteInput σ]

theorem run_error {step : Scan σ (Option α)} (h : Progresses step) {s s' : σ} {e : Failure}
    (hs : step s = .error e s') : run step h s = ⟨[], some e, s'⟩ := by
  rw [run]
  split <;> simp_all

theorem run_none {step : Scan σ (Option α)} (h : Progresses step) {s s' : σ}
    (hs : step s = .ok none s') : run step h s = ⟨[], none, s'⟩ := by
  rw [run]
  split <;> simp_all

theorem run_some {step : Scan σ (Option α)} (h : Progresses step) {s s₁ : σ} {a : α}
    (hs : step s = .ok (some a) s₁) : run step h s =
      ⟨a :: (run step h s₁).items, (run step h s₁).failure, (run step h s₁).final⟩ := by
  rw [run]
  split <;> simp_all

theorem run_eq_iff {step : Scan σ (Option α)} (h : Progresses step) {s s' : σ} {as : List α} :
    run step h s = ⟨as, none, s'⟩ ↔ Yields step s as s' := by
  constructor
  · intro e
    fun_induction run step h s generalizing as with
    | case1 => cases e
    | case2 s s₁ hs => cases e; exact .stop hs
    | case3 s a s₁ hs r =>
      rename_i ih
      simp only [Run.mk.injEq] at e
      obtain ⟨rfl, hf, rfl⟩ := e
      refine .more hs (ih ?_)
      rw [← hf]
  · intro y
    induction y with
    | stop hs => rw [run_none h hs]
    | more hs _ ih => rw [run_some h hs, ih]

/-- The loop computes the relation of its step. -/
theorem many_eq_ok_iff {step : Scan σ (Option α)} (h : Progresses step) {s s' : σ} {as : List α} :
    many step h s = .ok as s' ↔ Yields step s as s' := by
  rw [← run_eq_iff h, many]
  constructor
  · intro e
    split at e
    · next hr => cases e; exact hr
    · cases e
  · intro hr
    rw [hr]

theorem many_error {step : Scan σ (Option α)} (h : Progresses step) {s s' : σ} {e : Failure}
    (hs : step s = .error e s') : many step h s = .error e s' := by
  rw [many, run_error h hs]

theorem many_some {step : Scan σ (Option α)} (h : Progresses step) {s s₁ s' : σ} {a : α}
    {as : List α} (hs : step s = .ok (some a) s₁) (hm : many step h s₁ = .ok as s') :
    many step h s = .ok (a :: as) s' :=
  (many_eq_ok_iff h).2 (.more hs ((many_eq_ok_iff h).1 hm))

theorem many_some_error {step : Scan σ (Option α)} (h : Progresses step) {s s₁ s' : σ} {a : α}
    {e : Failure} (hs : step s = .ok (some a) s₁) (hm : many step h s₁ = .error e s') :
    many step h s = .error e s' := by
  unfold many at hm ⊢
  rw [run_some h hs]
  generalize run step h s₁ = r at hm ⊢
  obtain ⟨as, _ | e', t⟩ := r
  · cases hm
  · exact hm

/-- Where a loop fails, its step fails. -/
theorem step_of_run_failure {step : Scan σ (Option α)} (h : Progresses step) {s : σ} {e : Failure}
    (hf : (run step h s).failure = some e) : ∃ s₁, step s₁ = .error e (run step h s).final := by
  fun_induction run step h s with
  | case1 s _ _ hs => cases hf; exact ⟨s, hs⟩
  | case2 => cases hf
  | case3 _ _ _ _ _ ih => exact ih hf

theorem step_of_many_error {step : Scan σ (Option α)} (h : Progresses step) {s s' : σ} {e : Failure}
    (hm : many step h s = .error e s') : ∃ s₁, step s₁ = .error e s' := by
  have hf := step_of_run_failure h (s := s) (e := e)
  unfold many at hm
  split at hm
  · cases hm
  · next hr =>
    cases hm
    rw [hr] at hf
    exact hf rfl

theorem takeWhile_stop {q : UInt8 → Bool} {s s' : σ} (h : takeIf q s = .ok none s') :
    takeWhile q s = .ok [] s' :=
  (many_eq_ok_iff _).2 (.stop h)

theorem first_error {q : α → Bool} {step : Scan σ (Option α)} (h : Progresses step) {s s' : σ}
    {e : Failure} (hs : step s = .error e s') : first q step h s = .error e s' := by
  rw [first]
  split <;> simp_all

theorem first_none {q : α → Bool} {step : Scan σ (Option α)} (h : Progresses step) {s s' : σ}
    (hs : step s = .ok none s') : first q step h s = .ok none s' := by
  rw [first]
  split <;> simp_all

theorem first_some {q : α → Bool} {step : Scan σ (Option α)} (h : Progresses step) {s s' : σ} {a : α}
    (hs : step s = .ok (some a) s') :
    first q step h s = if q a then .ok (some a) s' else first q step h s' := by
  rw [first]
  split <;> simp_all

theorem first_congr {q : α → Bool} {step : Scan σ (Option α)} (h : Progresses step) {s t : σ}
    (e : step s = step t) : first q step h s = first q step h t := by
  cases ht : step t with
  | error _ _ => rw [first_error h ht, first_error h (e.trans ht)]
  | ok o _ =>
    cases o with
    | none => rw [first_none h ht, first_none h (e.trans ht)]
    | some _ => rw [first_some h ht, first_some h (e.trans ht)]

/-- What is read past some values is a value of the step. -/
theorem step_of_first {q : α → Bool} {step : Scan σ (Option α)} (h : Progresses step) {s s' : σ}
    {a : α} (e : first q step h s = .ok (some a) s') : ∃ s₁, step s₁ = .ok (some a) s' := by
  fun_induction first q step h s with
  | case1 => cases e
  | case2 => cases e
  | case3 s b s₁ hs hq => cases e; exact ⟨s, hs⟩
  | case4 _ _ _ _ _ ih => exact ih e

theorem none_of_first {q : α → Bool} {step : Scan σ (Option α)} (h : Progresses step) {s s' : σ}
    (e : first q step h s = .ok none s') : ∃ s₁, step s₁ = .ok none s' := by
  fun_induction first q step h s with
  | case1 => cases e
  | case2 s s₁ hs => cases e; exact ⟨s, hs⟩
  | case3 => cases e
  | case4 _ _ _ _ _ ih => exact ih e

theorem run_congr {step : Scan σ (Option α)} (h : Progresses step) {s t : σ} (e : step s = step t) :
    run step h s = run step h t := by
  cases ht : step t with
  | error _ _ => rw [run_error h ht, run_error h (e.trans ht)]
  | ok o _ =>
    cases o with
    | none => rw [run_none h ht, run_none h (e.trans ht)]
    | some _ => rw [run_some h ht, run_some h (e.trans ht)]

/-- The values that satisfy `q`, read one after another, are all such values that there are. -/
theorem run_first (q : α → Bool) {step : Scan σ (Option α)} (h : Progresses step) (s : σ) :
    run (first q step h) h.first s =
      ⟨(run step h s).items.filter q, (run step h s).failure, (run step h s).final⟩ := by
  fun_induction run step h s with
  | case1 s e s' hs => rw [run_error _ (first_error h hs), List.filter_nil]
  | case2 s s' hs => rw [run_none _ (first_none h hs), List.filter_nil]
  | case3 s a s' hs r ih =>
    have hf := first_some (q := q) h hs
    by_cases hq : q a = true
    · rw [if_pos hq] at hf
      rw [run_some _ hf, ih, List.filter_cons_of_pos hq]
    · rw [if_neg hq] at hf
      rw [run_congr _ hf, ih, List.filter_cons_of_neg hq]

theorem Yields.first {q : α → Bool} {step : Scan σ (Option α)} (h : Progresses step) {s s' : σ}
    {as : List α} (y : Yields step s as s') : Yields (first q step h) s (as.filter q) s' := by
  have hr := run_first q h s
  rw [(run_eq_iff h).2 y] at hr
  exact (run_eq_iff _).1 hr

end Loops

theorem Yields.unique {step : Scan σ (Option α)} {s s₁ s₂ : σ} {as bs : List α}
    (y : Yields step s as s₁) (y' : Yields step s bs s₂) : as = bs ∧ s₁ = s₂ := by
  induction y generalizing bs with
  | stop hs =>
    cases y' with
    | stop hs' => cases hs.symm.trans hs'; exact ⟨rfl, rfl⟩
    | more hs' _ => cases hs.symm.trans hs'
  | more hs _ ih =>
    cases y' with
    | stop hs' => cases hs.symm.trans hs'
    | more hs' y' =>
      cases hs.symm.trans hs'
      obtain ⟨rfl, rfl⟩ := ih y'
      exact ⟨rfl, rfl⟩

theorem bind_ok {m : Scan σ α} {f : α → Scan σ β} {s s₁ : σ} {a : α} (h : m s = .ok a s₁) :
    (m >>= f) s = f a s₁ := by
  show EStateM.bind m f s = _
  simp only [EStateM.bind, h]

theorem bind_error {m : Scan σ α} {f : α → Scan σ β} {s s₁ : σ} {e : Failure}
    (h : m s = .error e s₁) : (m >>= f) s = .error e s₁ := by
  show EStateM.bind m f s = _
  simp only [EStateM.bind, h]

@[simp] theorem pure_apply (a : α) (s : σ) : (pure a : Scan σ α) s = .ok a s := rfl

@[simp] theorem refuse_apply (c : Cause) (p : Position) (s : σ) :
    (refuse c p : Scan σ α) s = .error (.refused ⟨c, p⟩) s := rfl

end Scan

namespace Bytes

open Scan

variable {α : Type} {b : UInt8} {bs : List UInt8} {p : Position}

@[simp] theorem place_apply (s : Bytes) : place s = .ok s.position s := rfl

@[simp] theorem ahead_apply (n : Nat) (s : Bytes) :
    (ByteInput.ahead n : Scan Bytes (List UInt8)) s = .ok (s.rest.take n) s := rfl

@[simp] theorem peek_nil : peek (⟨[], p⟩ : Bytes) = .ok none ⟨[], p⟩ := rfl

@[simp] theorem peek_cons : peek (⟨b :: bs, p⟩ : Bytes) = .ok (some b) ⟨b :: bs, p⟩ := rfl

@[simp] theorem advance_cons : advance (⟨b :: bs, p⟩ : Bytes) = .ok () ⟨bs, p.next b⟩ := rfl

@[simp] theorem take_nil : take (⟨[], p⟩ : Bytes) = .ok none ⟨[], p⟩ := rfl

@[simp] theorem take_cons : take (⟨b :: bs, p⟩ : Bytes) = .ok (some b) ⟨bs, p.next b⟩ := rfl

theorem takeIf_nil (q : UInt8 → Bool) : takeIf q (⟨[], p⟩ : Bytes) = .ok none ⟨[], p⟩ := rfl

theorem takeIf_cons (q : UInt8 → Bool) :
    takeIf q (⟨b :: bs, p⟩ : Bytes) =
      if q b then .ok (some b) ⟨bs, p.next b⟩ else .ok none ⟨b :: bs, p⟩ := by
  unfold takeIf
  rw [bind_ok peek_cons]
  simp only
  split
  · rw [bind_ok advance_cons]; rfl
  · rfl

/-- A run of bytes ends before the first byte that does not belong to it. -/
theorem takeWhile_apply (q : UInt8 → Bool) (bs : List UInt8) (p : Position) :
    takeWhile q (⟨bs, p⟩ : Bytes) =
      .ok (bs.takeWhile q) ⟨bs.dropWhile q, p.after (bs.takeWhile q)⟩ := by
  rw [Scan.takeWhile, many_eq_ok_iff]
  induction bs generalizing p with
  | nil => exact .stop (takeIf_nil q)
  | cons b bs ih =>
    have h : takeIf q (⟨b :: bs, p⟩ : Bytes) = _ := takeIf_cons q
    cases hb : q b with
    | true =>
      rw [hb, if_pos rfl] at h
      simp only [List.takeWhile_cons, List.dropWhile_cons, hb, if_true]
      exact .more h (ih (p.next b))
    | false =>
      rw [hb, if_neg (by simp)] at h
      simp only [List.takeWhile_cons, List.dropWhile_cons, hb, Bool.false_eq_true, if_false]
      exact .stop h

/-- A run of bytes with a byte behind it, or the end, that does not belong to it. -/
theorem takeWhile_append {q : UInt8 → Bool} {x rest : List UInt8} (hx : ∀ c ∈ x, q c = true)
    (hr : ∀ c ∈ rest.head?, q c = false) (p : Position) :
    takeWhile q (⟨x ++ rest, p⟩ : Bytes) = .ok x ⟨rest, p.after x⟩ := by
  have h₀ : rest.takeWhile q = [] ∧ rest.dropWhile q = rest := by
    cases rest with
    | nil => exact ⟨rfl, rfl⟩
    | cons c cs => simp [hr c rfl]
  rw [takeWhile_apply, List.takeWhile_append_of_pos hx, List.dropWhile_append_of_pos hx, h₀.1, h₀.2,
    List.append_nil]

end Bytes
end ProtoSchema
