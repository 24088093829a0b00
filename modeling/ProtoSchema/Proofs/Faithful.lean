import ProtoSchema.Input.Cursor
import ProtoSchema.Proofs.Lexical.Coupled

/-!
# ProtoSchema.Proofs.Faithful

Reading from any input is reading from bytes in memory. An input is `Faithful` if it hands out one
byte list, byte after byte; bytes in memory and cursors are. Such an input is coupled with the bytes
that it will hand out (`Faithful.coupling`), and is lost only if it cannot be read.
-/

namespace ProtoSchema

/-- An input that hands out the byte list `bytes`, of which `shown` bytes have been shown. -/
class Faithful (σ : Type) [ByteInput σ] where
  bytes : σ → List UInt8
  shown : σ → Nat
  ahead_ok : ∀ {n : Nat} {s s' : σ} {bs : List UInt8}, ByteInput.ahead n s = .ok bs s' →
    bs = (bytes s).take n ∧ bytes s' = bytes s ∧
      ByteInput.position s' = ByteInput.position s ∧ bs.length ≤ shown s'
  ahead_error : ∀ {n : Nat} {s s' : σ} {e : Failure}, n ≤ 2 →
    ByteInput.ahead n s = .error e s' → e.Unreadable
  skip_shown : ∀ {s : σ}, 0 < shown s → ∃ b, bytes s = b :: bytes (ByteInput.skip s) ∧
    ByteInput.position (ByteInput.skip s) = (ByteInput.position s).next b ∧
      shown s ≤ shown (ByteInput.skip s) + 1

instance : Faithful Bytes where
  bytes s := s.rest
  shown s := s.rest.length
  ahead_ok h := by
    cases h
    exact ⟨rfl, rfl, rfl, List.length_take_le' ..⟩
  ahead_error _ h := by cases h
  skip_shown {s} h := by
    obtain ⟨_ | ⟨b, bs⟩, p⟩ := s
    · cases h
    · exact ⟨b, rfl, rfl, Nat.le_refl _⟩

namespace Stream

/-- The bytes that come before the first empty answer. -/
def offered (s : Stream) : List UInt8 := (s.chunks.takeWhile (!·.isEmpty)).flatten

theorem offered_of_read {n : Nat} (hn : 0 < n) {s s' : Stream} {bs : List UInt8}
    (h : s.read n = (.ok bs, s')) :
    (bs = [] ∧ s.offered = []) ∨ (bs ≠ [] ∧ s.offered = bs ++ s'.offered) := by
  unfold read at h
  cases hc : s.chunks with
  | nil =>
    simp only [hc] at h
    split at h
    · cases h
      exact .inl ⟨rfl, by simp [offered, hc]⟩
    · cases h
  | cons c cs =>
    simp only [hc] at h
    cases h
    cases c with
    | nil => exact .inl ⟨by simp, by simp [offered, hc]⟩
    | cons b c =>
      refine .inr ⟨by simp; omega, ?_⟩
      have hput : ((putBack ((b :: c).drop n) cs).takeWhile (!·.isEmpty)).flatten =
          (b :: c).drop n ++ (cs.takeWhile (!·.isEmpty)).flatten := by
        cases (b :: c).drop n <;> simp [putBack]
      simp only [offered, hc, hput, List.takeWhile_cons, List.isEmpty_cons, Bool.not_false, if_true,
        List.flatten_cons]
      rw [← List.append_assoc, List.take_append_drop]

end Stream

namespace Cursor

/-- The bytes that a cursor hands out: those of its window, and what its stream offers unless it has
ended. -/
def offered (c : Cursor) : List UInt8 := c.window ++ if c.ended then [] else c.stream.offered

theorem fill_ok {n : Nat} {c c' : Cursor} (h : fill n c = .ok () c') :
    c'.offered = c.offered ∧ c'.position = c.position ∧
      (n ≤ c'.window.length ∨ c'.ended = true) := by
  fun_induction fill n c with
  | case1 c hn => cases h; exact ⟨rfl, rfl, hn⟩
  | case2 => cases h
  | case3 c hn s hr =>
    cases h
    rcases Stream.offered_of_read (by omega) hr with ⟨_, ho⟩ | ⟨hne, _⟩
    · exact ⟨by simp [offered, ho], rfl, .inr rfl⟩
    · exact absurd rfl hne
  | case4 c hn b bs s hr ih =>
    obtain ⟨ho, hp, hlen⟩ := ih h
    refine ⟨?_, hp, hlen⟩
    have he : c.ended = false := by
      cases he : c.ended with
      | false => rfl
      | true => exact absurd (.inr he) hn
    rcases Stream.offered_of_read (by omega) hr with ⟨h, _⟩ | ⟨_, hs⟩
    · cases h
    · rw [ho]
      simp [offered, he, hs]

theorem fill_error {n : Nat} {c c' : Cursor} {e : Failure} (h : fill n c = .error e c') :
    e.Unreadable := by
  fun_induction fill n c with
  | case1 => cases h
  | case2 => cases h; exact ⟨_, _, rfl⟩
  | case3 => cases h
  | case4 _ _ _ _ _ _ ih => exact ih h

instance : Faithful Cursor where
  bytes := offered
  shown c := c.window.length
  ahead_ok {n c c' bs} h := by
    have h : Cursor.ahead n c = .ok bs c' := h
    unfold Cursor.ahead at h
    split at h
    · cases h
    · split at h
      · next hf =>
        cases h
        obtain ⟨ho, hp, hlen⟩ := fill_ok hf
        refine ⟨?_, ho, hp, List.length_take_le' ..⟩
        rw [← ho]
        rcases hlen with hlen | he
        · rw [offered, List.take_append_of_le_length hlen]
        · simp [offered, he]
      · cases h
  ahead_error {n c c' e} hn h := by
    have h : Cursor.ahead n c = .error e c' := h
    unfold Cursor.ahead at h
    split at h
    · next hw => simp only [windowSize] at hw; omega
    · split at h
      · cases h
      · next hf =>
        cases h
        exact fill_error hf
  skip_shown {c} h := by
    obtain ⟨s, _ | ⟨b, w⟩, ended, p⟩ := c
    · cases h
    · exact ⟨b, rfl, rfl, Nat.le_refl _⟩

end Cursor

namespace Faithful

open Scan

variable {σ : Type} [ByteInput σ] [Faithful σ]

/-- An input as the bytes in memory that it will hand out. -/
def view (s : σ) : Bytes := ⟨bytes s, ByteInput.position s⟩

/-- A faithful input beside its bytes in memory. -/
def coupling : InputCoupling σ Bytes where
  Rel w s t := t = view s ∧ w <+: bytes s ∧ w.length ≤ shown s
  Lost e _ := e.Unreadable
  Gone _ := True
  lost h := h
  shorten h hr := ⟨hr.1, h.trans hr.2.1, Nat.le_trans h.length_le hr.2.2⟩
  place hr := by
    rw [hr.1]
    rfl
  ahead {n w} hn := by
    refine ⟨?_, fun _ _ => trivial⟩
    rintro s t ⟨rfl, _⟩
    cases h : ByteInput.ahead n s with
    | ok bs s' =>
      obtain ⟨hbs, hbytes, hpos, hlen⟩ := ahead_ok h
      rw [Bytes.ahead_apply, view, ← hbs, ← hbytes, ← hpos]
      exact .ok ⟨rfl, hbs ▸ hbytes ▸ List.take_prefix n _, hlen⟩
    | error e s' =>
      have hle : n ≤ 2 := by cases hn <;> omega
      exact .lost (ahead_error hle h) trivial
  skip {b w s t} hr := by
    obtain ⟨rfl, hw, hk⟩ := hr
    obtain ⟨c, hb, hp, hk'⟩ := skip_shown (Nat.lt_of_lt_of_le (Nat.succ_pos _) hk)
    rw [hb, List.cons_prefix_cons] at hw
    rw [List.length_cons] at hk
    refine ⟨?_, hw.2, by omega⟩
    rw [view, hb, view, hp]
    rfl
  gone_skip h := h

theorem coupling_rel (s : σ) : coupling.Rel [] s (view s) :=
  ⟨rfl, List.nil_prefix, Nat.zero_le _⟩

/-- A token is read from an input as it is read from its bytes in memory. -/
theorem next_view {s s' : σ} {o : Option Token} (h : Lexer.next s = .ok o s') :
    Lexer.next (view s) = .ok o (view s') := by
  generalize h' : Lexer.next (view s) = r
  cases coupling.couples_next.ends_of_eq (coupling_rel s) h h' with
  | ok hr => rw [hr.1]

/-- The tokens of an input end as those of its bytes in memory, unless it cannot be read. -/
theorem tokens_view (s : σ) :
    Coupling.RunEnds coupling.toCoupling [] (Lexer.tokens s) (Lexer.tokens (view s)) :=
  Coupling.runEnds_run Lexer.progresses_next Lexer.progresses_next coupling.couples_next s (view s)
    (coupling_rel s)

end Faithful
end ProtoSchema
