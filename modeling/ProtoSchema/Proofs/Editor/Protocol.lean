import Mathlib.Data.List.Forall2
import ProtoSchema.Editor.Range

/-!
# ProtoSchema.Proofs.Editor.Protocol

What becomes of the spots that an editor is told of. Sending one thing behind another sends the spots of
both (`send_bind`), and a list sends those of its items (`mapM_send`). What the development assumes of a
protocol is `CountsTo`: its numbers go up to a limit, and it refuses the spots beyond and no others. Such a
protocol sends what it has room for (`CountsTo.send_eq_ok`) and nothing else (`CountsTo.send_eq_error`).
-/

namespace ProtoSchema

/-- A line and a character up to `limit`. -/
def Spot.Fits (limit : Nat) (s : Spot) : Prop := s.line ≤ limit ∧ s.character ≤ limit

/-- A range with both ends up to `limit`. -/
def Range.Fits (limit : Nat) (r : Range) : Prop := r.start.Fits limit ∧ r.stop.Fits limit

namespace Protocol

variable {α β : Type} {protocol : Protocol} {limit : Nat} {spots more : List Spot} {a : α}

theorem send_bind {f : α → Except String β} {b : β} (h : f a = protocol.send more b) :
    (protocol.send spots a >>= f) = protocol.send (spots ++ more) b := by
  induction spots with
  | nil => exact h
  | cons s spots ih =>
    rw [List.cons_append, send, send]
    cases protocol.take s with
    | error refusal => rfl
    | ok _ => exact ih

theorem send_map (f : α → β) :
    (protocol.send spots a >>= fun x => pure (f x)) = protocol.send spots (f a) := by
  have hsend : (protocol.send spots a >>= fun x => pure (f x)) = protocol.send (spots ++ []) (f a) :=
    send_bind rfl
  rwa [List.append_nil] at hsend

/-- Where every item of a list is sent as something that shows spots of its own, the list sends the spots of
all, in order. -/
theorem mapM_send {R : α → β → Prop} {f : Protocol → α → Except String β} {shown : β → List Spot}
    (as : List α)
    (h : ∀ a ∈ as, ∃ b, R a b ∧ ∀ protocol : Protocol, f protocol a = protocol.send (shown b) b) :
    ∃ bs, List.Forall₂ R as bs ∧
      ∀ protocol : Protocol, as.mapM (f protocol) = protocol.send (bs.flatMap shown) bs := by
  induction as with
  | nil => exact ⟨[], .nil, fun _ => rfl⟩
  | cons a as ih =>
    rw [List.forall_mem_cons] at h
    obtain ⟨⟨b, hR, hb⟩, has⟩ := h
    obtain ⟨bs, hRs, hbs⟩ := ih has
    refine ⟨b :: bs, .cons hR hRs, fun protocol => ?_⟩
    rw [List.mapM_cons, hb, List.flatMap_cons]
    refine send_bind ?_
    rw [hbs, send_map]

/-- The protocol takes the spots with numbers up to `limit`, and no others. -/
def CountsTo (protocol : Protocol) (limit : Nat) : Prop :=
  ∀ s : Spot, protocol.take s = .ok () ↔ s.Fits limit

namespace CountsTo

theorem send_eq_ok (hp : protocol.CountsTo limit) (h : ∀ s ∈ spots, s.Fits limit) :
    protocol.send spots a = .ok a := by
  induction spots with
  | nil => rfl
  | cons s spots ih =>
    rw [List.forall_mem_cons] at h
    rw [send, (hp s).2 h.1]
    exact ih h.2

theorem send_eq_error (hp : protocol.CountsTo limit) (h : ¬ ∀ s ∈ spots, s.Fits limit) :
    ∃ refusal, protocol.send spots a = .error refusal := by
  induction spots with
  | nil => exact absurd nofun h
  | cons s spots ih =>
    rw [send]
    cases hs : protocol.take s with
    | error refusal => exact ⟨refusal, rfl⟩
    | ok _ =>
      refine ih fun hspots => h ?_
      exact List.forall_mem_cons.2 ⟨(hp s).1 hs, hspots⟩

end CountsTo

/-- A protocol with numbers up to `limit`. -/
def upTo (limit : Nat) : Protocol where
  take s :=
    if limit < s.line then .error (refusal "line" s.line)
    else if limit < s.character then .error (refusal "character" s.character)
    else .ok ()
where
  refusal (name : String) (n : Nat) : String :=
    "Position." ++ name ++ " should be in range [0:" ++ toString limit ++ "], but was " ++ toString n ++ "."

theorem countsTo_upTo (limit : Nat) : (upTo limit).CountsTo limit := by
  intro s
  show (if limit < s.line then _ else if limit < s.character then _ else _) = _ ↔ _
  rw [Spot.Fits]
  split
  · next hline => simp [Nat.not_le.2 hline]
  split
  · next _ hcharacter => simp [Nat.not_le.2 hcharacter]
  · next hline hcharacter => simp [Nat.not_lt.1 hline, Nat.not_lt.1 hcharacter]

end Protocol

variable {protocol : Protocol} {limit : Nat} {lines : List (List Char)} {line column length : Int}
  {e : Encoding} {r : Range}

theorem rangeAt_eq_ok (hp : protocol.CountsTo limit)
    (hr : Range.convert lines line column length e = r) (h : r.Fits limit) :
    rangeAt protocol lines line column length e = .ok r := by
  rw [rangeAt, hr]
  exact hp.send_eq_ok (by simpa [Range.Fits] using h)

/-- The end of a range that is refused first is the answer. -/
theorem rangeAt_eq_error (hp : protocol.CountsTo limit)
    (hr : Range.convert lines line column length e = r) (h : ¬ r.Fits limit) :
    ∃ refusal, rangeAt protocol lines line column length e = .error refusal ∧
      (protocol.take r.start = .error refusal ∨
        protocol.take r.start = .ok () ∧ protocol.take r.stop = .error refusal) := by
  rw [rangeAt, hr]
  cases hstart : protocol.take r.start with
  | error refusal => exact ⟨refusal, by simp only [Protocol.send, hstart], .inl rfl⟩
  | ok _ =>
    cases hstop : protocol.take r.stop with
    | error refusal => exact ⟨refusal, by simp only [Protocol.send, hstart, hstop], .inr ⟨rfl, rfl⟩⟩
    | ok _ => exact absurd ⟨(hp _).1 hstart, (hp _).1 hstop⟩ h

end ProtoSchema
