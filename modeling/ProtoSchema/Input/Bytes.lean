import ProtoSchema.Input.Basic

/-!
# ProtoSchema.Input.Bytes

Bytes in memory as an input: what is left of a byte list and the place of its first byte. Looking
ahead is free and never fails.
-/

namespace ProtoSchema

/-- The bytes that are left and the place of the first of them. -/
structure Bytes where
  rest : List UInt8
  position : Position
deriving DecidableEq, Repr

namespace Bytes

def ofList (bs : List UInt8) : Bytes := ⟨bs, .first⟩

def skip : Bytes → Bytes
  | ⟨[], p⟩ => ⟨[], p⟩
  | ⟨b :: bs, p⟩ => ⟨bs, p.next b⟩

instance : ByteInput Bytes where
  ahead n := fun s => .ok (s.rest.take n) s
  skip := skip
  position := position
  left s := s.rest.length
  left_ahead h := by
    cases h
    exact Nat.le_refl _
  left_skip_le s := by
    rcases s with ⟨_ | ⟨b, bs⟩, p⟩ <;> simp [skip]
  left_skip {n s b bs s'} h := by
    injection h with h₁ h₂
    subst h₂
    rcases s with ⟨_ | ⟨c, cs⟩, p⟩
    · simp at h₁
    · simp [skip]

end Bytes
end ProtoSchema
