import ProtoSchema.Proofs.Lexical.Splitting

/-!
# ProtoSchema.Proofs.Lexical.Order

The order of places. Bytes that are read lead on to a later place, so the tokens of a source stand in
strictly increasing order, each at the first byte of its lexeme.
-/

namespace ProtoSchema

/-- Places in the order of a source: by line, and within a line by column. -/
instance : LT Position where
  lt p q := p.line < q.line ∨ p.line = q.line ∧ p.column < q.column

namespace Position

theorem lt_iff {p q : Position} :
    p < q ↔ p.line < q.line ∨ p.line = q.line ∧ p.column < q.column := Iff.rfl

theorem lt_irrefl (p : Position) : ¬ p < p := by
  rw [lt_iff]
  omega

theorem lt_trans {p q r : Position} (h : p < q) (h' : q < r) : p < r := by
  rw [lt_iff] at *
  omega

theorem lt_next (p : Position) (b : UInt8) : p < p.next b := by
  rw [lt_iff, next]
  split
  · exact .inl (Int.lt_succ p.line)
  · exact .inr ⟨rfl, Int.lt_succ p.column⟩

theorem lt_after (p : Position) (b : UInt8) (bs : List UInt8) : p < p.after (b :: bs) := by
  induction bs generalizing p b with
  | nil => exact p.lt_next b
  | cons c bs ih => exact lt_trans (p.lt_next b) (ih (p.next b) c)

end Position

namespace Lexical

variable {bs tail : List UInt8} {ps : List Piece} {t : Token}

/-- A token stands at the first byte of its lexeme. -/
theorem Splits.of_mem_placed (h : Splits bs ps tail) {front : List UInt8}
    (ht : t ∈ placed front ps) :
    ∃ a x rest, bs = a ++ (x ++ rest) ∧ Reading x rest t.lexeme ∧
      t.position = placeBehind (front ++ a) := by
  induction h generalizing front with
  | nil => cases ht
  | @cons w x rest _ l ps _ hr _ ih =>
    rcases List.mem_cons.1 ht with rfl | ht
    · exact ⟨w, x, rest, rfl, hr, rfl⟩
    · obtain ⟨a, y, rest', rfl, hread, hplace⟩ := ih ht
      exact ⟨w ++ (x ++ a), y, rest', by simp, hread, by rw [hplace]; simp⟩

theorem Splits.placed_pairwise (h : Splits bs ps tail) (front : List UInt8) :
    (placed front ps).Pairwise (·.position < ·.position) := by
  induction h generalizing front with
  | nil => exact .nil
  | @cons w x rest _ l ps _ hr hs ih =>
    refine .cons (fun t ht => ?_) (ih _)
    obtain ⟨a, _, _, _, _, hplace⟩ := hs.of_mem_placed ht
    obtain ⟨b, y, rfl, _⟩ := hr.head
    have hlater : placeBehind (front ++ (w ++ (b :: y)) ++ a) =
        (placeBehind (front ++ w)).after (b :: (y ++ a)) := by
      rw [after_placeBehind]
      simp
    rw [hplace, hlater]
    exact Position.lt_after _ _ _

end Lexical
end ProtoSchema
