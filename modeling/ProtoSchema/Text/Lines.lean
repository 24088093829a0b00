/-!
# ProtoSchema.Text.Lines

The lines of a text. Only the line feed separates lines, so there is one line more than there are
line feeds, and joining the lines with line feeds gives the text back.
-/

namespace ProtoSchema
namespace Text

def lines : List Char → List (List Char)
  | [] => [[]]
  | c :: cs =>
    if c = '\n' then [] :: lines cs
    else
      match lines cs with
      | [] => [[c]]
      | l :: ls => (c :: l) :: ls

theorem lines_ne_nil (cs : List Char) : lines cs ≠ [] := by
  cases cs with
  | nil => simp [lines]
  | cons c cs =>
    unfold lines
    split
    · simp
    · split <;> simp

theorem length_lines (cs : List Char) : (lines cs).length = cs.count '\n' + 1 := by
  induction cs with
  | nil => rfl
  | cons c cs ih =>
    unfold lines
    split
    · next h => simp [h, ih]
    · next h =>
      split
      · next h' => exact absurd h' (lines_ne_nil cs)
      · next l ls h' =>
        rw [h'] at ih
        simp only [List.length_cons] at ih ⊢
        rw [ih, List.count_cons_of_ne (by simpa using h)]

end Text
end ProtoSchema
