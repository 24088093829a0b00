import ProtoSchema.Proofs.Lexical.Trivia

/-!
# ProtoSchema.Proofs.Lexical.Seam

Lexing line by line. Bytes that end with a line feed and are lexed without a failure leave nothing
open: whatever bytes come behind them are lexed as if they stood alone, that many lines further down
(`tokens_append_lines`).
-/

namespace ProtoSchema

/-- The place `k` lines further down. -/
def Position.down (k : Nat) (p : Position) : Position := ⟨p.line + k, p.column⟩

def Token.down (k : Nat) (t : Token) : Token := ⟨t.lexeme, t.position.down k⟩

/-- The failure, with its place `k` lines further down if it has one. -/
def Failure.down (k : Nat) : Failure → Failure
  | refused ⟨c, p⟩ => refused ⟨c, p.down k⟩
  | f => f

theorem Position.after_down (k : Nat) (p : Position) (bs : List UInt8) :
    (p.down k).after bs = (p.after bs).down k := by
  induction bs generalizing p with
  | nil => rfl
  | cons b bs ih =>
    have hnext : (p.down k).next b = (p.next b).down k := by
      unfold Position.next Position.down
      split
      · simp only [Position.mk.injEq, and_true]
        omega
      · rfl
    rw [Position.after_cons, Position.after_cons, hnext, ih]

theorem Failure.moved_down (k : Nat) (p : Position) (f : Failure) :
    f.moved (p.down k) = (f.moved p).down k := by
  cases f <;> rfl

namespace Lexical

open Scan Lexer Text

variable {a b w x rest tail : List UInt8} {l : Lexeme} {ps : List Piece}

theorem placeBehind_of_last (h : a.getLast? = some Byte.lineFeed) :
    placeBehind a = Position.first.down (a.count Byte.lineFeed) := by
  obtain ⟨init, rfl⟩ := List.getLast?_eq_some_iff.1 h
  simp [placeBehind, Position.first, Position.down]

/-- The lexer yields the same lexemes further down, and fails alike. -/
theorem tokens_down (k : Nat) (bs : List UInt8) (p : Position) :
    (tokens (⟨bs, p.down k⟩ : Bytes)).items =
        (tokens (⟨bs, p⟩ : Bytes)).items.map (Token.down k) ∧
      (tokens (⟨bs, p.down k⟩ : Bytes)).failure =
        (tokens (⟨bs, p⟩ : Bytes)).failure.map (Failure.down k) := by
  obtain ⟨ls, f, _, _, hplace⟩ := tokens_offsets bs
  obtain ⟨hitems, hfailure⟩ := hplace p
  obtain ⟨hitems', hfailure'⟩ := hplace (p.down k)
  rw [hitems, hitems', hfailure, hfailure', List.map_map, Option.map_map]
  simp only [Function.comp_def, Token.down, Position.after_down, Failure.moved_down, and_self]

/-- The only lexeme that ends with a line feed is a comment that runs to the end of its line. -/
theorem Reading.comment_of_last (h : Reading x rest l) (hx : x.getLast? = some Byte.lineFeed) :
    ∃ line s, x = Byte.slash :: Byte.slash :: line ++ [Byte.lineFeed] ∧ Byte.lineFeed ∉ line ∧
      withoutReturn line = bytes s ∧ l = .comment s := by
  have hmem := List.mem_of_getLast? hx
  have name (hl : IsLongest IsName x rest) : False := by
    rcases hl.holds.mem _ hmem with h | h
    · cases h
    · cases h
  cases h with
  | keyword hl _ _ => exact (name hl).elim
  | ident hl _ _ _ => exact (name hl).elim
  | dotted hl _ _ => exact (name hl).elim
  | number hl _ => cases hl.holds.2 _ hmem
  | punct p _ => cases p <;> cases hx
  | text hq _ =>
    rw [List.getLast?_concat] at hx
    cases hx
    cases hq
  | lineComment hl hv => exact ⟨_, _, rfl, hl, hv, rfl⟩
  | lastComment hl _ =>
    rcases List.mem_cons.1 hmem with h | hmem
    · cases h
    rcases List.mem_cons.1 hmem with h | hmem
    · cases h
    · exact absurd hmem hl
  | blockComment =>
    rw [List.getLast?_append] at hx
    cases hx

/-- The last lexeme of a line is read as it is, whatever the next line holds. -/
theorem next_append (hw : ∀ c ∈ w, Byte.isBlank c = true) (hr : Reading x rest l) (hf : Fits x l)
    (hdot : rest.head? ≠ some Byte.dot) (hlast : (x ++ rest).getLast? = some Byte.lineFeed)
    (b : List UInt8) (p : Position) :
    next (⟨w ++ (x ++ (rest ++ b)), p⟩ : Bytes) =
      .ok (some ⟨l, p.after w⟩) ⟨rest ++ b, p.after (w ++ x)⟩ := by
  cases rest with
  | nil =>
    rw [List.append_nil] at hlast
    obtain ⟨line, s, rfl, hl, hv, rfl⟩ := hr.comment_of_last hlast
    have hlex : lexeme Byte.slash (p.after w)
        (⟨Byte.slash :: Byte.slash :: (line ++ Byte.lineFeed :: b), p.after w⟩ : Bytes) = _ :=
      lexeme_slash.trans (comment_line.trans (lineComment_complete hl hv _))
    rw [next_behind_blanks hw]
    have hnext := next_of_lexeme rfl hlex
    simpa [Position.after_append] using hnext
  | cons c rest =>
    have hhead : ∀ d ∈ (c :: rest ++ b).head?, (c :: rest).head? = some d ∨
        Byte.isBlank d = true ∨ d = Byte.slash := fun d hd => .inl hd
    exact next_reading hw (hr.swap nofun hhead hdot) hf hdot p

theorem Splits.blanks_tail (h : Splits a ps tail) : ∀ c ∈ tail, Byte.isBlank c = true := by
  induction h with
  | nil hw => exact hw
  | cons _ _ _ ih => exact ih

/-- Bytes that end with a line feed fall into lexemes and blanks in the same way before other bytes. -/
theorem Splits.passes_append (h : Splits a ps tail) (hf : ∀ q ∈ ps, Fits q.source q.lexeme)
    (hlast : ∀ c ∈ a.getLast?, c = Byte.lineFeed) (b front : List UInt8) :
    ∃ p, Passes ⟨a ++ b, placeBehind front⟩ (placed front ps) ⟨tail ++ b, p⟩ ∧
      p.after tail = placeBehind (front ++ a) := by
  induction h generalizing front with
  | @nil tail _ => exact ⟨_, .nil, after_placeBehind front tail⟩
  | @cons w x rest tail l ps hw hr hs ih =>
    obtain ⟨d, y, hx, _⟩ := hr.head
    have hlast' : (x ++ rest).getLast? = some Byte.lineFeed := by
      obtain ⟨e, he⟩ : ∃ e, (x ++ rest).getLast? = some e := by simp [hx, List.getLast?_cons]
      rw [he, hlast e (by simp [List.getLast?_append (l := w), he])]
    have hrest : ∀ c ∈ rest.getLast?, c = Byte.lineFeed := by
      intro c hc
      rw [List.getLast?_append, Option.mem_def.1 hc] at hlast'
      exact Option.some.inj hlast'
    obtain ⟨p, hp, hafter⟩ := ih (fun q hq => hf q (by simp [hq])) hrest (front ++ (w ++ x))
    have hstep := next_append hw hr (hf ⟨w, x, l⟩ (by simp)) hs.head_ne_dot hlast' b
      (placeBehind front)
    rw [after_placeBehind, after_placeBehind] at hstep
    refine ⟨p, ?_, ?_⟩
    · rw [List.append_assoc, List.append_assoc]
      exact .cons hstep hp
    · rw [hafter, List.append_assoc, List.append_assoc]

/-- Lexing goes line by line: behind bytes that end with a line feed and are lexed without a failure,
any bytes are lexed as they are alone, that many lines further down. -/
theorem tokens_append_lines (hlast : a.getLast? = some Byte.lineFeed)
    (ha : (tokens (Bytes.ofList a)).failure = none) (b : List UInt8) :
    (tokens (Bytes.ofList (a ++ b))).items = (tokens (Bytes.ofList a)).items ++
        (tokens (Bytes.ofList b)).items.map (Token.down (a.count Byte.lineFeed)) ∧
      (tokens (Bytes.ofList (a ++ b))).failure =
        (tokens (Bytes.ofList b)).failure.map (Failure.down (a.count Byte.lineFeed)) := by
  have hrun : tokens (Bytes.ofList a) =
      ⟨(tokens (Bytes.ofList a)).items, none, (tokens (Bytes.ofList a)).final⟩ := by rw [← ha]
  obtain ⟨ps, tail, hps, hitems, hfits, _⟩ :=
    yields_next_sound ((run_eq_iff progresses_next).1 hrun) placeBehind_nil.symm
  have hfeed : ∀ c ∈ a.getLast?, c = Byte.lineFeed :=
    fun c hc => Option.some.inj (hc.symm.trans hlast)
  obtain ⟨p, hp, hafter⟩ := hps.passes_append hfits hfeed b []
  -- behind the last lexeme of `a` only blanks are left, and then `b`
  have hblanks : tokens (⟨tail ++ b, p⟩ : Bytes) =
      tokens ⟨b, Position.first.down (a.count Byte.lineFeed)⟩ := by
    have hp : p.after tail = placeBehind a := hafter
    rw [← placeBehind_of_last hlast, ← hp]
    exact run_congr progresses_next (next_behind_blanks hps.blanks_tail b p)
  obtain ⟨hitems', hfailure'⟩ := hp.tokens_eq
  obtain ⟨hdown, hfail⟩ := tokens_down (a.count Byte.lineFeed) b .first
  rw [hblanks, hdown, ← hitems] at hitems'
  rw [hblanks, hfail] at hfailure'
  exact ⟨hitems', hfailure'⟩

/-- A line with a mark, and the next one with another. -/
theorem tokens_append_lines_sample :
    [Punct.semi.byte, Byte.lineFeed].getLast? = some Byte.lineFeed ∧
      (tokens (Bytes.ofList [Punct.semi.byte, Byte.lineFeed])).failure = none ∧
      (tokens (Bytes.ofList [Punct.semi.byte, Byte.lineFeed, Punct.semi.byte])).items =
        [⟨.punct .semi, ⟨1, 1⟩⟩, ⟨.punct .semi, ⟨2, 1⟩⟩] := by
  have hnone : ∀ c ∈ ([] : List UInt8), Byte.isBlank c = true := by simp
  have hfeed : ∀ c ∈ [Byte.lineFeed], Byte.isBlank c = true := List.all_eq_true.1 (by decide)
  have ha : tokens (Bytes.ofList [Punct.semi.byte, Byte.lineFeed]) = _ :=
    (run_eq_iff progresses_next).2
      (yields_next_complete (.cons hnone (.punct .semi _) (.nil hfeed)) (by simp [Fits]) [])
  have hb : tokens (Bytes.ofList [Punct.semi.byte]) = _ :=
    (run_eq_iff progresses_next).2
      (yields_next_complete (.cons hnone (.punct .semi []) (.nil hnone)) (by simp [Fits]) [])
  have hfailure : (tokens (Bytes.ofList [Punct.semi.byte, Byte.lineFeed])).failure = none := by
    rw [ha]
  refine ⟨rfl, hfailure, ?_⟩
  have hitems := (tokens_append_lines (a := [Punct.semi.byte, Byte.lineFeed]) rfl hfailure
    [Punct.semi.byte]).1
  rw [ha, hb] at hitems
  exact hitems

end Lexical
end ProtoSchema
