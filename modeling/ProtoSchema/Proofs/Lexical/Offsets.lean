import ProtoSchema.Proofs.Lexical.Splitting

/-!
# ProtoSchema.Proofs.Lexical.Offsets

Lexing does not depend on where the bytes stand. Whatever place a byte list has, the lexer yields the
same lexemes and fails alike if it fails, each behind the same front of the bytes (`tokens_offsets`).
Such a front ends with an ASCII byte, so that in a text it ends between two characters.

* `Level m` — what `m` makes of bytes is the same at every place, and `m` fails at the place that it is
  given. All lexemes are of this kind but names, which fail at a dot inside them.
* `Cut bs y` — `y` is a front of `bs` that may end there in a text: behind an ASCII byte, or at an end.
-/

namespace ProtoSchema

/-- The same failure at the place `p`, if it has a place. -/
def Failure.moved (p : Position) : Failure → Failure
  | refused ⟨c, _⟩ => refused ⟨c, p⟩
  | f => f

namespace Lexical

open Scan Lexer Text

variable {α β : Type}

def Level (m : Position → Scan Bytes α) : Prop :=
  ∀ bs, (∃ a y rest, bs = y ++ rest ∧ ∀ x p, m x ⟨bs, p⟩ = .ok a ⟨rest, p.after y⟩) ∨
    ∃ e : Failure, ∀ x p, ∃ s, m x ⟨bs, p⟩ = .error (e.moved x) s

theorem level_pure (a : α) : Level fun _ => pure a :=
  fun bs => .inl ⟨a, [], bs, rfl, fun _ _ => rfl⟩

theorem level_refuse (c : Cause) : Level fun x => (refuse c x : Scan Bytes α) :=
  fun _ => .inr ⟨.refused ⟨c, .first⟩, fun _ _ => ⟨_, rfl⟩⟩

theorem level_numberTooLong (n : Nat) : Level fun _ => (throw (.numberTooLong n) : Scan Bytes α) :=
  fun _ => .inr ⟨.numberTooLong n, fun _ _ => ⟨_, rfl⟩⟩

theorem Level.bind {m : Position → Scan Bytes α} {f : α → Position → Scan Bytes β} (hm : Level m)
    (hf : ∀ a, Level (f a)) : Level fun x => m x >>= fun a => f a x := by
  intro bs
  rcases hm bs with ⟨a, y, rest, rfl, hok⟩ | ⟨e, herr⟩
  · rcases hf a rest with ⟨b, z, rest, rfl, hok'⟩ | ⟨e, herr⟩
    · refine .inl ⟨b, y ++ z, rest, (List.append_assoc ..).symm, fun x p => ?_⟩
      rw [Position.after_append]
      exact (bind_ok (hok x p)).trans (hok' x (p.after y))
    · refine .inr ⟨e, fun x p => ?_⟩
      obtain ⟨s, hs⟩ := herr x (p.after y)
      exact ⟨s, (bind_ok (hok x p)).trans hs⟩
  · refine .inr ⟨e, fun x p => ?_⟩
    obtain ⟨s, hs⟩ := herr x p
    exact ⟨s, bind_error hs⟩

theorem level_ite {c : Prop} [Decidable c] {m n : Position → Scan Bytes α} (hm : Level m)
    (hn : Level n) : Level fun x => if c then m x else n x := by
  split
  · exact hm
  · exact hn

/-- A loop is level if its step is. -/
theorem Level.many {step : Position → Scan Bytes (Option α)} (h : ∀ x, Progresses (step x))
    (hs : Level step) : Level fun x => many (step x) (h x) := by
  intro bs
  induction hn : bs.length using Nat.strongRecOn generalizing bs with
  | _ n ih =>
  subst hn
  rcases hs bs with ⟨o, y, rest, hbs, hok⟩ | ⟨e, herr⟩
  · cases o with
    | none =>
      exact .inl ⟨[], y, rest, hbs, fun x p => (many_eq_ok_iff _).2 (.stop (hok x p))⟩
    | some a =>
      have hlt : rest.length < bs.length := h .first (hok .first .first)
      rcases ih _ hlt rest rfl with ⟨as, z, rest, rfl, hok'⟩ | ⟨e, herr⟩
      · refine .inl ⟨a :: as, y ++ z, rest, by rw [hbs, List.append_assoc], fun x p => ?_⟩
        rw [Position.after_append]
        exact many_some (h x) (hok x p) (hok' x (p.after y))
      · refine .inr ⟨e, fun x p => ?_⟩
        obtain ⟨s, hs⟩ := herr x (p.after y)
        exact ⟨s, many_some_error (h x) (hok x p) hs⟩
  · refine .inr ⟨e, fun x p => ?_⟩
    obtain ⟨s, hs⟩ := herr x p
    exact ⟨s, many_error (h x) hs⟩

theorem level_ahead (n : Nat) :
    Level fun _ => (ByteInput.ahead n : Scan Bytes (List UInt8)) :=
  fun bs => .inl ⟨bs.take n, [], bs, rfl, fun _ _ => rfl⟩

theorem level_advance : Level fun _ => (advance : Scan Bytes Unit) := by
  intro bs
  cases bs with
  | nil => exact .inl ⟨(), [], [], rfl, fun _ _ => rfl⟩
  | cons b bs => exact .inl ⟨(), [b], bs, rfl, fun _ _ => rfl⟩

theorem level_peek : Level fun _ => (peek : Scan Bytes (Option UInt8)) :=
  (level_ahead 1).bind fun _ => level_pure _

theorem level_takeIf (q : UInt8 → Bool) : Level fun _ => (takeIf q : Scan Bytes (Option UInt8)) := by
  refine level_peek.bind fun o => ?_
  cases o with
  | none => exact level_pure none
  | some b => exact level_ite (level_advance.bind fun _ => level_pure _) (level_pure none)

theorem level_takeWhile (q : UInt8 → Bool) :
    Level fun _ => (takeWhile q : Scan Bytes (List UInt8)) :=
  (level_takeIf q).many fun _ => progresses_takeIf q

/-! ## Lexemes -/

theorem level_decode (inside : Kind) (bs : List UInt8) :
    Level fun x => (decode inside x bs : Scan Bytes String) := by
  unfold decode
  cases Utf8.decode bs with
  | ok cs => exact level_pure _
  | error fault => exact level_refuse _

theorem level_stringByte (q : UInt8) :
    Level fun x => (stringByte q x : Scan Bytes (Option UInt8)) := by
  refine (level_takeIf _).bind fun o => ?_
  cases o with
  | none => exact level_refuse _
  | some b =>
    refine level_ite (level_pure none) (level_ite ((level_takeIf _).bind fun o => ?_) (level_pure _))
    cases o with
    | none => exact level_refuse _
    | some c => exact level_pure _

theorem level_blockByte : Level fun x => (blockByte x : Scan Bytes (Option UInt8)) := by
  refine level_peek.bind fun o => ?_
  cases o with
  | none => exact level_refuse _
  | some b =>
    exact level_ite ((level_ahead 2).bind fun two =>
      level_ite (level_advance.bind fun _ => level_advance.bind fun _ => level_pure none)
        (level_takeIf _)) (level_takeIf _)

theorem level_string (q : UInt8) : Level fun x => (string q x : Scan Bytes Lexeme) :=
  ((level_stringByte q).many (progresses_stringByte q)).bind fun _ =>
    (level_decode _ _).bind fun _ => level_pure _

theorem level_number (b : UInt8) : Level fun x => (number b x : Scan Bytes Lexeme) :=
  (level_takeWhile _).bind fun _ => level_ite (level_refuse _)
    (level_ite (level_numberTooLong _) (level_pure _))

theorem level_comment : Level fun x => (comment x : Scan Bytes Lexeme) := by
  have line : Level fun x => (lineComment x : Scan Bytes Lexeme) :=
    (level_takeWhile _).bind fun _ => (level_takeIf _).bind fun _ =>
      (level_decode _ _).bind fun _ => level_pure _
  have block : Level fun x => (blockComment x : Scan Bytes Lexeme) :=
    (level_blockByte.many progresses_blockByte).bind fun _ =>
      (level_decode _ _).bind fun _ => level_pure _
  exact (level_ahead 2).bind fun two =>
    level_ite (level_advance.bind fun _ => level_advance.bind fun _ => line)
      (level_ite (level_advance.bind fun _ => level_advance.bind fun _ => block) (level_refuse _))

theorem level_lexeme {b : UInt8} (hb : Byte.isLetter b = false) :
    Level fun x => (lexeme b x : Scan Bytes Lexeme) := by
  unfold lexeme
  simp only [hb, Bool.false_eq_true, if_false]
  refine level_ite (level_advance.bind fun _ => level_string b)
    (level_ite (level_advance.bind fun _ => level_number b) ?_)
  cases Punct.ofByte? b with
  | some q => exact level_advance.bind fun _ => level_pure _
  | none => exact level_ite level_comment (level_refuse _)

/-- A step between the segments of a name does the same at every place: it stops, it takes a segment,
which is all ASCII, or it fails where it stands. -/
theorem segment_uniform (bs : List UInt8) :
    (∀ p, segment (⟨bs, p⟩ : Bytes) = .ok none ⟨bs, p⟩) ∨
    (∃ w y rest, bs = y ++ rest ∧ y ≠ [] ∧ (∀ b ∈ y, b.toNat < 0x80) ∧
      ∀ p, segment (⟨bs, p⟩ : Bytes) = .ok (some w) ⟨rest, p.after y⟩) ∨
    ∀ p, ∃ s, segment (⟨bs, p⟩ : Bytes) = .error (.refused ⟨.danglingDot, p⟩) s := by
  rcases segment_cases bs .first with ⟨_, hd⟩ | ⟨c, cs, rfl, hc, _⟩ | ⟨cs, rfl, hc, _⟩
  · refine .inl fun p => ?_
    rcases segment_cases bs p with ⟨hs, _⟩ | ⟨c, cs, rfl, _⟩ | ⟨cs, rfl, _⟩
    · exact hs
    · exact absurd rfl (hd _ rfl)
    · exact absurd rfl (hd _ rfl)
  · have hascii : ∀ b ∈ Byte.dot :: c :: cs.takeWhile Byte.isWordPart, b.toNat < 0x80 := by
      refine List.forall_mem_cons.2 ⟨by decide, List.forall_mem_cons.2
        ⟨ascii_of_wordPart (wordPart_of_letter hc), fun b hb => ascii_of_wordPart ?_⟩⟩
      exact List.all_eq_true.1 List.all_takeWhile b hb
    refine .inr (.inl ⟨c :: cs.takeWhile Byte.isWordPart, _, cs.dropWhile Byte.isWordPart, ?_,
      List.cons_ne_nil _ _, hascii, fun p => ?_⟩)
    · simp [List.takeWhile_append_dropWhile]
    · rcases segment_cases (Byte.dot :: c :: cs) p with ⟨_, hd⟩ | ⟨d, ds, e, _, hs⟩ | ⟨ds, e, hd, _⟩
      · exact absurd rfl (hd _ rfl)
      · cases e
        exact hs
      · cases e
        simp [hc] at hd
  · refine .inr (.inr fun p => ?_)
    rcases segment_cases (Byte.dot :: cs) p with ⟨_, hd⟩ | ⟨d, ds, e, hd, _⟩ | ⟨ds, e, _, hs⟩
    · exact absurd rfl (hd _ rfl)
    · cases e
      simp [hd] at hc
    · exact ⟨_, hs⟩

/-- The segments of a name end at the same byte wherever the name stands, or at a dot with no segment
behind it, and then all bytes in front of that dot are ASCII. -/
theorem segments_outcomes (bs : List UInt8) :
    (∃ more y rest, bs = y ++ rest ∧
      ∀ p, many segment progresses_segment (⟨bs, p⟩ : Bytes) = .ok more ⟨rest, p.after y⟩) ∨
    ∃ y, y <+: bs ∧ (∀ b ∈ y, b.toNat < 0x80) ∧
      ∀ p, ∃ s, many segment progresses_segment (⟨bs, p⟩ : Bytes) =
        .error (.refused ⟨.danglingDot, p.after y⟩) s := by
  induction hn : bs.length using Nat.strongRecOn generalizing bs with
  | _ n ih =>
  subst hn
  rcases segment_uniform bs with hs | ⟨w, y, rest, rfl, hne, hy, hs⟩ | hs
  · exact .inl ⟨[], [], bs, rfl, fun p => (many_eq_ok_iff _).2 (.stop (hs p))⟩
  · have hlt : rest.length < (y ++ rest).length := by
      have := List.length_pos_iff.2 hne
      simp only [List.length_append]
      omega
    rcases ih _ hlt rest rfl with ⟨more, z, rest, rfl, hok⟩ | ⟨z, ⟨u, rfl⟩, hz, herr⟩
    · refine .inl ⟨w :: more, y ++ z, rest, (List.append_assoc ..).symm, fun p => ?_⟩
      rw [Position.after_append]
      exact many_some _ (hs p) (hok (p.after y))
    · refine .inr ⟨y ++ z, ⟨u, List.append_assoc ..⟩, ?_, fun p => ?_⟩
      · exact fun b hb => (List.mem_append.1 hb).elim (hy b) (hz b)
      · obtain ⟨s, hm⟩ := herr (p.after y)
        rw [Position.after_append]
        exact ⟨s, many_some_error _ (hs p) hm⟩
  · refine .inr ⟨[], List.nil_prefix, by simp, fun p => ?_⟩
    obtain ⟨s, hs⟩ := hs p
    exact ⟨s, many_error _ hs⟩

/-- A name: its first word, and then segments. -/
theorem name_outcomes {b : UInt8} (hb : Byte.isLetter b = true) (bs : List UInt8) :
    (∃ l x rest, b :: bs = x ++ rest ∧
      ∀ p, lexeme b p (⟨b :: bs, p⟩ : Bytes) = .ok l ⟨rest, p.after x⟩) ∨
    ∃ y, y <+: b :: bs ∧ (∀ c ∈ y, c.toNat < 0x80) ∧
      ∀ p, ∃ s, lexeme b p (⟨b :: bs, p⟩ : Bytes) =
        .error (.refused ⟨.danglingDot, p.after y⟩) s := by
  have hword : ∀ c ∈ b :: bs.takeWhile Byte.isWordPart, Byte.isWordPart c = true :=
    List.forall_mem_cons.2
      ⟨wordPart_of_letter hb, fun c hc => List.all_eq_true.1 List.all_takeWhile c hc⟩
  have hsplit : b :: bs = b :: bs.takeWhile Byte.isWordPart ++ bs.dropWhile Byte.isWordPart := by
    rw [List.cons_append, List.takeWhile_append_dropWhile]
  have hfirst (p : Position) := Bytes.takeWhile_apply Byte.isWordPart bs (p.next b)
  rcases segments_outcomes (bs.dropWhile Byte.isWordPart) with
    ⟨more, y, rest, hy, hok⟩ | ⟨y, ⟨u, hu⟩, hy, herr⟩
  · refine .inl ⟨.ofSegments (Byte.text (b :: bs.takeWhile Byte.isWordPart)) (more.map Byte.text),
      b :: bs.takeWhile Byte.isWordPart ++ y, rest, ?_, fun p => ?_⟩
    · rw [List.append_assoc, ← hy, hsplit]
    · rw [lexeme_letter hb, word, bind_ok (hfirst p), bind_ok (hok _), Position.after_append]
      rfl
  · refine .inr ⟨b :: bs.takeWhile Byte.isWordPart ++ y, ⟨u, ?_⟩, ?_, fun p => ?_⟩
    · rw [List.append_assoc, hu, ← hsplit]
    · exact fun c hc => (List.mem_append.1 hc).elim (fun hc => ascii_of_wordPart (hword c hc)) (hy c)
    · obtain ⟨s, hs⟩ := herr ((p.next b).after (bs.takeWhile Byte.isWordPart))
      refine ⟨s, ?_⟩
      rw [lexeme_letter hb, word, bind_ok (hfirst p), bind_error hs, Position.after_append]
      rfl

/-- What the lexer makes of a byte list that does not begin with a blank: a lexeme, or a failure
behind some ASCII bytes. -/
theorem lexeme_outcomes (b : UInt8) (bs : List UInt8) :
    (∃ l x rest, b :: bs = x ++ rest ∧ Reading x rest l ∧ Fits x l ∧
      ∀ p, lexeme b p (⟨b :: bs, p⟩ : Bytes) = .ok l ⟨rest, p.after x⟩) ∨
    ∃ (e : Failure) (y : List UInt8), y <+: b :: bs ∧ (∀ c ∈ y, c.toNat < 0x80) ∧
      ∀ p, ∃ s, lexeme b p (⟨b :: bs, p⟩ : Bytes) = .error (e.moved (p.after y)) s := by
  have read {l : Lexeme} {x rest : List UInt8} (hx : b :: bs = x ++ rest)
      (h : ∀ p, lexeme b p (⟨b :: bs, p⟩ : Bytes) = .ok l ⟨rest, p.after x⟩) :
      Reading x rest l ∧ Fits x l := by
    obtain ⟨x', hx', _, hr⟩ := lexeme_sound (h .first)
    rw [List.append_cancel_right (hx.symm.trans hx')]
    exact hr
  cases hb : Byte.isLetter b with
  | false =>
    rcases level_lexeme hb (b :: bs) with ⟨l, x, rest, hx, hok⟩ | ⟨e, herr⟩
    · have hlex (p : Position) := hok p p
      exact .inl ⟨l, x, rest, hx, (read hx hlex).1, (read hx hlex).2, hlex⟩
    · exact .inr ⟨e, [], List.nil_prefix, by simp, fun p => herr p p⟩
  | true =>
    rcases name_outcomes hb bs with ⟨l, x, rest, hx, hlex⟩ | ⟨y, hy, hascii, herr⟩
    · exact .inl ⟨l, x, rest, hx, (read hx hlex).1, (read hx hlex).2, hlex⟩
    · exact .inr ⟨.refused ⟨.danglingDot, .first⟩, y, hy, hascii, herr⟩

/-! ## Tokens -/

/-- What the lexer makes of a byte list: the end, a token, or a failure behind some ASCII bytes. -/
theorem next_outcomes (bs : List UInt8) :
    ((∀ b ∈ bs, Byte.isBlank b = true) ∧
      ∀ p, next (⟨bs, p⟩ : Bytes) = .ok none ⟨[], p.after bs⟩) ∨
    (∃ l w x rest, bs = w ++ (x ++ rest) ∧ (∀ b ∈ w, Byte.isBlank b = true) ∧ Reading x rest l ∧
      Fits x l ∧
      ∀ p, next (⟨bs, p⟩ : Bytes) = .ok (some ⟨l, p.after w⟩) ⟨rest, p.after (w ++ x)⟩) ∨
    ∃ (e : Failure) (y : List UInt8), y <+: bs ∧ (∀ b ∈ y, b.toNat < 0x80) ∧
      ∀ p, ∃ s, next (⟨bs, p⟩ : Bytes) = .error (e.moved (p.after y)) s := by
  have hsplit := List.takeWhile_append_dropWhile (p := Byte.isBlank) (l := bs)
  have hw : ∀ b ∈ bs.takeWhile Byte.isBlank, Byte.isBlank b = true :=
    fun b hb => List.all_eq_true.1 List.all_takeWhile b hb
  have hblanks (p : Position) := Bytes.takeWhile_apply Byte.isBlank bs p
  generalize bs.takeWhile Byte.isBlank = w at hsplit hw hblanks
  generalize bs.dropWhile Byte.isBlank = cs at hsplit hblanks
  cases cs with
  | nil =>
    rw [List.append_nil] at hsplit
    subst hsplit
    exact .inl ⟨hw, next_blanks hw⟩
  | cons b cs =>
    have hnext (p : Position) : next (⟨bs, p⟩ : Bytes) =
        (lexeme b (p.after w) >>= fun l => pure (some ⟨l, p.after w⟩)) ⟨b :: cs, p.after w⟩ := by
      rw [next, bind_ok (hblanks p), bind_ok (Bytes.place_apply _), bind_ok Bytes.peek_cons]
    rcases lexeme_outcomes b cs with ⟨l, x, rest, hx, hr, hf, hok⟩ | ⟨e, y, ⟨u, hu⟩, hy, herr⟩
    · refine .inr (.inl ⟨l, w, x, rest, by rw [← hx, hsplit], hw, hr, hf, fun p => ?_⟩)
      rw [hnext, bind_ok (hok _), Position.after_append]
      rfl
    · refine .inr (.inr ⟨e, w ++ y, ⟨u, by rw [List.append_assoc, hu, hsplit]⟩, ?_, fun p => ?_⟩)
      · exact fun c hc => (List.mem_append.1 hc).elim (fun hc => ascii_of_blank (hw c hc)) (hy c)
      · obtain ⟨s, hs⟩ := herr (p.after w)
        refine ⟨s, ?_⟩
        rw [hnext, bind_error hs, Position.after_append]

/-- `y` is a front of `bs`: all of it, or nothing, or one that ends with an ASCII byte. -/
structure Cut (bs y : List UInt8) : Prop where
  front : y <+: bs
  ascii : y = bs ∨ ∀ b ∈ y.getLast?, b.toNat < 0x80

theorem Cut.of_ascii {bs y : List UInt8} (h : y <+: bs) (hy : ∀ b ∈ y, b.toNat < 0x80) : Cut bs y :=
  ⟨h, .inr fun b hb => hy b (List.mem_of_getLast? hb)⟩

/-- Bytes that end with an ASCII byte, or with the input, may stand before a cut. -/
theorem Cut.behind {x bs y : List UInt8} (hx : bs = [] ∨ ∀ b ∈ x.getLast?, b.toNat < 0x80)
    (h : Cut bs y) : Cut (x ++ bs) (x ++ y) := by
  refine ⟨(List.prefix_append_right_inj x).2 h.front, ?_⟩
  rcases h.ascii with rfl | hy
  · exact .inl rfl
  rw [List.getLast?_append]
  cases hl : y.getLast? with
  | none =>
    obtain rfl := List.getLast?_eq_none_iff.1 hl
    rcases hx with rfl | hx
    · exact .inl rfl
    · exact .inr (by rwa [Option.none_or])
  | some c => exact .inr (by rwa [Option.some_or, ← hl])

/-- The bytes of a text are cut between two of its characters. -/
theorem Cut.chars {cs : List Char} {y : List UInt8} (h : Cut (Utf8.encode cs) y) :
    ∃ k ≤ cs.length, y = Utf8.encode (cs.take k) := by
  rcases h with ⟨hfront, rfl | hascii⟩
  · exact ⟨cs.length, Nat.le_refl _, by rw [List.take_length]⟩
  induction cs generalizing y with
  | nil =>
    obtain rfl := List.prefix_nil.1 hfront
    exact ⟨0, Nat.le_refl _, rfl⟩
  | cons c cs ih =>
    rw [Utf8.encode_cons] at hfront
    have hone : ∃ k ≤ (c :: cs).length, String.utf8EncodeChar c = Utf8.encode ((c :: cs).take k) :=
      ⟨1, by simp, by simp⟩
    rcases List.prefix_or_prefix_of_prefix hfront (List.prefix_append _ _) with hy | ⟨z, rfl⟩
    · -- only ASCII characters have an ASCII byte, and they have no other
      rcases List.eq_nil_or_concat y with rfl | ⟨init, b, rfl⟩
      · exact ⟨0, Nat.zero_le _, rfl⟩
      · have hb : b.toNat < 0x80 := hascii b (by simp)
        have hmem : b ∈ String.utf8EncodeChar c := hy.subset (by simp)
        by_cases hc : c.toNat < 0x80
        · rw [encodeChar_ascii hc] at hy hone
          have hlen : (init.concat b).length = 1 :=
            Nat.le_antisymm hy.length_le (by simp)
          rw [hy.eq_of_length hlen]
          exact hone
        · have := encodeChar_of_not_ascii hc b hmem
          omega
    · have hz : ∀ b ∈ z.getLast?, b.toNat < 0x80 := by
        intro b hb
        exact hascii b (by rw [List.getLast?_append, Option.mem_def.1 hb, Option.some_or]; rfl)
      obtain ⟨k, hk, rfl⟩ := ih ((List.prefix_append_right_inj _).1 hfront) hz
      exact ⟨k + 1, Nat.succ_le_succ hk, rfl⟩

/-- A lexeme ends with an ASCII byte, or with the input. -/
theorem Reading.last {x rest : List UInt8} {l : Lexeme} (h : Reading x rest l) :
    rest = [] ∨ ∀ b ∈ x.getLast?, b.toNat < 0x80 := by
  have name {x rest : List UInt8} (h : IsLongest IsName x rest) :
      ∀ b ∈ x.getLast?, b.toNat < 0x80 := by
    intro b hb
    rcases h.holds.mem b (List.mem_of_getLast? hb) with h | rfl
    · exact ascii_of_wordPart h
    · decide
  have single {c : UInt8} (h : c.toNat < 0x80) : ∀ b ∈ some c, b.toNat < 0x80 := by simpa using h
  cases h with
  | keyword hl _ _ => exact .inr (name hl)
  | ident hl _ _ _ => exact .inr (name hl)
  | dotted hl _ _ => exact .inr (name hl)
  | number hl _ => exact .inr fun b hb => ascii_of_digit (hl.holds.2 b (List.mem_of_getLast? hb))
  | punct p _ => exact .inr (single (by cases p <;> decide))
  | text hq _ =>
    rw [List.getLast?_concat]
    exact .inr (single (by rcases quote_cases hq with rfl | rfl <;> decide))
  | lineComment =>
    rw [List.getLast?_concat]
    exact .inr (single (by decide))
  | lastComment => exact .inl rfl
  | blockComment =>
    rw [List.getLast?_append]
    refine .inr fun b hb => ?_
    obtain rfl : Byte.slash = b := by simpa using hb
    decide

/-- The lexer yields the same lexemes and ends alike wherever the bytes stand, each behind the same front
of the bytes. These fronts are empty or end with an ASCII byte. -/
theorem tokens_offsets (bs : List UInt8) :
    ∃ (ls : List (Lexeme × List UInt8)) (f : Option (Failure × List UInt8)),
      (∀ a ∈ ls, Cut bs a.2) ∧ (∀ a ∈ f, Cut bs a.2) ∧
      ∀ p, (tokens (⟨bs, p⟩ : Bytes)).items = ls.map (fun a => ⟨a.1, p.after a.2⟩) ∧
        (tokens (⟨bs, p⟩ : Bytes)).failure = f.map fun a => a.1.moved (p.after a.2) := by
  induction hn : bs.length using Nat.strongRecOn generalizing bs with
  | _ n ih =>
  subst hn
  rcases next_outcomes bs with ⟨_, hend⟩ | ⟨l, w, x, rest, rfl, hw, hr, _, hok⟩ | ⟨e, y, hy, hascii, herr⟩
  · refine ⟨[], none, by simp, by simp, fun p => ?_⟩
    rw [tokens, run_none _ (hend p)]
    exact ⟨rfl, rfl⟩
  · have hlt := progresses_next (hok .first)
    obtain ⟨ls, f, hls, hf, hrest⟩ := ih _ hlt rest rfl
    have hwascii : ∀ b ∈ w, b.toNat < 0x80 := fun b hb => ascii_of_blank (hw b hb)
    have hstart : Cut (w ++ (x ++ rest)) w := .of_ascii (List.prefix_append ..) hwascii
    have behind {y : List UInt8} (h : Cut rest y) : Cut (w ++ (x ++ rest)) (w ++ (x ++ y)) :=
      (h.behind hr.last).behind (.inr fun b hb => hwascii b (List.mem_of_getLast? hb))
    refine ⟨(l, w) :: ls.map fun a => (a.1, w ++ (x ++ a.2)), f.map fun a => (a.1, w ++ (x ++ a.2)),
      ?_, ?_, fun p => ?_⟩
    · exact List.forall_mem_cons.2 ⟨hstart, List.forall_mem_map.2 fun a ha => behind (hls a ha)⟩
    · intro a ha
      obtain ⟨c, hc, rfl⟩ := Option.map_eq_some_iff.1 ha
      exact behind (hf c hc)
    · obtain ⟨hitems, hfailure⟩ := hrest (p.after (w ++ x))
      have place (y : List UInt8) : (p.after (w ++ x)).after y = p.after (w ++ (x ++ y)) := by
        rw [← Position.after_append, List.append_assoc]
      rw [tokens] at hitems hfailure
      rw [tokens, run_some _ (hok p)]
      simp only [hitems, hfailure, place, List.map_cons, List.map_map, Option.map_map,
        Function.comp_def, and_self]
  · refine ⟨[], some (e, y), by simp, ?_, fun p => ?_⟩
    · rintro _ ⟨⟩
      exact .of_ascii hy hascii
    · obtain ⟨s, hs⟩ := herr p
      rw [tokens, run_error _ hs]
      exact ⟨rfl, rfl⟩

end Lexical
end ProtoSchema
