import ProtoSchema.Proofs.Faithful
import ProtoSchema.Proofs.Lexical.Splitting
import ProtoSchema.Proofs.Syntactic.Coupled

/-!
# ProtoSchema.Proofs.Streams

Reading from streams of chunks. A stream that ends is read like its bytes in memory, wherever they
are cut into chunks. A stream that fails is read like one with the same bytes that ends, and like the
same bytes with any others behind them, until a byte is missing; then it is lost.
-/

namespace ProtoSchema

open Scan Coupling

namespace Stream

theorem offered_eq_bytes {s : Stream} (h : [] ∉ s.chunks) : s.offered = s.bytes := by
  have hall : ∀ c ∈ s.chunks, (!c.isEmpty) = true := by
    intro c hc
    cases c with
    | nil => exact absurd hc h
    | cons => rfl
  have htake : (s.chunks ++ []).takeWhile (!·.isEmpty) = s.chunks ++ [].takeWhile (!·.isEmpty) :=
    List.takeWhile_append_of_pos hall
  rw [List.append_nil, List.takeWhile_nil, List.append_nil] at htake
  rw [offered, bytes, htake]

/-- An answer that fails comes from a stream that has run out of chunks. -/
theorem read_error {n : Nat} {s s' : Stream} {reason : String} (h : s.read n = (.error reason, s')) :
    s.chunks = [] ∧ s.ending = .failing reason ∧ s'.chunks = [] := by
  unfold read at h
  split at h
  · cases h
  · next hc =>
    split at h
    · cases h
    · next hend =>
      cases h
      exact ⟨hc, hend, hc⟩

/-- An answer holds no more than is asked for, and leaves the rest of the stream as it is. -/
theorem read_ok {n : Nat} {s s' : Stream} {bs : List UInt8} (h : s.read n = (.ok bs, s')) :
    bs.length ≤ n ∧ s'.ending = s.ending ∧ ([] ∉ s.chunks → [] ∉ s'.chunks) := by
  unfold read at h
  split at h
  · next c cs hc =>
    cases h
    refine ⟨List.length_take_le .., rfl, ?_⟩
    rw [hc]
    intro hmem
    have hcs : [] ∉ cs := fun h => hmem (List.mem_cons_of_mem c h)
    cases hd : c.drop n with
    | nil => exact hcs
    | cons b bs => simpa [putBack] using hcs
  · split at h
    · cases h
      exact ⟨Nat.zero_le _, rfl, id⟩
    · cases h

/-- An empty answer is the end of a stream that ends, or an empty chunk. -/
theorem read_nil {n : Nat} (hn : 0 < n) {s s' : Stream} (h : s.read n = (.ok [], s')) :
    s.ending = .exhausted ∨ [] ∈ s.chunks := by
  unfold read at h
  split at h
  · next c cs hc =>
    obtain ⟨h, _⟩ := Prod.mk.inj h
    cases c with
    | nil => exact .inr (by simp [hc])
    | cons b bs =>
      have := congrArg List.length (Except.ok.inj h)
      simp only [List.length_take, List.length_cons, List.length_nil] at this
      omega
  · split at h
    · next hend => exact .inl hend
    · cases h

end Stream

namespace Cursor

theorem offered_of_open {c : Cursor} (h : c.ended = false) :
    c.offered = c.window ++ c.stream.offered := by
  simp [offered, h]

/-- `c'` is the cursor `c` after `n` bytes have been fetched. -/
structure Fetched (n : Nat) (c c' : Cursor) : Prop where
  ended : c'.ended = false
  ending : c'.stream.ending = c.stream.ending
  chunks : [] ∉ c.stream.chunks → [] ∉ c'.stream.chunks
  position : c'.position = c.position
  offered : c'.offered = c.offered
  window : c'.window = c.offered.take (max n c.window.length)

/-- What comes of fetching bytes until `n` are in the window, for a cursor that has not seen an end:
there are enough, or the stream ends before, or it fails before. -/
inductive Filled (n : Nat) (c : Cursor) : EStateM.Result Failure Cursor Unit → Prop where
  | enough {c' : Cursor} : n ≤ c.offered.length → Fetched n c c' → Filled n c (.ok () c')
  | ended {c' : Cursor} :
      c.offered.length < n → c.stream.ending = .exhausted ∨ [] ∈ c.stream.chunks →
      c'.ended = true → Filled n c (.ok () c')
  | starved {reason : String} {c' : Cursor} :
      c.offered.length < n → c.stream.ending = .failing reason → c'.position = c.position →
      c'.offered = c.offered → c'.bytes = c.offered →
      Filled n c (.error (.refused ⟨.unreadable reason, c.position⟩) c')

theorem filled (n : Nat) {c : Cursor} (h : c.ended = false) : Filled n c (fill n c) := by
  fun_induction fill n c with
  | case1 c hn =>
    have hle : n ≤ c.window.length := by simpa [h] using hn
    have ho := offered_of_open h
    refine .enough (by rw [ho, List.length_append]; omega) ⟨h, rfl, id, rfl, rfl, ?_⟩
    rw [Nat.max_eq_right hle, ho, List.take_left]
  | case2 c hn reason s hr =>
    obtain ⟨hc, hend, hs⟩ := Stream.read_error hr
    have ho : c.offered = c.window := by simp [offered_of_open h, Stream.offered, hc]
    refine .starved ?_ hend rfl ?_ ?_
    · rw [ho]
      omega
    · rw [offered_of_open h]
      simp [offered, Stream.offered, hs, hc]
    · simp [bytes, Stream.bytes, hs, ho]
  | case3 c hn s hr =>
    rcases Stream.offered_of_read (by omega) hr with ⟨_, ho⟩ | ⟨hne, _⟩
    · refine .ended ?_ (Stream.read_nil (by omega) hr) rfl
      rw [offered_of_open h, ho, List.append_nil]
      omega
    · exact absurd rfl hne
  | case4 c hn b bs s hr ih =>
    -- what is read only moves bytes from the stream to the window
    obtain ⟨hlen, hend, hchunks⟩ := Stream.read_ok hr
    have ho : ({ c with stream := s, window := c.window ++ b :: bs } : Cursor).offered = c.offered := by
      rcases Stream.offered_of_read (by omega) hr with ⟨hnil, _⟩ | ⟨_, ho⟩
      · cases hnil
      · simp [offered, h, ho]
    have ih := ih h
    generalize fill n _ = r at ih
    cases ih with
    | enough hle hf =>
      rw [ho] at hle
      refine .enough hle ⟨hf.ended, hf.ending.trans hend, fun hc => hf.chunks (hchunks hc), hf.position,
        hf.offered.trans ho, ?_⟩
      have hmax : max n (c.window ++ b :: bs).length = max n c.window.length := by
        rw [List.length_append]
        omega
      rw [hf.window, ho, hmax]
    | ended hlt hstop he =>
      rw [ho] at hlt
      refine .ended hlt ?_ he
      rcases hstop with hstop | hstop
      · exact .inl (hend ▸ hstop)
      · exact .inr (Decidable.byContradiction fun hc => hchunks hc hstop)
    | starved hlt hstop hp ho' hb =>
      exact .starved (ho ▸ hlt) (hend ▸ hstop) hp (ho'.trans ho) (hb.trans ho)

/-- What the window holds is there without asking the stream. -/
theorem fill_of_le {n : Nat} {c : Cursor} (h : n ≤ c.window.length) : fill n c = .ok () c := by
  rw [fill, if_pos (.inl h)]

theorem fill_of_ended {n : Nat} {c : Cursor} (h : c.ended = true) : fill n c = .ok () c := by
  rw [fill, if_pos (.inr h)]

/-- A stream that ends can always be asked for more. -/
theorem fill_exhausted (n : Nat) {c : Cursor} (h : c.stream.ending = .exhausted) :
    ∃ c', fill n c = .ok () c' ∧ c'.stream.ending = .exhausted := by
  fun_induction fill n c with
  | case1 c => exact ⟨c, rfl, h⟩
  | case2 c hn reason s hr =>
    obtain ⟨_, hend, _⟩ := Stream.read_error hr
    cases h.symm.trans hend
  | case3 c hn s hr => exact ⟨_, rfl, (Stream.read_ok hr).2.1.trans h⟩
  | case4 c hn b bs s hr ih => exact ih ((Stream.read_ok hr).2.1.trans h)

theorem stream_skip (c : Cursor) : (skip c).stream = c.stream := by
  unfold skip
  split <;> rfl

theorem ended_skip (c : Cursor) : (skip c).ended = c.ended := by
  unfold skip
  split <;> rfl

theorem skip_eq {c : Cursor} {b : UInt8} {v : List UInt8} (h : c.window = b :: v) :
    skip c = { c with window := v, position := c.position.next b } := by
  unfold skip
  rw [h]

theorem bytes_skip {c : Cursor} {b : UInt8} {v : List UInt8} (h : c.window = b :: v) :
    c.bytes = b :: (skip c).bytes := by
  rw [skip_eq h]
  simp [bytes, h]

theorem offered_skip {c : Cursor} {b : UInt8} {v : List UInt8} (h : c.window = b :: v) :
    c.offered = b :: (skip c).offered := by
  rw [skip_eq h]
  simp [offered, h]

/-- The lexer asks for no more than the window holds. -/
theorem ahead_eq {w : List UInt8} {n : Nat} (hn : Asks w n) (c : Cursor) :
    (ByteInput.ahead n : Scan Cursor (List UInt8)) c =
      match fill n c with
      | .ok () c' => .ok (c'.window.take n) c'
      | .error e c' => .error e c' := by
  have hle : ¬ windowSize < n := by
    cases hn <;> decide
  exact if_neg hle

theorem ahead_of_fill {w : List UInt8} {n : Nat} (hn : Asks w n) {c c' : Cursor}
    (h : fill n c = .ok () c') :
    (ByteInput.ahead n : Scan Cursor (List UInt8)) c = .ok (c'.window.take n) c' := by
  rw [ahead_eq hn, h]

theorem peek_of_fill {c c' : Cursor} (h : fill 1 c = .ok () c') :
    (peek : Scan Cursor (Option UInt8)) c = .ok (c'.window.take 1).head? c' := by
  unfold peek
  rw [bind_ok (ahead_of_fill (w := []) .one h)]
  rfl

/-! ## Streams that end -/

/-- A stream that ends beside its bytes in memory. -/
def ending : InputCoupling Cursor Bytes where
  Rel w c t := Faithful.coupling.Rel w c t ∧ c.stream.ending = .exhausted
  Lost _ _ := False
  Gone _ := True
  lost h := h.elim
  shorten h hr := ⟨Faithful.coupling.shorten h hr.1, hr.2⟩
  place hr := Faithful.coupling.place hr.1
  ahead {n w} hn := by
    refine ⟨?_, fun _ _ => trivial⟩
    rintro c t ⟨hr, hend⟩
    obtain ⟨c', hfill, hend'⟩ := fill_exhausted n hend
    have hc := ahead_of_fill hn hfill
    generalize ht : ByteInput.ahead n t = r
    rw [hc]
    cases (Faithful.coupling.ahead hn).ends_of_eq hr hc ht with
    | ok hr' => exact .ok ⟨hr', hend'⟩
  skip {b w c t} hr := ⟨Faithful.coupling.skip hr.1, (congrArg Stream.ending (stream_skip c)).trans hr.2⟩
  gone_skip h := h

/-! ## Streams that fail -/

/-- A cursor on a stream that fails behind its last chunk, with the bytes `w` in its window. -/
structure Failing (reason : String) (w : List UInt8) (c : Cursor) : Prop where
  ended : c.ended = false
  ending : c.stream.ending = .failing reason
  chunks : [] ∉ c.stream.chunks
  shown : w <+: c.window

theorem Failing.bytes {reason : String} {w : List UInt8} {c : Cursor} (h : c.Failing reason w) :
    c.bytes = c.offered := by
  rw [offered_of_open h.ended, Stream.offered_eq_bytes h.chunks, Cursor.bytes]

theorem Failing.shorten {reason : String} {v w : List UInt8} {c : Cursor} (h : c.Failing reason w)
    (hv : v <+: w) : c.Failing reason v :=
  ⟨h.ended, h.ending, h.chunks, hv.trans h.shown⟩

theorem Failing.fetched {reason : String} {w : List UInt8} {n : Nat} {c c' : Cursor}
    (h : c.Failing reason w) (hf : Fetched n c c') : c'.Failing reason (c'.window.take n) :=
  ⟨hf.ended, hf.ending.trans h.ending, hf.chunks h.chunks, List.take_prefix ..⟩

/-- Fetching from a stream that fails gives enough, or fails. -/
theorem Failing.filled {reason : String} {w : List UInt8} {c : Cursor} (h : c.Failing reason w)
    (n : Nat) : (n ≤ c.offered.length ∧ ∃ c', fill n c = .ok () c' ∧ Fetched n c c') ∨
      (c.offered.length < n ∧ ∃ c', fill n c = .error (.refused ⟨.unreadable reason, c.position⟩) c' ∧
        c'.position = c.position ∧ c'.bytes = c.offered) := by
  have hfill := Cursor.filled n h.ended
  generalize fill n c = r at hfill
  cases hfill with
  | enough hle hf => exact .inl ⟨hle, _, rfl, hf⟩
  | ended _ hstop _ =>
    rcases hstop with hstop | hstop
    · cases h.ending.symm.trans hstop
    · exact absurd hstop h.chunks
  | starved hlt hstop hp _ hb =>
    cases h.ending.symm.trans hstop
    exact .inr ⟨hlt, _, rfl, hp, hb⟩

theorem Failing.window {reason : String} {b : UInt8} {w : List UInt8} {c : Cursor}
    (h : c.Failing reason (b :: w)) : ∃ v, c.window = b :: v ∧ w <+: v := by
  obtain ⟨v, hv⟩ := h.shown
  exact ⟨w ++ v, hv.symm, List.prefix_append ..⟩

theorem Failing.skip {reason : String} {b : UInt8} {w : List UInt8} {c : Cursor}
    (h : c.Failing reason (b :: w)) : (skip c).Failing reason w := by
  obtain ⟨v, hwin, hv⟩ := h.window
  rw [skip_eq hwin]
  exact ⟨h.ended, h.ending, h.chunks, hv⟩

/-- A stream that fails beside its bytes in memory with `x` behind them. -/
def failing (reason : String) (x : List UInt8) : InputCoupling Cursor Bytes where
  Rel w c t := c.Failing reason w ∧ t = ⟨c.offered ++ x, c.position⟩
  Lost e _ := e.Unreadable
  Gone _ := True
  lost h := h
  shorten h hr := ⟨hr.1.shorten h, hr.2⟩
  place hr := by
    rw [hr.2]
    rfl
  ahead {n w} hn := by
    refine ⟨?_, fun _ _ => trivial⟩
    rintro c t ⟨hc, rfl⟩
    rw [ahead_eq hn, Bytes.ahead_apply]
    rcases hc.filled n with ⟨hle, c', hfill, hf⟩ | ⟨_, c', hfill, _⟩
    · have htake : (c.offered ++ x).take n = c'.window.take n := by
        rw [hf.window, List.take_take, List.take_append_of_le_length hle,
          Nat.min_eq_left (Nat.le_max_left ..)]
      rw [hfill, htake]
      exact .ok ⟨hc.fetched hf, by rw [hf.offered, hf.position]⟩
    · rw [hfill]
      exact .lost ⟨_, _, rfl⟩ trivial
  skip {b w c t} hr := by
    obtain ⟨hc, rfl⟩ := hr
    obtain ⟨v, hwin, _⟩ := hc.window
    refine ⟨hc.skip, ?_⟩
    rw [offered_skip hwin]
    show (⟨(Cursor.skip c).offered ++ x, c.position.next b⟩ : Bytes) =
      ⟨(Cursor.skip c).offered ++ x, (Cursor.skip c).position⟩
    rw [skip_eq hwin]
  gone_skip h := h

/-- The cursor has left a front of the bytes `bs` behind. -/
def Behind (bs : List UInt8) (c : Cursor) : Prop :=
  ∃ front, bs = front ++ c.bytes ∧ c.position = Lexical.placeBehind front

theorem Behind.of_eq {bs : List UInt8} {c c' : Cursor} (h : c.Behind bs) (hb : c'.bytes = c.bytes)
    (hp : c'.position = c.position) : c'.Behind bs := by
  obtain ⟨front, hbs, hpos⟩ := h
  exact ⟨front, by rw [hb, hbs], hp.trans hpos⟩

theorem Behind.skip {bs : List UInt8} {c : Cursor} {b : UInt8} {v : List UInt8} (h : c.Behind bs)
    (hwin : c.window = b :: v) : (Cursor.skip c).Behind bs := by
  obtain ⟨front, hbs, hpos⟩ := h
  refine ⟨front ++ [b], ?_, ?_⟩
  · rw [List.append_assoc, List.singleton_append, ← bytes_skip hwin, hbs]
  · rw [Lexical.placeBehind_concat, ← hpos, skip_eq hwin]

/-- The cursor `d` is where `c` is, on a stream with the same bytes that ends. -/
structure Twin (c d : Cursor) : Prop where
  ended : d.ended = false
  ending : d.stream.ending = .exhausted
  window : d.window = c.window
  offered : d.offered = c.offered
  position : d.position = c.position

theorem Twin.fetched {n : Nat} {c c' d d' : Cursor} (h : c.Twin d) (hc : Fetched n c c')
    (hd : Fetched n d d') : c'.Twin d' where
  ended := hd.ended
  ending := hd.ending.trans h.ending
  window := by rw [hd.window, hc.window, h.offered, h.window]
  offered := by rw [hd.offered, hc.offered, h.offered]
  position := by rw [hd.position, hc.position, h.position]

theorem Twin.skip {c d : Cursor} {b : UInt8} {v : List UInt8} (h : c.Twin d)
    (hwin : c.window = b :: v) : (Cursor.skip c).Twin (Cursor.skip d) := by
  have hwin' : d.window = b :: v := h.window.trans hwin
  have ho := h.offered
  rw [offered_skip hwin, offered_skip hwin'] at ho
  refine ⟨(ended_skip d).trans h.ended, (congrArg _ (stream_skip d)).trans h.ending, ?_,
    (List.cons.inj ho).2, ?_⟩
  · rw [skip_eq hwin, skip_eq hwin']
  · rw [skip_eq hwin, skip_eq hwin', h.position]

/-- A cursor whose stream has failed where the bytes `bs` end, with no byte left or with a slash or a
star that waits for the byte behind it. -/
structure Starved (reason : String) (bs : List UInt8) (e : Failure) (c : Cursor) : Prop where
  failure : e = .refused ⟨.unreadable reason, c.position⟩
  behind : c.Behind bs
  bytes : c.bytes = [] ∨ c.bytes = [Byte.slash] ∨ c.bytes = [Byte.star]

/-- What is left where less is offered than is asked for. -/
theorem starved_bytes {w : List UInt8} {n : Nat} {c : Cursor} (hn : Asks w n) (hw : w <+: c.offered)
    (hlt : c.offered.length < n) :
    c.offered = [] ∨ c.offered = [Byte.slash] ∨ c.offered = [Byte.star] := by
  have two {b : UInt8} (h : [b] <+: c.offered) (hlt : c.offered.length < 2) : c.offered = [b] := by
    exact (h.eq_of_length_le (by simpa using Nat.le_of_lt_succ hlt)).symm
  cases hn with
  | one => exact .inl (List.eq_nil_of_length_eq_zero (by omega))
  | slash => exact .inr (.inl (two hw hlt))
  | star => exact .inr (.inr (two hw hlt))

/-- A stream that fails beside one with the same bytes `bs` that ends. -/
def parting (reason : String) (bs : List UInt8) : InputCoupling Cursor Cursor where
  Rel w c d := c.Failing reason w ∧ c.Behind bs ∧ c.Twin d
  Lost := Starved reason bs
  Gone d := d.ended = true
  lost h := ⟨_, _, h.failure⟩
  shorten h hr := ⟨hr.1.shorten h, hr.2⟩
  place hr := hr.2.2.position.symm
  ahead {n w} hn := by
    constructor
    · rintro c d ⟨hc, hbs, hd⟩
      rw [ahead_eq hn, ahead_eq hn]
      have hfilled := filled n hd.ended
      generalize fill n d = r at hfilled
      rcases hc.filled n with ⟨hle, c', hfill, hf⟩ | ⟨hlt, c', hfill, hp, hb⟩
      · rw [hfill]
        cases hfilled with
        | enough _ hf' =>
          have hd' := hd.fetched hf hf'
          have hc' := hc.fetched hf
          simp only [hd'.window]
          refine .ok ⟨hc', hbs.of_eq ?_ hf.position, hd'⟩
          rw [hc'.bytes, hf.offered, hc.bytes]
        | ended hlt _ _ => rw [hd.offered] at hlt; omega
        | starved hlt _ _ _ _ => rw [hd.offered] at hlt; omega
      · rw [hfill]
        have hw : w <+: c.offered := by
          rw [offered_of_open hc.ended]
          exact hc.shown.trans (List.prefix_append ..)
        -- where `c` misses a byte the twin sees its end
        refine .lost ⟨by rw [hp], hbs.of_eq (hb.trans hc.bytes.symm) hp, ?_⟩ ?_
        · rw [hb]
          exact starved_bytes hn hw hlt
        · cases hfilled with
          | enough hle _ => rw [hd.offered] at hle; omega
          | ended _ _ he => exact he
          | starved _ hstop _ _ _ => cases hd.ending.symm.trans hstop
    · intro d hd
      rw [ahead_eq hn, fill_of_ended hd]
      exact hd
  skip hr := by
    obtain ⟨hc, hbs, hd⟩ := hr
    obtain ⟨v, hwin, _⟩ := hc.window
    exact ⟨hc.skip, hbs.skip hwin, hd.skip hwin⟩
  gone_skip {d} h := (ended_skip d).trans h

end Cursor
end ProtoSchema
