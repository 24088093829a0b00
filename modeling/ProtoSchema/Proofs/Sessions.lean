import ProtoSchema.Proofs.Streams

/-!
# ProtoSchema.Proofs.Sessions

A cursor is a byte list with a window of four bytes. Whatever is asked of a cursor, one query after
another and also after failures, it answers from the plain list of the bytes that its stream offers
(`session_refines_list`).

A query is carried out in small events: the cursor asks its stream for what is missing, or takes a byte
(`Runs`). What holds at every moment of a session (`Moment`) is kept by each event.
-/

namespace ProtoSchema

open Scan Lexical

namespace Stream

/-- A stream that fails behind its last chunk and gives no empty answer before. -/
def Failing (reason : String) (s : Stream) : Prop :=
  s.ending = .failing reason ∧ [] ∉ s.chunks

theorem requests_read {n : Nat} {s s' : Stream} {answer : Except String (List UInt8)}
    (h : s.read n = (answer, s')) : s'.requests = n :: s.requests := by
  unfold read at h
  split at h
  · cases h
    rfl
  · split at h <;> cases h <;> rfl

/-- How a stream ends is not changed by an answer, unless it is an empty one. -/
theorem failing_read {n : Nat} {s s' : Stream} {answer : Except String (List UInt8)}
    (h : s.read n = (answer, s')) (ha : answer ≠ .ok []) (reason : String) :
    s'.Failing reason ↔ s.Failing reason := by
  unfold read at h
  split at h
  · next c cs hc =>
    cases h
    have hput : [] ∉ putBack (c.drop n) cs ↔ [] ∉ s.chunks := by
      cases c with
      | nil => exact absurd (by rw [List.take_nil]) ha
      | cons b bs => cases hd : (b :: bs).drop n <;> simp [putBack, hc]
    exact and_congr_right fun _ => hput
  · split at h <;> cases h <;> exact Iff.rfl

end Stream

namespace Cursor

/-! ## Events -/

/-- What a cursor does: it asks its stream for `size` bytes, to have `need` of them in its window, and
gets an answer; or it takes a byte. -/
inductive Event where
  | asked (need size : Nat) (answer : Except String (List UInt8))
  | took (b : UInt8)

namespace Event

def byte? : Event → Option UInt8
  | took b => some b
  | asked .. => none

def size? : Event → Option Nat
  | took _ => none
  | asked _ size _ => some size

/-- The event asks for bytes so that `need` of them are in the window. -/
def AsksFor (need : Nat) (e : Event) : Prop := ∀ n size answer, e = asked n size answer → n = need

end Event

/-- The bytes that have been taken. -/
def taken (es : List Event) : List UInt8 := es.filterMap Event.byte?

/-- How many bytes have been asked for, request by request. -/
def sizes (es : List Event) : List Nat := es.filterMap Event.size?

theorem taken_append (es es' : List Event) : taken (es ++ es') = taken es ++ taken es' :=
  List.filterMap_append ..

theorem sizes_append (es es' : List Event) : sizes (es ++ es') = sizes es ++ sizes es' :=
  List.filterMap_append ..

/-- Takes in an answer of the stream. -/
def receive (c : Cursor) (s : Stream) : Except String (List UInt8) → Cursor
  | .error _ => { c with stream := s }
  | .ok [] => { c with stream := s, ended := true }
  | .ok (b :: bs) => { c with stream := s, window := c.window ++ b :: bs }

/-- The events that lead from one cursor to another. A cursor asks for exactly the bytes that it misses,
never more than its window holds, and not once its stream has ended. -/
inductive Runs : Cursor → List Event → Cursor → Prop where
  | done {c : Cursor} : Runs c [] c
  | ask {c c' : Cursor} {s : Stream} {need size : Nat} {answer : Except String (List UInt8)}
      {es : List Event} :
      c.ended = false → need ≤ windowSize → 0 < size → size + c.window.length = need →
      c.stream.read size = (answer, s) → Runs (c.receive s answer) es c' →
      Runs c (.asked need size answer :: es) c'
  | take {c c' : Cursor} {b : UInt8} {w : List UInt8} {es : List Event} :
      c.window = b :: w → Runs (skip c) es c' → Runs c (.took b :: es) c'

theorem Runs.append {c d c' : Cursor} {es es' : List Event} (h : Runs c es d) (h' : Runs d es' c') :
    Runs c (es ++ es') c' := by
  induction h with
  | done => exact h'
  | ask he hn hs hm hr _ ih => exact .ask he hn hs hm hr (ih h')
  | take hw _ ih => exact .take hw (ih h')

theorem Runs.split {c c' : Cursor} {es es' : List Event} (h : Runs c (es ++ es') c') :
    ∃ d, Runs c es d ∧ Runs d es' c' := by
  induction es generalizing c with
  | nil => exact ⟨c, .done, h⟩
  | cons e es ih =>
    cases h with
    | ask he hn hs hm hr h =>
      obtain ⟨d, hd, hd'⟩ := ih h
      exact ⟨d, .ask he hn hs hm hr hd, hd'⟩
    | take hw h =>
      obtain ⟨d, hd, hd'⟩ := ih h
      exact ⟨d, .take hw hd, hd'⟩

theorem Runs.size_bounds {c c' : Cursor} {es : List Event} (h : Runs c es c') {need size : Nat}
    {answer : Except String (List UInt8)} (hmem : .asked need size answer ∈ es) :
    1 ≤ size ∧ size ≤ windowSize := by
  induction h with
  | done => cases hmem
  | ask _ hn hs hm _ _ ih =>
    rcases List.mem_cons.1 hmem with heq | hmem
    · cases heq
      omega
    · exact ih hmem
  | take _ _ ih => exact ih ((List.mem_cons.1 hmem).resolve_left nofun)

/-- A cursor that has seen the end of its stream leaves the stream alone. -/
theorem Runs.not_asked {c c' : Cursor} {es : List Event} (h : Runs c es c') (hc : c.ended = true)
    {need size : Nat} {answer : Except String (List UInt8)} : .asked need size answer ∉ es := by
  induction h with
  | done => exact List.not_mem_nil
  | ask he _ _ _ _ _ _ => cases hc.symm.trans he
  | take _ _ ih =>
    rw [List.mem_cons, not_or]
    exact ⟨nofun, ih ((ended_skip _).trans hc)⟩

/-- No request behind an empty answer. -/
def Orderly (es : List Event) : Prop :=
  es.Pairwise fun e e' => ∀ need size need' size' answer,
    e = .asked need size (.ok []) → e' ≠ .asked need' size' answer

theorem Runs.orderly {c c' : Cursor} {es : List Event} (h : Runs c es c') : Orderly es := by
  induction h with
  | done => exact .nil
  | ask _ _ _ _ _ h ih =>
    refine .cons ?_ ih
    intro e' hmem need size need' size' answer heq he'
    cases heq
    exact h.not_asked rfl (he' ▸ hmem)
  | take _ _ ih => exact .cons (fun _ _ _ _ _ _ _ heq => nomatch heq) ih

/-! ## What events keep -/

theorem failing_iff {reason : String} {c : Cursor} :
    c.Failing reason [] ↔ c.ended = false ∧ c.stream.Failing reason :=
  ⟨fun h => ⟨h.ended, h.ending, h.chunks⟩, fun h => ⟨h.1, h.2.1, h.2.2, List.nil_prefix⟩⟩

/-- The events `es` lead from the cursor `c` to `c'`: what has been taken is the front of what was
there, and nothing else gets lost. -/
structure Passed (c : Cursor) (es : List Event) (c' : Cursor) : Prop where
  bytes : c.bytes = taken es ++ c'.bytes
  offered : c.offered = taken es ++ c'.offered
  position : c'.position = c.position.after (taken es)
  window : c.window.length ≤ windowSize → c'.window.length ≤ windowSize
  requests : c'.stream.requests = (sizes es).reverse ++ c.stream.requests
  failing : ∀ reason, c'.Failing reason [] ↔ c.Failing reason []

theorem Passed.refl (c : Cursor) : Passed c [] c :=
  ⟨rfl, rfl, rfl, id, rfl, fun _ => Iff.rfl⟩

theorem Passed.append {c d c' : Cursor} {es es' : List Event} (h : Passed c es d)
    (h' : Passed d es' c') : Passed c (es ++ es') c' where
  bytes := by rw [h.bytes, h'.bytes, taken_append, List.append_assoc]
  offered := by rw [h.offered, h'.offered, taken_append, List.append_assoc]
  position := by rw [h'.position, h.position, taken_append, Position.after_append]
  window hw := h'.window (h.window hw)
  requests := by
    rw [h'.requests, h.requests, sizes_append, List.reverse_append, List.append_assoc]
  failing reason := (h'.failing reason).trans (h.failing reason)

theorem passed_take {c : Cursor} {b : UInt8} {w : List UInt8} (hw : c.window = b :: w) :
    Passed c [.took b] (skip c) where
  bytes := bytes_skip hw
  offered := offered_skip hw
  position := by rw [skip_eq hw]; rfl
  window h := by
    rw [hw] at h
    rw [skip_eq hw]
    exact Nat.le_of_succ_le h
  requests := by rw [stream_skip]; rfl
  failing reason := by rw [failing_iff, failing_iff, ended_skip, stream_skip]

theorem passed_ask {c : Cursor} {s : Stream} {need size : Nat} {answer : Except String (List UInt8)}
    (he : c.ended = false) (hn : need ≤ windowSize) (hs : 0 < size)
    (hm : size + c.window.length = need) (hr : c.stream.read size = (answer, s)) :
    Passed c [.asked need size answer] (c.receive s answer) := by
  cases answer with
  | error reason =>
    obtain ⟨hc, _, hc'⟩ := Stream.read_error hr
    refine ⟨?_, ?_, rfl, id, Stream.requests_read hr, fun reason => ?_⟩
    · simp [bytes, Stream.bytes, receive, taken, Event.byte?, hc, hc']
    · simp [offered, Stream.offered, receive, taken, Event.byte?, hc, hc']
    · rw [failing_iff, failing_iff]
      exact and_congr_right fun _ => Stream.failing_read hr (by simp) reason
  | ok bs =>
    cases bs with
    | nil =>
      refine ⟨?_, ?_, rfl, id, Stream.requests_read hr, fun reason => ?_⟩
      · simp [bytes, receive, taken, Event.byte?, Stream.bytes_read hr]
      · rcases Stream.offered_of_read hs hr with ⟨_, ho⟩ | ⟨hne, _⟩
        · simp [ho, offered, receive, taken, Event.byte?]
        · exact absurd rfl hne
      · -- the stream neither fails before this answer nor is it asked behind it
        refine ⟨fun h => absurd h.ended (by simp [receive]), fun h => ?_⟩
        rcases Stream.read_nil hs hr with hstop | hstop
        · cases h.ending.symm.trans hstop
        · exact absurd hstop h.chunks
    | cons b bs =>
      refine ⟨?_, ?_, rfl, fun _ => ?_, Stream.requests_read hr, fun reason => ?_⟩
      · simp [bytes, receive, taken, Event.byte?, Stream.bytes_read hr]
      · rcases Stream.offered_of_read hs hr with ⟨hnil, _⟩ | ⟨_, ho⟩
        · cases hnil
        · simp [ho, offered, receive, taken, Event.byte?, he]
      · have hlen := (Stream.read_ok hr).1
        simp only [receive, List.length_append]
        omega
      · rw [failing_iff, failing_iff]
        exact and_congr_right fun _ => Stream.failing_read hr (by simp) reason

theorem Runs.passed {c c' : Cursor} {es : List Event} (h : Runs c es c') : Passed c es c' := by
  induction h with
  | done => exact .refl _
  | ask he hn hs hm hr _ ih => exact (passed_ask he hn hs hm hr).append ih
  | take hw _ ih => exact (passed_take hw).append ih

/-! ## Steps of a query -/

/-- The cursor takes the bytes `ys` and asks for no more than to have `need` bytes in its window. -/
def Reaches (need : Nat) (ys : List UInt8) (c c' : Cursor) : Prop :=
  ∃ es, Runs c es c' ∧ (∀ e ∈ es, e.AsksFor need) ∧ taken es = ys

theorem Reaches.refl (need : Nat) (c : Cursor) : Reaches need [] c c :=
  ⟨[], .done, nofun, rfl⟩

theorem Reaches.append {need : Nat} {ys zs : List UInt8} {c d c' : Cursor}
    (h : Reaches need ys c d) (h' : Reaches need zs d c') : Reaches need (ys ++ zs) c c' := by
  obtain ⟨es, hes, hask, rfl⟩ := h
  obtain ⟨es', hes', hask', rfl⟩ := h'
  exact ⟨es ++ es', hes.append hes', List.forall_mem_append.2 ⟨hask, hask'⟩, taken_append ..⟩

theorem reaches_take {need : Nat} {c : Cursor} {b : UInt8} {w : List UInt8}
    (hw : c.window = b :: w) : Reaches need [b] c (skip c) :=
  ⟨[.took b], .take hw .done, by simp [Event.AsksFor], rfl⟩

theorem reaches_ask {c : Cursor} {s : Stream} {need : Nat} {answer : Except String (List UInt8)}
    (hn : need ≤ windowSize) (h : ¬ (need ≤ c.window.length ∨ c.ended = true))
    (hr : c.stream.read (need - c.window.length) = (answer, s)) :
    Reaches need [] c (c.receive s answer) := by
  rw [not_or, Bool.not_eq_true, Nat.not_le] at h
  refine ⟨[.asked need (need - c.window.length) answer], ?_, by simp [Event.AsksFor], rfl⟩
  exact .ask h.2 hn (Nat.sub_pos_of_lt h.1) (Nat.sub_add_cancel (Nat.le_of_lt h.1)) hr .done

theorem reaches_fill {n : Nat} (hn : n ≤ windowSize) (c : Cursor) :
    Reaches n [] c (endState (fill n c)) := by
  fun_induction fill n c with
  | case1 => exact .refl n _
  | case2 c h reason s hr => exact reaches_ask hn h hr
  | case3 c h s hr => exact reaches_ask hn h hr
  | case4 c h b bs s hr ih => exact (reaches_ask hn h hr).append ih

theorem Reaches.offered {need : Nat} {ys : List UInt8} {c c' : Cursor} (h : Reaches need ys c c') :
    c.offered = ys ++ c'.offered := by
  obtain ⟨es, hes, _, rfl⟩ := h
  exact hes.passed.offered

theorem Reaches.failing {need : Nat} {ys : List UInt8} {c c' : Cursor} (h : Reaches need ys c c')
    (reason : String) : c'.Failing reason [] ↔ c.Failing reason [] := by
  obtain ⟨es, hes, _, rfl⟩ := h
  exact hes.passed.failing reason

/-- Only a stream that fails makes a request fail. -/
theorem failing_of_fill_error {n : Nat} (hn : n ≤ windowSize) {c c' : Cursor} {e : Failure}
    (h : fill n c = .error e c') : ∃ reason, c.Failing reason [] := by
  fun_induction fill n c with
  | case1 => cases h
  | case2 c hask reason s hr =>
    obtain ⟨hc, hend, _⟩ := Stream.read_error hr
    rw [not_or, Bool.not_eq_true] at hask
    exact ⟨reason, hask.2, hend, hc ▸ List.not_mem_nil, List.nil_prefix⟩
  | case3 => cases h
  | case4 c hask b bs s hr ih =>
    obtain ⟨reason, hfail⟩ := ih h
    exact ⟨reason, ((reaches_ask hn hask hr).failing reason).1 hfail⟩

/-- What comes of looking at the next `n` bytes. -/
inductive Looks (n : Nat) (c : Cursor) : EStateM.Result Failure Cursor (List UInt8) → Prop where
  | shown {c' : Cursor} :
      (∀ reason, c.Failing reason [] → n ≤ c.offered.length) →
      c'.window.take n = c.offered.take n → Reaches n [] c c' →
      Looks n c (.ok (c.offered.take n) c')
  | starved {reason : String} {c' : Cursor} :
      c.Failing reason [] → c.offered.length < n → Reaches n [] c c' →
      Looks n c (.error (.refused ⟨.unreadable reason, c'.position⟩) c')

theorem looks_ahead {n : Nat} (hn : n ≤ windowSize) (c : Cursor) : Looks n c (ahead n c) := by
  have hreach := reaches_fill hn c
  rw [ahead, if_neg (Nat.not_lt.2 hn)]
  cases hfill : fill n c with
  | ok u c' =>
    rw [hfill] at hreach
    obtain ⟨ho, _, hlen⟩ := fill_ok hfill
    have htake : c'.window.take n = c.offered.take n := by
      rw [← ho]
      rcases hlen with hlen | he
      · rw [Cursor.offered, List.take_append_of_le_length hlen]
      · simp [Cursor.offered, he]
    simp only [htake]
    refine .shown (fun reason h => ?_) htake hreach
    rcases h.filled n with ⟨hle, _⟩ | ⟨_, _, hfail, _⟩
    · exact hle
    · cases hfill.symm.trans hfail
  | error e c' =>
    rw [hfill] at hreach
    obtain ⟨reason, h⟩ := failing_of_fill_error hn hfill
    rcases h.filled n with ⟨_, _, hok, _⟩ | ⟨hlt, d, hfail, hp, _⟩
    · cases hfill.symm.trans hok
    · cases hfill.symm.trans hfail
      simp only [← hp]
      exact .starved h hlt hreach

/-! ## Queries -/

/-- What can be asked of a cursor. -/
inductive Query where
  | peek
  | take
  | atEnd
  | ahead (n : Nat)
  | takeWhile (p : UInt8 → Bool)

inductive Answer where
  | byte (b : Option UInt8)
  | flag (b : Bool)
  | bytes (bs : List UInt8)

namespace Query

def scan : Query → Scan Cursor Answer
  | peek => .byte <$> Scan.peek
  | take => .byte <$> Scan.take
  | atEnd => .flag <$> Scan.atEnd
  | ahead n => .bytes <$> shown n
  | takeWhile p => .bytes <$> Scan.takeWhile p

/-- How many bytes a query looks at at a time. -/
def need : Query → Nat
  | ahead n => n
  | _ => 1

theorem need_takeWhile (p : UInt8 → Bool) : (takeWhile p).need ≤ windowSize :=
  show 1 ≤ 4 by decide

/-- The answer on a plain byte list. -/
def answer : Query → List UInt8 → Answer
  | peek, bs => .byte bs.head?
  | take, bs => .byte bs.head?
  | atEnd, bs => .flag bs.isEmpty
  | ahead n, bs => .bytes (bs.take n)
  | takeWhile p, bs => .bytes (bs.takeWhile p)

/-- What is left of a plain byte list. -/
def left : Query → List UInt8 → List UInt8
  | take, bs => bs.tail
  | takeWhile p, bs => bs.dropWhile p
  | _, bs => bs

theorem left_of_tooFar {q : Query} (h : windowSize < q.need) (bs : List UInt8) : q.left bs = bs := by
  cases q with
  | peek => rfl
  | atEnd => rfl
  | ahead n => rfl
  | take => exact absurd h (by decide)
  | takeWhile p => exact absurd h (Nat.not_lt.2 (need_takeWhile p))

/-- The query looks for a byte behind the end of the list. -/
def Overruns : Query → List UInt8 → Prop
  | ahead n, bs => bs.length < n
  | takeWhile p, bs => ∀ b ∈ bs, p b = true
  | _, bs => bs = []

end Query

/-- What comes of a query: the answer of the plain list; or the failure of a stream that has no byte
left where one is looked for; or a refusal to look further than the window. -/
inductive Serves (q : Query) (c : Cursor) : EStateM.Result Failure Cursor Answer → Prop where
  | answered {c' : Cursor} {ys : List UInt8} :
      q.need ≤ windowSize → (∀ reason, c.Failing reason [] → ¬ q.Overruns c.offered) →
      c.offered = ys ++ q.left c.offered → Reaches q.need ys c c' →
      Serves q c (.ok (q.answer c.offered) c')
  | starved {reason : String} {c' : Cursor} {ys : List UInt8} :
      q.need ≤ windowSize → c.Failing reason [] → q.Overruns c.offered →
      c.offered = ys ++ q.left c.offered → Reaches q.need ys c c' →
      Serves q c (.error (.refused ⟨.unreadable reason, c'.position⟩) c')
  | tooFar : windowSize < q.need → Serves q c (.error (.windowTooSmall windowSize) c)

theorem map_ok {α β : Type} {f : α → β} {m : Scan Cursor α} {c c' : Cursor} {a : α}
    (h : m c = .ok a c') : (f <$> m) c = .ok (f a) c' := by
  show EStateM.map f m c = _
  simp only [EStateM.map, h]

theorem map_error {α β : Type} {f : α → β} {m : Scan Cursor α} {c c' : Cursor} {e : Failure}
    (h : m c = .error e c') : (f <$> m) c = .error e c' := by
  show EStateM.map f m c = _
  simp only [EStateM.map, h]

/-- A query that only looks ahead. -/
theorem serves_look {q : Query} {f : List UInt8 → Answer} (hscan : q.scan = f <$> ahead q.need)
    (hanswer : ∀ bs, q.answer bs = f (bs.take q.need)) (hleft : ∀ bs, q.left bs = bs)
    (hover : ∀ bs, q.Overruns bs ↔ bs.length < q.need) (c : Cursor) : Serves q c (q.scan c) := by
  rw [hscan]
  by_cases hn : q.need ≤ windowSize
  · have hlook := looks_ahead hn c
    generalize hr : ahead q.need c = r at hlook
    cases hlook with
    | shown hopen _ hreach =>
      rw [map_ok hr, ← hanswer]
      refine .answered hn (fun reason h => ?_) (hleft _).symm hreach
      rw [hover, Nat.not_lt]
      exact hopen reason h
    | starved hfail hlt hreach =>
      rw [map_error hr]
      exact .starved hn hfail ((hover _).2 hlt) (hleft _).symm hreach
  · have hlt : windowSize < q.need := Nat.lt_of_not_le hn
    have hr : ahead q.need c = .error (.windowTooSmall windowSize) c := if_pos hlt
    rw [map_error hr]
    exact .tooFar hlt

theorem length_lt_one {bs : List UInt8} : bs = [] ↔ bs.length < 1 := by
  cases bs <;> simp

theorem serves_peek (c : Cursor) : Serves .peek c (Query.scan .peek c) := by
  refine serves_look (q := .peek) (f := fun bs => .byte bs.head?) ?_ ?_ (fun _ => rfl)
    (fun _ => length_lt_one) c
  · simp only [Query.scan, Scan.peek, bind_pure_comp, Functor.map_map]
    rfl
  · intro bs
    cases bs <;> rfl

theorem serves_atEnd (c : Cursor) : Serves .atEnd c (Query.scan .atEnd c) := by
  refine serves_look (q := .atEnd) (f := fun bs => .flag bs.head?.isNone) ?_ ?_ (fun _ => rfl)
    (fun _ => length_lt_one) c
  · simp only [Query.scan, Scan.atEnd, Scan.peek, bind_pure_comp, Functor.map_map]
    rfl
  · intro bs
    cases bs <;> rfl

theorem serves_ahead (n : Nat) (c : Cursor) : Serves (.ahead n) c (Query.scan (.ahead n) c) :=
  serves_look (f := .bytes) rfl (fun _ => rfl) (fun _ => rfl) (fun _ => Iff.rfl) c

/-- What comes of taking the next byte if it satisfies `p`. -/
inductive TakesIf (p : UInt8 → Bool) (c : Cursor) :
    EStateM.Result Failure Cursor (Option UInt8) → Prop where
  | taken {b : UInt8} {rest : List UInt8} {c' : Cursor} :
      c.offered = b :: rest → p b = true → Reaches 1 [b] c c' → TakesIf p c (.ok (some b) c')
  | kept {b : UInt8} {rest : List UInt8} {c' : Cursor} :
      c.offered = b :: rest → p b = false → Reaches 1 [] c c' → TakesIf p c (.ok none c')
  | ended {c' : Cursor} :
      c.offered = [] → (∀ reason, ¬ c.Failing reason []) → Reaches 1 [] c c' →
      TakesIf p c (.ok none c')
  | starved {reason : String} {c' : Cursor} :
      c.offered = [] → c.Failing reason [] → Reaches 1 [] c c' →
      TakesIf p c (.error (.refused ⟨.unreadable reason, c'.position⟩) c')

theorem takesIf (p : UInt8 → Bool) (c : Cursor) : TakesIf p c (Scan.takeIf p c) := by
  have hlook := looks_ahead (n := 1) (by decide) c
  generalize hr : Cursor.ahead 1 c = r at hlook
  cases hlook with
  | starved hfail hlt hreach =>
    have hpeek : (Scan.peek : Scan Cursor (Option UInt8)) c = _ := bind_error hr
    rw [Scan.takeIf, bind_error hpeek]
    exact .starved (length_lt_one.2 hlt) hfail hreach
  | @shown c' hopen hwin hreach =>
    have hpeek : (Scan.peek : Scan Cursor (Option UInt8)) c = _ := bind_ok hr
    rw [Scan.takeIf, bind_ok hpeek]
    cases ho : c.offered with
    | nil =>
      refine .ended ho (fun reason h => ?_) hreach
      have := hopen reason h
      rw [ho] at this
      exact absurd this (by decide)
    | cons b rest =>
      cases hp : p b with
      | false =>
        simp only [List.take_succ_cons, List.take_zero, List.head?_cons, hp]
        exact .kept ho hp hreach
      | true =>
        obtain ⟨w, hw⟩ : ∃ w, c'.window = b :: w := by
          rw [ho] at hwin
          cases hw : c'.window with
          | nil => simp [hw] at hwin
          | cons d w => simp_all
        simp only [List.take_succ_cons, List.take_zero, List.head?_cons, hp]
        exact .taken ho hp (hreach.append (reaches_take hw))

theorem serves_take (c : Cursor) : Serves .take c (Query.scan .take c) := by
  have htake := takesIf (fun _ => true) c
  generalize hr : Scan.takeIf (fun _ => true) c = r at htake
  cases htake with
  | taken ho _ hreach =>
    have hscan : Query.scan .take c = _ := map_ok hr
    rw [hscan]
    have hs := Serves.answered (q := .take) (c := c) (by decide) ?_ ?_ hreach
    · rwa [Query.answer, ho] at hs
    · intro _ _ hover
      cases ho.symm.trans hover
    · rw [ho]
      rfl
  | kept _ h _ => cases h
  | ended ho hopen hreach =>
    have hscan : Query.scan .take c = _ := map_ok hr
    rw [hscan]
    have hs := Serves.answered (q := .take) (c := c) (by decide) ?_ ?_ hreach
    · rwa [Query.answer, ho] at hs
    · intro reason h
      exact absurd h (hopen reason)
    · rw [ho]
      rfl
  | starved ho hfail hreach =>
    have hscan : Query.scan .take c = _ := map_error hr
    rw [hscan]
    exact .starved (by decide) hfail ho (by rw [ho]; rfl) hreach

/-- What comes of taking bytes as long as they satisfy `p`. -/
inductive TakesWhile (p : UInt8 → Bool) (c : Cursor) : Run Cursor UInt8 → Prop where
  | stopped {c' : Cursor} :
      (∀ reason, c.Failing reason [] → ¬ ∀ b ∈ c.offered, p b = true) →
      Reaches 1 (c.offered.takeWhile p) c c' → TakesWhile p c ⟨c.offered.takeWhile p, none, c'⟩
  | starved {reason : String} {c' : Cursor} :
      c.Failing reason [] → (∀ b ∈ c.offered, p b = true) →
      Reaches 1 (c.offered.takeWhile p) c c' →
      TakesWhile p c
        ⟨c.offered.takeWhile p, some (.refused ⟨.unreadable reason, c'.position⟩), c'⟩

theorem TakesWhile.cons {p : UInt8 → Bool} {b : UInt8} {rest : List UInt8} {c c₁ : Cursor}
    {r : Run Cursor UInt8} (h : TakesWhile p c₁ r) (ho : c.offered = b :: rest) (hp : p b = true)
    (hreach : Reaches 1 [b] c c₁) : TakesWhile p c ⟨b :: r.items, r.failure, r.final⟩ := by
  have hrest : rest = c₁.offered := by
    have := hreach.offered
    rw [ho] at this
    exact (List.cons.inj this).2
  have htw : c.offered.takeWhile p = b :: c₁.offered.takeWhile p := by
    rw [ho, List.takeWhile_cons, hp, hrest]
    rfl
  have hall : (∀ d ∈ c.offered, p d = true) ↔ ∀ d ∈ c₁.offered, p d = true := by
    rw [ho, hrest, List.forall_mem_cons, and_iff_right hp]
  cases h with
  | stopped hopen hreach' =>
    rw [← htw]
    refine .stopped (fun reason h => ?_) (htw ▸ hreach.append hreach')
    rw [hall]
    exact hopen reason ((hreach.failing reason).2 h)
  | starved hfail hall' hreach' =>
    rw [← htw]
    exact .starved ((hreach.failing _).1 hfail) (hall.2 hall') (htw ▸ hreach.append hreach')

theorem takesWhile (p : UInt8 → Bool) (c : Cursor) :
    TakesWhile p c (run (takeIf p) (progresses_takeIf p) c) := by
  fun_induction run (takeIf p) (progresses_takeIf p) c with
  | case1 c e c' hs =>
    have htake := hs ▸ takesIf p c
    cases htake with
    | starved ho hfail hreach =>
      have htw : c.offered.takeWhile p = [] := by rw [ho]; rfl
      have hall : ∀ b ∈ c.offered, p b = true := by simp [ho]
      exact htw ▸ TakesWhile.starved hfail hall (htw.symm ▸ hreach)
  | case2 c c' hs =>
    have htake := hs ▸ takesIf p c
    cases htake with
    | @kept b rest _ ho hp hreach =>
      have htw : c.offered.takeWhile p = [] := by rw [ho, List.takeWhile_cons, hp]; rfl
      refine htw ▸ TakesWhile.stopped (fun _ _ hall => ?_) (htw.symm ▸ hreach)
      have hb := hall b (by simp [ho])
      rw [hp] at hb
      cases hb
    | ended ho hopen hreach =>
      have htw : c.offered.takeWhile p = [] := by rw [ho]; rfl
      exact htw ▸ TakesWhile.stopped (fun reason h => absurd h (hopen reason)) (htw.symm ▸ hreach)
  | case3 c b c₁ hs r ih =>
    have htake := hs ▸ takesIf p c
    cases htake with
    | taken ho hp hreach => exact ih.cons ho hp hreach

theorem serves_takeWhile (p : UInt8 → Bool) (c : Cursor) :
    Serves (.takeWhile p) c (Query.scan (.takeWhile p) c) := by
  have htakes := takesWhile p c
  generalize hr : run (takeIf p) (progresses_takeIf p) c = r at htakes
  have hsplit := (List.takeWhile_append_dropWhile (p := p) (l := c.offered)).symm
  cases htakes with
  | @stopped c' hopen hreach =>
    have htw : Scan.takeWhile p c = .ok (c.offered.takeWhile p) c' := by
      rw [Scan.takeWhile, many, hr]
    have hscan : Query.scan (.takeWhile p) c = _ := map_ok htw
    rw [hscan]
    exact .answered (Query.need_takeWhile p) hopen hsplit hreach
  | @starved reason c' hfail hall hreach =>
    have htw : Scan.takeWhile p c = .error (.refused ⟨.unreadable reason, c'.position⟩) c' := by
      rw [Scan.takeWhile, many, hr]
    have hscan : Query.scan (.takeWhile p) c = _ := map_error htw
    rw [hscan]
    exact .starved (Query.need_takeWhile p) hfail hall hsplit hreach

theorem serves (q : Query) (c : Cursor) : Serves q c (q.scan c) := by
  cases q with
  | peek => exact serves_peek c
  | take => exact serves_take c
  | atEnd => exact serves_atEnd c
  | ahead n => exact serves_ahead n c
  | takeWhile p => exact serves_takeWhile p c

/-! ## Sessions -/

/-- The queries `qs`, made one after another of a cursor, whether the earlier ones have failed or not,
with what the cursor does for them. -/
inductive Session : Cursor → List Query → List Event → Cursor → Prop where
  | done {c : Cursor} : Session c [] [] c
  | query {c c' : Cursor} {q : Query} {qs : List Query} {es es' : List Event} :
      Runs c es (endState (q.scan c)) → (∀ e ∈ es, e.AsksFor q.need) →
      Session (endState (q.scan c)) qs es' c' → Session c (q :: qs) (es ++ es') c'

theorem Session.runs {c c' : Cursor} {qs : List Query} {es : List Event} (h : Session c qs es c') :
    Runs c es c' := by
  induction h with
  | done => exact .done
  | query h _ _ ih => exact h.append ih

/-- What a query leaves of the bytes that are offered, whether it fails or not. -/
theorem Serves.reaches {q : Query} {c : Cursor} {r : EStateM.Result Failure Cursor Answer}
    (h : Serves q c r) :
    ∃ ys, c.offered = ys ++ q.left c.offered ∧ Reaches q.need ys c (endState r) := by
  cases h with
  | answered _ _ ho hreach => exact ⟨_, ho, hreach⟩
  | starved _ _ _ ho hreach => exact ⟨_, ho, hreach⟩
  | tooFar hlt =>
    exact ⟨[], (Query.left_of_tooFar hlt _).symm, .refl _ c⟩

/-- Whatever is asked, there is one session, and it leaves what the plain list has left. -/
theorem exists_session (qs : List Query) (c : Cursor) :
    ∃ es c', Session c qs es c' ∧ c'.offered = qs.foldl (fun bs q => q.left bs) c.offered := by
  induction qs generalizing c with
  | nil => exact ⟨[], c, .done, rfl⟩
  | cons q qs ih =>
    obtain ⟨ys, ho, hreach⟩ := (serves q c).reaches
    have hleft : (endState (q.scan c)).offered = q.left c.offered :=
      (List.append_cancel_left (ho.symm.trans hreach.offered)).symm
    obtain ⟨es, hes, hask, _⟩ := hreach
    obtain ⟨es', c', hsession, hoffered⟩ := ih (endState (q.scan c))
    exact ⟨es ++ es', c', .query hes hask hsession, by rw [hoffered, hleft, List.foldl_cons]⟩

/-- What holds of a cursor on the stream `s` behind the events `es`. -/
structure Moment (s : Stream) (es : List Event) (c : Cursor) : Prop where
  bytes : s.bytes = taken es ++ c.window ++ c.stream.bytes
  position : c.position = placeBehind (taken es)
  window : c.window.length ≤ windowSize
  requests : c.stream.requests = (sizes es).reverse ++ s.requests

theorem Runs.moment {s : Stream} {c : Cursor} {es : List Event} (h : Runs (ofStream s) es c) :
    Moment s es c where
  bytes := by
    rw [List.append_assoc]
    exact h.passed.bytes
  position := h.passed.position.trans (after_placeBehind [] _)
  window := h.passed.window (Nat.zero_le _)
  requests := h.passed.requests

/-- What comes of a query where the bytes `rest` are left of those that the stream `s` offers. An answer
is that of the plain list. A query fails only where the stream has no byte left to look at and fails, or
where it looks too far; then it takes nothing, except that a run of bytes is taken up to the failure. -/
inductive Agrees (s : Stream) (rest : List UInt8) (q : Query) (c : Cursor) :
    EStateM.Result Failure Cursor Answer → Prop where
  | answered {c' : Cursor} :
      q.need ≤ windowSize → (∀ reason, s.Failing reason → ¬ q.Overruns rest) →
      Agrees s rest q c (.ok (q.answer rest) c')
  | starved {reason : String} {c' : Cursor} :
      q.need ≤ windowSize → s.Failing reason → q.Overruns rest →
      ((∀ p, q ≠ .takeWhile p) → c'.bytes = c.bytes ∧ c'.position = c.position) →
      Agrees s rest q c (.error (.refused ⟨.unreadable reason, c'.position⟩) c')
  | tooFar : windowSize < q.need → Agrees s rest q c (.error (.windowTooSmall windowSize) c)

/-- Where a query looks for more than there is, nothing is left to be taken. -/
theorem Query.left_of_overruns {q : Query} (hq : ∀ p, q ≠ .takeWhile p) {bs : List UInt8}
    (h : q.Overruns bs) : q.left bs = bs := by
  cases q with
  | peek => rfl
  | atEnd => rfl
  | ahead n => rfl
  | take =>
    cases h
    rfl
  | takeWhile p => exact absurd rfl (hq p)

theorem Reaches.still {need : Nat} {c c' : Cursor} (h : Reaches need [] c c') :
    c'.bytes = c.bytes ∧ c'.position = c.position := by
  obtain ⟨es, hes, _, htaken⟩ := h
  have hb := hes.passed.bytes
  have hp := hes.passed.position
  rw [htaken] at hb hp
  exact ⟨hb.symm, hp⟩

theorem Serves.agrees {s : Stream} {q : Query} {c : Cursor} {r : EStateM.Result Failure Cursor Answer}
    (h : Serves q c r) (hfailing : ∀ reason, c.Failing reason [] ↔ s.Failing reason) :
    Agrees s c.offered q c r := by
  cases h with
  | answered hn hopen _ _ => exact .answered hn fun reason h => hopen reason ((hfailing reason).2 h)
  | @starved reason c' ys hn hfail hover ho hreach =>
    refine .starved hn ((hfailing reason).1 hfail) hover fun hq => ?_
    rw [Query.left_of_overruns hq hover] at ho
    cases List.self_eq_append_left.1 ho
    exact hreach.still
  | tooFar hlt => exact .tooFar hlt

/-- However the bytes of a stream are cut into chunks and whatever is asked: at every moment what has
been taken, the window and the stream are the bytes of the stream, the place is the one behind the taken
bytes, and the window holds four bytes at most; the cursor asks for what it misses, one to four bytes,
and for nothing behind an empty answer; and the next query, whichever it is, is answered from the plain
list of the bytes before the first empty answer. -/
theorem session_refines_list (chunks : List (List UInt8)) (ending : Ending) (qs : List Query) :
    let s := Stream.ofChunks chunks ending
    let rest := qs.foldl (fun bs q => q.left bs) s.offered
    ∃ es c, Session (ofStream s) qs es c ∧
      (∀ es₁ es₂, es = es₁ ++ es₂ → ∃ d, Runs (ofStream s) es₁ d ∧ Runs d es₂ c ∧ Moment s es₁ d) ∧
      (∀ need size answer, .asked need size answer ∈ es → 1 ≤ size ∧ size ≤ windowSize) ∧
      Orderly es ∧ s.offered = taken es ++ rest ∧ ∀ q, Agrees s rest q c (q.scan c) := by
  intro s rest
  have hstart : (ofStream s).offered = s.offered := rfl
  obtain ⟨es, c, hsession, hrest⟩ := exists_session qs (ofStream s)
  rw [hstart] at hrest
  have hruns := hsession.runs
  refine ⟨es, c, hsession, ?_, fun _ _ _ hmem => hruns.size_bounds hmem, hruns.orderly, ?_, ?_⟩
  · rintro es₁ es₂ rfl
    obtain ⟨d, h₁, h₂⟩ := hruns.split
    exact ⟨d, h₁, h₂, h₁.moment⟩
  · rw [← hstart, hruns.passed.offered, hrest]
  · intro q
    have hfailing (reason : String) : c.Failing reason [] ↔ s.Failing reason :=
      (hruns.passed.failing reason).trans (failing_iff.trans (and_iff_right rfl))
    have hagrees := (serves q c).agrees hfailing
    rwa [hrest] at hagrees

end Cursor
end ProtoSchema
