import ProtoSchema.Editor.Workspace
import ProtoSchema.Proofs.Editor.Diagnostic
import ProtoSchema.Proofs.Editor.Symbol
import ProtoSchema.Proofs.Editor.Table

/-!
# ProtoSchema.Proofs.Editor.Workspace

What a workspace holds and replies, by the requests it has answered. A `History` says by itself which text
each document has last been given, which encoding has been agreed on, and whether a shutdown has been
asked for; `History.reply` is the reply it calls for, or the error in place of one. A workspace that has
answered a history holds just what the history says (`Mirrors`), replies as the next request calls for, and
leaves the other documents alone (`run_history`). A request whose text has a verdict and is not longer than
the protocol counts is always answered (`History.reply_eq_ok`).
-/

namespace ProtoSchema

open Text Syntactic

namespace Request

/-- The document that a request changes, and the text that it leaves there, if it leaves one. -/
def change? : Request → Option (String × Option String)
  | .opened uri text | .changed uri text | .analyze uri text _ => some (uri, some text)
  | .closed uri | .forget uri => some (uri, none)
  | .outline _ | .shutdown | .agree _ | .symbols _ _ => none

/-- What a request leaves in the document `uri`, if it changes that document. -/
def leaves? (uri : String) (r : Request) : Option (Option String) :=
  r.change?.bind fun c => if c.1 = uri then some c.2 else none

def agreed? : Request → Option Encoding
  | .agree e => some e
  | _ => none

def asksShutdown : Request → Bool
  | .shutdown => true
  | _ => false

theorem leaves?_eq_some_iff {uri : String} {r : Request} {t : Option String} :
    r.leaves? uri = some t ↔ r.change? = some (uri, t) := by
  cases h : r.change? with
  | none => simp [leaves?, h]
  | some c => simp [leaves?, h, Prod.ext_iff]

theorem leaves?_eq_none_iff {uri : String} {r : Request} :
    r.leaves? uri = none ↔ ∀ t, r.change? ≠ some (uri, t) := by
  rw [Option.eq_none_iff_forall_ne_some]
  exact forall_congr' fun _ => not_congr leaves?_eq_some_iff

theorem settings_of_change {r : Request} {c : String × Option String} (h : r.change? = some c) :
    r.agreed? = none ∧ r.asksShutdown = false := by
  cases r <;> first | exact ⟨rfl, rfl⟩ | cases h

end Request

/-- The text of the document `uri` holds a document or is refused with one error. -/
def HasVerdict (uri text : String) : Prop :=
  (∃ d, Document.ofText text (some uri) = .ok d) ∨
    ∃ e, Document.ofText text (some uri) = .error (.refused e)

/-- What the text of the document `uri` holds. -/
def held (uri text : String) : Option Document := (Document.ofText text (some uri)).toOption

/-- The diagnostics of the text of the document `uri`: the one of its error, if it has one. -/
def complaints (protocol : Protocol) (name uri text : String) (enc : Encoding) :
    Except EditorError (List Diagnostic) :=
  match Document.ofText text (some uri) with
  | .ok _ => .ok []
  | .error (.refused e) =>
    match e.diagnostic protocol (lines text.toList) name enc with
    | .ok d => .ok [d]
    | .error refusal => .error (.spot refusal)
  | .error f => .error (.reading f)

/-- The text that a request leaves has a verdict. -/
def Request.HasVerdict (r : Request) : Prop :=
  ∀ uri text, r.change? = some (uri, some text) → ProtoSchema.HasVerdict uri text

/-- The text that a request leaves is not longer than `limit`, in the units of any encoding. -/
def Request.Fits (limit : Nat) (r : Request) : Prop :=
  ∀ uri text, r.change? = some (uri, some text) → ∀ e : Encoding, e.units text.toList ≤ limit

/-- The requests that have been answered, in order. -/
abbrev History := List Request

namespace History

/-- The text that the document `uri` has last been given, unless it has been dropped since. -/
def text? (rs : History) (uri : String) : Option String :=
  (rs.reverse.findSome? (Request.leaves? uri)).join

/-- Some request gives the document `uri` a text, and no request behind it changes the document. -/
def Gives (rs : History) (uri text : String) : Prop :=
  ∃ before r after, rs = before ++ r :: after ∧ r.change? = some (uri, some text) ∧
    ∀ q ∈ after, ∀ t, q.change? ≠ some (uri, t)

/-- The encoding that has last been agreed on; `e` before any has. -/
def encoding (rs : History) (e : Encoding) : Encoding :=
  (rs.reverse.findSome? Request.agreed?).getD e

def closing (rs : History) : Bool := rs.any Request.asksShutdown

section Replies

variable (protocol : Protocol) (name : String) (e : Encoding)

/-- The outline of the last text of the document `uri`, if that text holds a document. -/
def symbols (rs : History) (uri : String) (enc : Encoding) : Except EditorError (List Symbol) :=
  match rs.text? uri with
  | none => .ok []
  | some text =>
    match Document.ofText text (some uri) with
    | .ok d => (d.symbols protocol text enc).mapError .spot
    | .error _ => .ok []

/-- The reply that a request calls for, behind a history of a server called `name` that has begun with the
encoding `e`, or why there is none. -/
def reply (rs : History) : Request → Except EditorError Reply
  | .opened uri text | .changed uri text =>
    (complaints protocol name uri text (rs.encoding e)).map fun ds => ⟨.nothing, [(uri, ds)]⟩
  | .analyze uri text enc =>
    (complaints protocol name uri text enc).map fun ds => ⟨.document (held uri text), [(uri, ds)]⟩
  | .closed uri | .forget uri => .ok ⟨.nothing, [(uri, [])]⟩
  | .outline uri =>
    if rs.closing then .ok ⟨.shuttingDown, []⟩
    else (rs.symbols protocol uri (rs.encoding e)).map fun ss => ⟨.symbols ss, []⟩
  | .symbols uri enc => (rs.symbols protocol uri enc).map fun ss => ⟨.symbols ss, []⟩
  | .shutdown | .agree _ => .ok ⟨.nothing, []⟩

/-- The history behind a request: it is longer if the request is answered. -/
def grow (rs : History) (r : Request) : History :=
  match rs.reply protocol name e r with
  | .ok _ => rs ++ [r]
  | .error _ => rs

/-- What comes of requests one after another behind a history. -/
def outcomes (rs : History) : List Request → List (Except EditorError Reply)
  | [] => []
  | r :: later => rs.reply protocol name e r :: outcomes (rs.grow protocol name e r) later

/-- The history behind requests that come one after another. -/
def answered (rs : History) (later : List Request) : History := later.foldl (grow protocol name e) rs

end Replies

variable {uri : String} {rs : History} {r : Request} {e : Encoding}

/-- The last text of a document is that of the request that gives it. -/
theorem text?_eq_some_iff {text : String} : rs.text? uri = some text ↔ rs.Gives uri text := by
  rw [text?, Option.join_eq_some_iff, List.findSome?_eq_some_iff]
  constructor
  · rintro ⟨after, r, before, hrs, hr, hafter⟩
    refine ⟨before.reverse, r, after.reverse, ?_, Request.leaves?_eq_some_iff.1 hr, fun q hq =>
      Request.leaves?_eq_none_iff.1 (hafter q (List.mem_reverse.1 hq))⟩
    simpa using congrArg List.reverse hrs
  · rintro ⟨before, r, after, rfl, hr, hafter⟩
    refine ⟨after.reverse, r, before.reverse, by simp, Request.leaves?_eq_some_iff.2 hr, fun q hq =>
      Request.leaves?_eq_none_iff.2 (hafter q (List.mem_reverse.1 hq))⟩

theorem isSome_text?_iff : (rs.text? uri).isSome ↔ ∃ text, rs.Gives uri text := by
  rw [Option.isSome_iff_exists]
  exact exists_congr fun _ => text?_eq_some_iff

theorem text?_append (rs : History) (r : Request) (uri : String) :
    text? (rs ++ [r]) uri = (r.leaves? uri).getD (rs.text? uri) := by
  cases h : r.leaves? uri <;> simp [text?, h]

theorem encoding_append (rs : History) (r : Request) (e : Encoding) :
    encoding (rs ++ [r]) e = r.agreed?.getD (rs.encoding e) := by
  cases h : r.agreed? <;> simp [encoding, h]

theorem closing_append (rs : History) (r : Request) :
    closing (rs ++ [r]) = (rs.closing || r.asksShutdown) := by
  simp [closing]

end History

/-- A table has one entry for each document that has a last text, and `f` gives what the entry holds. -/
structure Recorded {α : Type} (f : String → String → α) (rs : History) (t : Table α) : Prop where
  nodup : t.names.Nodup
  find : ∀ uri, t.find? uri = (rs.text? uri).map (f uri)

namespace Recorded

variable {α : Type} {f : String → String → α} {rs : History} {t : Table α} {r : Request}
  {uri text : String}

theorem mem_names_iff (h : Recorded f rs t) : uri ∈ t.names ↔ ∃ text, rs.Gives uri text := by
  rw [Table.mem_names_iff, h.find, Option.isSome_map, History.isSome_text?_iff]

/-- A request that changes a document, where nothing but its entry changes. -/
theorem change {t' : Table α} {given : Option String} (h : Recorded f rs t)
    (hr : r.change? = some (uri, given)) (hnodup : t'.names.Nodup)
    (hfind : ∀ other, t'.find? other = if other = uri then given.map (f uri) else t.find? other) :
    Recorded f (rs ++ [r]) t' := by
  refine ⟨hnodup, fun other => ?_⟩
  rw [hfind, History.text?_append, h.find, Request.leaves?, hr, Option.bind_some]
  by_cases ho : other = uri
  · simp [ho]
  · simp [ho, Ne.symm ho]

theorem put (h : Recorded f rs t) (hr : r.change? = some (uri, some text)) :
    Recorded f (rs ++ [r]) (t.put uri (f uri text)) :=
  h.change hr (Table.nodup_put h.nodup) fun _ => Table.find?_put

theorem erase (h : Recorded f rs t) (hr : r.change? = some (uri, none)) :
    Recorded f (rs ++ [r]) (t.erase uri) :=
  h.change hr (Table.nodup_erase h.nodup) fun _ => Table.find?_erase

theorem keep (h : Recorded f rs t) (hr : r.change? = none) : Recorded f (rs ++ [r]) t := by
  refine ⟨h.nodup, fun other => ?_⟩
  rw [h.find, History.text?_append, Request.leaves?, hr]
  rfl

/-- A request that does not change a document does not change what is recorded of it. -/
theorem find_eq {t' : Table α} (h : Recorded f rs t) (h' : Recorded f (rs ++ [r]) t')
    (hr : r.leaves? uri = none) : t'.find? uri = t.find? uri := by
  rw [h'.find, h.find, History.text?_append, hr]
  rfl

end Recorded

/-- A workspace holds what a history says: the name of the server and its settings, and for every document
with a last text this text and what it holds. -/
structure Mirrors (name : String) (e : Encoding) (rs : History) (w : Workspace) : Prop where
  name : w.name = name
  encoding : w.encoding = rs.encoding e
  closing : w.closing = rs.closing
  texts : Recorded (fun _ text => text) rs w.texts
  documents : Recorded held rs w.documents

theorem mirrors_empty (name version : String) (e : Encoding) :
    Mirrors name e [] (.empty name version e) :=
  ⟨rfl, rfl, rfl, ⟨List.nodup_nil, fun _ => rfl⟩, ⟨List.nodup_nil, fun _ => rfl⟩⟩

/-- A new text is answered with its diagnostics, and put beside what it holds. -/
theorem Workspace.analyze_eq (protocol : Protocol) (w : Workspace) (uri text : String)
    (enc : Encoding) :
    w.analyze protocol uri text enc = (complaints protocol w.name uri text enc).map fun ds =>
      (⟨.document (held uri text), [(uri, ds)]⟩,
        { w with documents := w.documents.put uri (held uri text), texts := w.texts.put uri text }) := by
  rw [analyze, check, complaints, held]
  cases Document.ofText text (some uri) with
  | ok d => rfl
  | error f =>
    cases f with
    | refused err =>
      dsimp only
      cases err.diagnostic protocol (lines text.toList) w.name enc <;> rfl
    | numberTooLong n => rfl
    | windowTooSmall n => rfl

/-- What a workspace behind the history `rs` makes of a request: it replies as called for and mirrors the
longer history, or it fails as called for. -/
def Follows (protocol : Protocol) (name : String) (e : Encoding) (rs : History) (w : Workspace)
    (r : Request) : Except EditorError Reply → Prop
  | .ok reply => ∃ w', w.handle protocol r = .ok (reply, w') ∧ Mirrors name e (rs ++ [r]) w'
  | .error f => w.handle protocol r = .error f

/-- A request that comes to a reply and a workspace wherever `x` does. -/
theorem Follows.of_map {α : Type} {protocol : Protocol} {name : String} {e : Encoding} {rs : History}
    {w : Workspace} {r : Request} {x : Except EditorError α} {reply : α → Reply} {next : α → Workspace}
    (h : w.handle protocol r = x.map fun a => (reply a, next a))
    (hnext : ∀ a, Mirrors name e (rs ++ [r]) (next a)) :
    Follows protocol name e rs w r (x.map reply) := by
  cases x with
  | ok a => exact ⟨next a, h, hnext a⟩
  | error f => exact h

namespace Mirrors

variable {protocol : Protocol} {name uri text : String} {e : Encoding} {rs : History} {w : Workspace}
  {r : Request}

/-- A request that changes a document leaves the settings alone. -/
theorem change {c : String × Option String} {documents : Table (Option Document)}
    {texts : Table String} (hw : Mirrors name e rs w) (hr : r.change? = some c)
    (htexts : Recorded (fun _ text => text) (rs ++ [r]) texts)
    (hdocuments : Recorded held (rs ++ [r]) documents) :
    Mirrors name e (rs ++ [r]) { w with documents, texts } := by
  obtain ⟨hagreed, hasks⟩ := Request.settings_of_change hr
  refine ⟨hw.name, ?_, ?_, htexts, hdocuments⟩
  · rw [History.encoding_append, hagreed]
    exact hw.encoding
  · rw [History.closing_append, hasks, Bool.or_false]
    exact hw.closing

/-- A new text for a document, where the answer is `a`. -/
theorem analyze {a : Answer} {enc : Encoding} (hw : Mirrors name e rs w)
    (hr : r.change? = some (uri, some text))
    (h : w.handle protocol r = (complaints protocol name uri text enc).map fun ds =>
      (⟨a, [(uri, ds)]⟩,
        { w with documents := w.documents.put uri (held uri text), texts := w.texts.put uri text })) :
    Follows protocol name e rs w r
      ((complaints protocol name uri text enc).map fun ds => ⟨a, [(uri, ds)]⟩) :=
  .of_map h fun _ => hw.change hr (hw.texts.put hr) (hw.documents.put hr)

/-- The workspace puts a new text in the encoding agreed on. -/
theorem refresh_eq (hw : Mirrors name e rs w) :
    w.refresh protocol uri text = (complaints protocol name uri text (rs.encoding e)).map fun ds =>
      (⟨.nothing, [(uri, ds)]⟩,
        { w with documents := w.documents.put uri (held uri text), texts := w.texts.put uri text }) := by
  rw [Workspace.refresh, w.analyze_eq, hw.name, hw.encoding]
  cases complaints protocol name uri text (rs.encoding e) <;> rfl

/-- A document is dropped. -/
theorem forget (hw : Mirrors name e rs w) (hr : r.change? = some (uri, none)) :
    Mirrors name e (rs ++ [r]) (w.forget uri).2 :=
  hw.change hr (hw.texts.erase hr) (hw.documents.erase hr)

/-- A request that changes no document may change the settings. -/
theorem keep {encoding : Encoding} {closing : Bool} (hw : Mirrors name e rs w)
    (hr : r.change? = none) (hencoding : encoding = r.agreed?.getD w.encoding)
    (hclosing : closing = (w.closing || r.asksShutdown)) :
    Mirrors name e (rs ++ [r]) { w with encoding, closing } := by
  refine ⟨hw.name, ?_, ?_, hw.texts.keep hr, hw.documents.keep hr⟩
  · rw [History.encoding_append, ← hw.encoding]
    exact hencoding
  · rw [History.closing_append, ← hw.closing]
    exact hclosing

theorem symbols_eq (hw : Mirrors name e rs w) (uri : String) (enc : Encoding) :
    w.symbols protocol uri enc = (rs.symbols protocol uri enc).map .symbols := by
  rw [Workspace.symbols, History.symbols, hw.documents.find, hw.texts.find]
  cases htext : rs.text? uri with
  | none => rfl
  | some text =>
    cases hread : Document.ofText text (some uri) with
    | error f => simp [held, hread, Except.toOption, Except.map]
    | ok d =>
      simp only [held, hread, Except.toOption, Option.map_some]
      cases d.symbols protocol text enc <;> rfl

/-- An outline changes nothing. -/
theorem outline {enc : Encoding} (hw : Mirrors name e rs w) (hr : r.change? = none)
    (hagreed : r.agreed? = none) (hasks : r.asksShutdown = false)
    (h : w.handle protocol r = (w.symbols protocol uri enc).map fun a => (⟨a, []⟩, w)) :
    Follows protocol name e rs w r ((rs.symbols protocol uri enc).map fun ss => ⟨.symbols ss, []⟩) := by
  have hsent : w.handle protocol r =
      (rs.symbols protocol uri enc).map fun ss => (⟨.symbols ss, []⟩, w) := by
    rw [h, hw.symbols_eq]
    cases rs.symbols protocol uri enc <;> rfl
  refine .of_map hsent fun _ => hw.keep hr ?_ ?_
  · rw [hagreed]
    rfl
  · rw [hasks, Bool.or_false]

/-- One request: the workspace makes of it what the history calls for. -/
theorem handle (hw : Mirrors name e rs w) (protocol : Protocol) (r : Request) :
    Follows protocol name e rs w r (rs.reply protocol name e r) := by
  cases r with
  | opened uri text => exact hw.analyze rfl hw.refresh_eq
  | changed uri text => exact hw.analyze rfl hw.refresh_eq
  | analyze uri text enc => exact hw.analyze rfl (hw.name ▸ w.analyze_eq protocol uri text enc)
  | closed uri => exact ⟨_, rfl, hw.forget rfl⟩
  | forget uri => exact ⟨_, rfl, hw.forget rfl⟩
  | outline uri =>
    rw [History.reply, ← hw.closing, ← hw.encoding]
    by_cases hclosing : w.closing
    · rw [if_pos hclosing]
      exact ⟨w, if_pos hclosing, hw.keep rfl rfl (Bool.or_false _).symm⟩
    · rw [if_neg hclosing]
      exact hw.outline rfl rfl rfl (if_neg hclosing)
  | symbols uri enc => exact hw.outline rfl rfl rfl rfl
  | shutdown => exact ⟨_, rfl, hw.keep rfl rfl (Bool.or_true _).symm⟩
  | agree enc => exact ⟨_, rfl, hw.keep rfl rfl (Bool.or_false _).symm⟩

/-- One request, answered or not: the workspace mirrors the history behind it, and nothing becomes of the
documents that the request does not change. -/
theorem step (hw : Mirrors name e rs w) (protocol : Protocol) (r : Request) :
    ∃ w', w.step protocol r = (rs.reply protocol name e r, w') ∧
      Mirrors name e (rs.grow protocol name e r) w' ∧
      ∀ uri, (∀ t, r.change? ≠ some (uri, t)) →
        w'.texts.find? uri = w.texts.find? uri ∧ w'.documents.find? uri = w.documents.find? uri := by
  have hfollows := hw.handle protocol r
  rw [Workspace.step, History.grow]
  cases hreply : rs.reply protocol name e r with
  | ok reply =>
    rw [hreply] at hfollows
    obtain ⟨w', hhandle, hw'⟩ := hfollows
    refine ⟨w', by rw [hhandle], hw', fun uri hother => ?_⟩
    have hleaves := Request.leaves?_eq_none_iff.2 hother
    exact ⟨hw.texts.find_eq hw'.texts hleaves, hw.documents.find_eq hw'.documents hleaves⟩
  | error f =>
    rw [hreply] at hfollows
    have hhandle : w.handle protocol r = .error f := hfollows
    exact ⟨w, by rw [hhandle], hw, fun _ _ => ⟨rfl, rfl⟩⟩

/-- Requests one after another. -/
theorem run (hw : Mirrors name e rs w) (protocol : Protocol) (later : List Request) :
    ∃ w', w.run protocol later = (rs.outcomes protocol name e later, w') ∧
      Mirrors name e (rs.answered protocol name e later) w' := by
  induction later generalizing rs w with
  | nil => exact ⟨w, rfl, hw⟩
  | cons r later ih =>
    obtain ⟨w₁, hstep, hw₁, _⟩ := hw.step protocol r
    obtain ⟨w', hrun, hw'⟩ := ih hw₁
    exact ⟨w', by rw [Workspace.run, hstep]; simp only [hrun, History.outcomes], hw'⟩

end Mirrors

/-! ## Requests that are answered -/

section Answered

variable {protocol : Protocol} {limit : Nat} {name uri text : String} {e enc : Encoding} {rs : History}
  {r : Request}

theorem complaints_eq_ok (hp : protocol.CountsTo limit) (h : HasVerdict uri text)
    (hlength : enc.units text.toList ≤ limit) :
    ∃ ds, complaints protocol name uri text enc = .ok ds := by
  rw [complaints]
  obtain ⟨d, hd⟩ | ⟨err, herr⟩ := h
  · rw [hd]
    exact ⟨[], rfl⟩
  · obtain ⟨k, _, hplace⟩ := between_of_refused herr
    have hsent := (diagnostic_of_place hp hplace name enc).1 (fits_rangeFrom hlength k 1)
    rw [herr]
    exact ⟨[diagnosticAt err text.toList k name enc], by simp only [hsent]⟩

namespace History

theorem symbols_eq_ok (hp : protocol.CountsTo limit) (h : ∀ r ∈ rs, r.Fits limit) (uri : String)
    (enc : Encoding) :
    ∃ ss, rs.symbols protocol uri enc = .ok ss := by
  rw [symbols]
  cases htext : rs.text? uri with
  | none => exact ⟨[], rfl⟩
  | some text =>
    obtain ⟨before, r, after, hrs, hr, _⟩ := text?_eq_some_iff.1 htext
    have hlength := h r (by rw [hrs]; simp) uri text hr enc
    dsimp only
    cases hread : Document.ofText text (some uri) with
    | error f => exact ⟨[], rfl⟩
    | ok d =>
      obtain ⟨ss, hss⟩ := symbols_of_units_le hp hread hlength
      exact ⟨ss, by simp only [hss]; rfl⟩

/-- A request is answered if its text has a verdict and no text so far is longer than the limit. -/
theorem reply_eq_ok (hp : protocol.CountsTo limit) (hrs : ∀ q ∈ rs, q.Fits limit)
    (hverdict : r.HasVerdict) (hfits : r.Fits limit) (name : String) (e : Encoding) :
    ∃ reply, rs.reply protocol name e r = .ok reply := by
  have complained {uri text : String} (enc : Encoding) (hr : r.change? = some (uri, some text)) :
      ∃ ds, complaints protocol name uri text enc = .ok ds :=
    complaints_eq_ok hp (hverdict uri text hr) (hfits uri text hr enc)
  cases r with
  | opened uri text | changed uri text =>
    obtain ⟨ds, hds⟩ := complained (rs.encoding e) rfl
    exact ⟨_, by rw [reply, hds]; rfl⟩
  | analyze uri text enc =>
    obtain ⟨ds, hds⟩ := complained enc rfl
    exact ⟨_, by rw [reply, hds]; rfl⟩
  | outline uri =>
    rw [reply]
    split
    · exact ⟨_, rfl⟩
    · obtain ⟨ss, hss⟩ := symbols_eq_ok hp hrs uri (rs.encoding e)
      exact ⟨_, by rw [hss]; rfl⟩
  | symbols uri enc =>
    obtain ⟨ss, hss⟩ := symbols_eq_ok hp hrs uri enc
    exact ⟨_, by rw [reply, hss]; rfl⟩
  | closed uri | forget uri | shutdown | agree enc => exact ⟨_, rfl⟩

/-- If all requests have verdicts and none is too long, all are answered. -/
theorem answered_eq_append (hp : protocol.CountsTo limit) {later : List Request}
    (hrs : ∀ q ∈ rs, q.Fits limit) (h : ∀ r ∈ later, r.HasVerdict ∧ r.Fits limit) :
    rs.answered protocol name e later = rs ++ later ∧
      ∀ o ∈ rs.outcomes protocol name e later, ∃ reply, o = .ok reply := by
  induction later generalizing rs with
  | nil => exact ⟨(List.append_nil rs).symm, nofun⟩
  | cons r later ih =>
    rw [List.forall_mem_cons] at h
    obtain ⟨⟨hverdict, hfits⟩, hlater⟩ := h
    obtain ⟨reply, hreply⟩ := reply_eq_ok hp hrs hverdict hfits name e
    have hgrow : rs.grow protocol name e r = rs ++ [r] := by rw [grow, hreply]
    have hall : ∀ q ∈ rs ++ [r], q.Fits limit := by
      simpa [or_imp, forall_and] using ⟨hrs, hfits⟩
    obtain ⟨hanswered, houtcomes⟩ := ih hall hlater
    constructor
    · show answered protocol name e (rs.grow protocol name e r) later = rs ++ r :: later
      rw [hgrow, hanswered, ← List.append_cons]
    · rw [outcomes, hgrow, List.forall_mem_cons]
      exact ⟨⟨reply, hreply⟩, houtcomes⟩

end History
end Answered

/-- A fresh workspace takes every list of requests: it answers each as the requests answered before call
for, or fails as they call for and stays as it is. It then has an entry in either table for just the
documents whose last text came after they were last dropped, holds what the answered requests say of them
(`Mirrors`), and takes every further request in the same way, without a change to the entries of another
document. Where all texts have verdicts and none is longer than the numbers of the protocol go, every
request is answered. -/
theorem Workspace.run_history {protocol : Protocol} {limit : Nat} (hp : protocol.CountsTo limit)
    (name version : String) (e : Encoding) (rs : List Request) :
    let outcomes := History.outcomes protocol name e [] rs
    let answered := History.answered protocol name e [] rs
    ∃ w, (Workspace.empty name version e).run protocol rs = (outcomes, w) ∧
      Mirrors name e answered w ∧
      (∀ uri, (uri ∈ w.texts.names ↔ ∃ text, answered.Gives uri text) ∧
        (uri ∈ w.documents.names ↔ ∃ text, answered.Gives uri text)) ∧
      (∀ r : Request, ∃ w', w.step protocol r = (answered.reply protocol name e r, w') ∧
        Mirrors name e (answered.grow protocol name e r) w' ∧
        ∀ uri, (∀ t, r.change? ≠ some (uri, t)) →
          w'.texts.find? uri = w.texts.find? uri ∧
            w'.documents.find? uri = w.documents.find? uri) ∧
      ((∀ r ∈ rs, r.HasVerdict ∧ r.Fits limit) →
        answered = rs ∧ ∀ o ∈ outcomes, ∃ reply, o = .ok reply) := by
  intro outcomes answered
  obtain ⟨w, hrun, hw⟩ := (mirrors_empty name version e).run protocol rs
  exact ⟨w, hrun, hw, fun uri => ⟨hw.texts.mem_names_iff, hw.documents.mem_names_iff⟩, hw.step protocol,
    History.answered_eq_append hp nofun⟩

/-- Two documents, one refused and one read, and the first one closed again: all is answered in the
protocol with numbers up to 2147483647. -/
theorem Workspace.run_history_sample :
    let protocol := Protocol.upTo 2147483647
    let rs : List Request := [.opened "a.proto" "\n é", .agree .utf8,
      .analyze "b.proto" "syntax = 'proto2'; import ';';" .utf32, .closed "a.proto",
      .outline "b.proto", .shutdown]
    protocol.CountsTo 2147483647 ∧ (∀ r ∈ rs, r.HasVerdict ∧ r.Fits 2147483647) ∧
      ∃ w, (Workspace.empty "proto" "0" .utf16).run protocol rs =
          (History.outcomes protocol "proto" .utf16 [] rs, w) ∧
        (∀ o ∈ History.outcomes protocol "proto" .utf16 [] rs, ∃ reply, o = .ok reply) ∧
        Mirrors "proto" .utf16 rs w ∧
        (∀ uri, (uri ∈ w.texts.names ↔ ∃ text, History.Gives rs uri text) ∧
          (uri ∈ w.documents.names ↔ ∃ text, History.Gives rs uri text)) := by
  intro protocol rs
  have hp : protocol.CountsTo 2147483647 := Protocol.countsTo_upTo _
  have hread : HasVerdict "b.proto" "syntax = 'proto2'; import ';';" :=
    .inl ⟨⟨.proto2, [], [⟨";", .plain, ⟨1, 20⟩⟩], [], [], [], some "b.proto"⟩,
      ofText_of_toOption (by decide +kernel)⟩
  have hrs : ∀ r ∈ rs, r.HasVerdict ∧ r.Fits 2147483647 := by
    intro r hr
    refine ⟨fun uri text hc => ?_, fun uri text hc enc => ?_⟩
    all_goals
      simp only [rs, List.mem_cons, List.not_mem_nil, or_false] at hr
      rcases hr with rfl | rfl | rfl | rfl | rfl | rfl <;> cases hc
    · exact .inr ⟨_, ofText_strayByte⟩
    · exact hread
    · cases enc <;> decide
    · cases enc <;> decide
  obtain ⟨w, hrun, hw, hnames, _, hall⟩ := run_history hp "proto" "0" .utf16 rs
  obtain ⟨hanswered, houtcomes⟩ := hall hrs
  rw [hanswered] at hw hnames
  exact ⟨hp, hrs, w, hrun, houtcomes, hw, hnames⟩

end ProtoSchema
