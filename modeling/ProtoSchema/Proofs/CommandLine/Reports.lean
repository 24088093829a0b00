import Mathlib.Data.List.Forall2
import ProtoSchema.CommandLine.Run

/-!
# ProtoSchema.Proofs.CommandLine.Reports

What `parse` reports. What there is to say about a path depends on that path only (`Finds`), and a run
over many paths writes what the runs over each of them alone write, in order, as long as it can be told of
every path whether something is there. Of a path that is too long, or that leads into a directory which may
not be searched, it cannot (`barrier?`): the run stops there, and the paths behind it are not reported
(`runCommand_parse`).
-/

namespace ProtoSchema
namespace CommandLine

/-- What there is to say about a path. -/
inductive Finding where
  | absent
  | unreadable (e : FileError)
  | refused (e : SourceError)
  | accepted (d : Document)

namespace Finding

/-- What is printed: the text of the document or its summary. -/
def printed (print : Bool) (p : Path) : Finding → String
  | accepted d => if print then d.print else summary p d ++ "\n"
  | _ => ""

/-- The line about what has failed. -/
def reported (p : Path) : Finding → String
  | absent => "Error: File not found: " ++ p.text ++ "\n"
  | unreadable e => "Error reading " ++ p.text ++ ": " ++ e.message ++ "\n"
  | refused e => errorLine p e ++ "\n"
  | accepted _ => ""

theorem reported_accepted (p : Path) (d : Document) : (accepted d).reported p = "" := rfl

def isAccepted : Finding → Bool
  | accepted _ => true
  | _ => false

/-- What is written, records included. -/
def events (print : Bool) (level : LogLevel) (p : Path) : Finding → List Event
  | accepted d => logged level (parsedRecord p d) ++ [.out ((accepted d).printed print p)]
  | f => [.err (f.reported p)]

end Finding

/-- What `look` finds at a path comes to a finding: nothing is there, it cannot be opened, or what can be
read of it is refused or holds a document. A file that fails while it is read is refused at the place where
it fails, unless it is refused before. -/
inductive Finds (look : Path → Lookup) (p : Path) : Finding → Prop where
  | absent {e : SystemError} : look p = .hidden e → e.meansAbsent = true → Finds look p .absent
  | nulInPath : look p = .nulInPath → Finds look p .absent
  | directory : look p = .directory → Finds look p (.unreadable (.system .isDirectory p))
  | locked {e : SystemError} : look p = .locked e → Finds look p (.unreadable (.system e p))
  | refused {content : Stream} {e : SourceError} : look p = .file content →
      Document.ofStream content (some p.text) = .error (.refused e) → Finds look p (.refused e)
  | accepted {content : Stream} {d : Document} : look p = .file content →
      Document.ofStream content (some p.text) = .ok d → Finds look p (.accepted d)

/-- The error with which looking at a path fails, if it does not say whether something is there. -/
def barrier? (look : Path → Lookup) (p : Path) : Option SystemError :=
  match look p with
  | .hidden e => if e.meansAbsent then none else some e
  | _ => none

/-- A file that `look` finds at a path holds a document or is refused with an error. -/
def Judged (look : Path → Lookup) (p : Path) : Prop :=
  ∀ content, look p = .file content → ∀ f, Document.ofStream content (some p.text) = .error f →
    ∃ e, f = .refused e

/-- Whether the file at a path, if there is one, comes to a verdict. -/
def isJudged (look : Path → Lookup) (p : Path) : Bool :=
  match look p with
  | .file content =>
    match Document.ofStream content (some p.text) with
    | .ok _ | .error (.refused _) => true
    | .error _ => false
  | _ => true

theorem judged_iff {look : Path → Lookup} {p : Path} : Judged look p ↔ isJudged look p = true := by
  unfold Judged isJudged
  cases look p with
  | file content =>
    simp only [Lookup.file.injEq, forall_eq']
    cases Document.ofStream content (some p.text) with
    | ok d => simp
    | error f => cases f <;> simp
  | _ => simp

instance {look : Path → Lookup} {p : Path} : Decidable (Judged look p) :=
  decidable_of_iff _ judged_iff.symm

/-- What a run writes to the standard error, the log left out. -/
def Outcome.reports (o : Outcome) : String :=
  String.join (o.events.map fun
    | .err text => text
    | _ => "")

/-- The run over the one path `p` comes to `o`, which says what there is to say about the path. -/
structure Alone (print : Bool) (level : LogLevel) (look : Path → Lookup) (p : Path) (o : Outcome) :
    Prop where
  run : runCommand level look (.parse [p] print) = .ok o
  finding : ∃ f, Finds look p f ∧ o.events = f.events print level p ∧
    o.stdout = f.printed print p ∧ o.reports = f.reported p ∧ (o.code = 0 ↔ ∃ d, f = .accepted d)

/-- The run `o` writes what the runs `os` write, one behind the other, and succeeds if all of them do. -/
structure Joins (level : LogLevel) (os : List Outcome) (o : Outcome) : Prop where
  events : o.events = os.flatMap Outcome.events
  stdout : o.stdout = String.join (os.map Outcome.stdout)
  reports : o.reports = String.join (os.map Outcome.reports)
  stderr : ∀ time, LogLevel.debug.rank < level.rank → o.stderr time = o.reports
  success : o.code = 0 ↔ ∀ o' ∈ os, o'.code = 0
  code : o.code = 0 ∨ o.code = 1

variable {print : Bool} {level : LogLevel} {look : Path → Lookup} {p : Path} {files : List Path}
  {f : Finding} {o : Outcome} {os : List Outcome}

/-! ## One path -/

theorem exists_finds (h : Judged look p) (hopen : barrier? look p = none) : ∃ f, Finds look p f := by
  cases hl : look p with
  | nulInPath => exact ⟨_, .nulInPath hl⟩
  | hidden e =>
    cases he : e.meansAbsent with
    | true => exact ⟨_, .absent hl he⟩
    | false => simp [barrier?, hl, he] at hopen
  | directory => exact ⟨_, .directory hl⟩
  | locked e => exact ⟨_, .locked hl⟩
  | file content =>
    cases hd : Document.ofStream content (some p.text) with
    | ok d => exact ⟨_, .accepted hl hd⟩
    | error f =>
      obtain ⟨e, rfl⟩ := h content hl f hd
      exact ⟨_, .refused hl hd⟩

theorem reportFile_of_finds (h : Finds look p f) :
    reportFile print level look p = .ok ⟨f.events print level p, f.isAccepted⟩ := by
  cases h with
  | absent hl he =>
    simp only [reportFile, hl, Lookup.isFound, he, if_true]
    rfl
  | nulInPath hl | directory hl | locked hl =>
    rw [reportFile, hl]
    rfl
  | refused hl hd | accepted hl hd =>
    simp only [reportFile, Document.load, hl, Lookup.isFound, Lookup.open?, hd]
    rfl

theorem barrier?_eq_some_iff {e : SystemError} :
    barrier? look p = some e ↔ look p = .hidden e ∧ e.meansAbsent = false := by
  rw [barrier?]
  cases look p with
  | hidden e' =>
    cases he : e'.meansAbsent with
    | true =>
      simp only [he, if_true, reduceCtorEq, Lookup.hidden.injEq, false_iff, not_and]
      rintro rfl
      simp [he]
    | false =>
      simp only [he, Bool.false_eq_true, if_false, Option.some.injEq, Lookup.hidden.injEq, iff_self_and]
      rintro rfl
      exact he
  | _ => simp

theorem reportFile_barred {e : SystemError} (h : barrier? look p = some e) :
    reportFile print level look p = .error (.file (.system e p)) := by
  obtain ⟨hl, he⟩ := barrier?_eq_some_iff.1 h
  simp only [reportFile, hl, Lookup.isFound, he, Bool.false_eq_true, if_false]

theorem runCommand_of_reportFile {r : Report} (h : reportFile print level look p = .ok r) :
    runCommand level look (.parse [p] print) =
      .ok ⟨if r.success then 0 else 1, r.events, level, none, none⟩ := by
  rw [runCommand, reportFiles, h]
  simp only [reportFiles, List.append_nil, Bool.and_true]
  rfl

/-- Only a record of the log may come before the text of a document. -/
theorem logged_cases (level : LogLevel) (r : LogRecord) :
    logged level r = [.log r] ∨ logged level r = [] ∧ r.level.rank < level.rank := by
  unfold logged
  split
  · exact .inl rfl
  · exact .inr ⟨rfl, by omega⟩

/-- What there is to say about a path is what the run over it alone writes. -/
theorem exists_alone (h : Finds look p f) : ∃ o, Alone print level look p o := by
  refine ⟨_, runCommand_of_reportFile (reportFile_of_finds h), f, h, rfl, ?_⟩
  cases f with
  | accepted d =>
    refine ⟨?_, ?_, by simp [Finding.isAccepted]⟩
    · rcases logged_cases level (parsedRecord p d) with hl | ⟨hl, -⟩ <;>
        simp [Outcome.stdout, Finding.events, hl]
    · rw [Finding.reported_accepted]
      rcases logged_cases level (parsedRecord p d) with hl | ⟨hl, -⟩ <;>
        simp [Outcome.reports, Finding.events, hl]
  | _ =>
    refine ⟨?_, ?_, by simp [Finding.isAccepted]⟩
    · simp [Outcome.stdout, Finding.events, Finding.printed]
    · simp [Outcome.reports, Finding.events]

theorem Alone.reportFile (h : Alone print level look p o) :
    reportFile print level look p = .ok ⟨o.events, o.code == 0⟩ := by
  obtain ⟨f, hf, hevents, -, -, hcode⟩ := h.finding
  have hsuccess : f.isAccepted = (o.code == 0) := by
    rw [Bool.eq_iff_iff, beq_iff_eq, hcode]
    cases f <;> simp [Finding.isAccepted]
  rw [reportFile_of_finds hf, hevents, hsuccess]

/-- Above the level of its records the log is empty. -/
theorem Alone.quiet (h : Alone print level look p o) (hlevel : LogLevel.debug.rank < level.rank) :
    ∀ r, .log r ∉ o.events := by
  obtain ⟨f, -, hevents, -⟩ := h.finding
  intro r
  rw [hevents]
  cases f with
  | accepted d =>
    have hnone : logged level (parsedRecord p d) = [] := if_neg (Nat.not_le.2 hlevel)
    simp [Finding.events, hnone]
  | _ => simp [Finding.events]

/-! ## One path after another -/

theorem exists_alone_each (h : ∀ p ∈ files, Judged look p) (hopen : ∀ p ∈ files, barrier? look p = none) :
    ∃ os, List.Forall₂ (Alone print level look) files os := by
  induction files with
  | nil => exact ⟨[], .nil⟩
  | cons p files ih =>
    rw [List.forall_mem_cons] at h hopen
    obtain ⟨f, hf⟩ := exists_finds h.1 hopen.1
    obtain ⟨o, ho⟩ := @exists_alone print level _ _ _ hf
    obtain ⟨os, hos⟩ := ih h.2 hopen.2
    exact ⟨o :: os, .cons ho hos⟩

theorem reportFiles_of_alone (h : List.Forall₂ (Alone print level look) files os) :
    reportFiles print level look files =
      .ok ⟨os.flatMap Outcome.events, os.all (·.code == 0)⟩ := by
  induction h with
  | nil => rfl
  | cons ho _ ih => simp only [reportFiles, ho.reportFile, ih, List.flatMap_cons, List.all_cons]

theorem reportFiles_stops {front back : List Path} {e : SystemError}
    (h : List.Forall₂ (Alone print level look) front os) (hp : barrier? look p = some e) :
    reportFiles print level look (front ++ p :: back) =
      .error (os.flatMap Outcome.events, .file (.system e p)) := by
  induction h with
  | nil =>
    rw [List.nil_append, reportFiles, reportFile_barred hp]
    rfl
  | cons ho _ ih => rw [List.cons_append, reportFiles, ho.reportFile, ih, List.flatMap_cons]

/-- The texts of events that come in several lists. -/
theorem join_flatMap {α : Type} (text : Event → String) (events : α → List Event) (as : List α) :
    String.join ((as.flatMap events).map text) =
      String.join (as.map fun a => String.join ((events a).map text)) := by
  induction as with
  | nil => rfl
  | cons a as ih =>
    rw [List.flatMap_cons, List.map_append, String.join_append, ih, List.map_cons, String.join_cons]

/-- Without records in it the standard error holds the reports. -/
theorem stderr_eq_reports (h : ∀ r, .log r ∉ o.events) (time : String) : o.stderr time = o.reports := by
  unfold Outcome.stderr Outcome.reports
  congr 1
  refine List.map_congr_left fun e he => ?_
  cases e with
  | log r => exact absurd he (h r)
  | _ => rfl

theorem joins_of_alone (h : List.Forall₂ (Alone print level look) files os) :
    Joins level os ⟨if os.all (·.code == 0) then 0 else 1, os.flatMap Outcome.events, level, none,
      none⟩ := by
  refine ⟨rfl, join_flatMap .., join_flatMap .., fun time hlevel => ?_, ?_, ?_⟩
  · refine stderr_eq_reports (fun r hr => ?_) time
    obtain ⟨o, ho, hmem⟩ := List.mem_flatMap.1 hr
    obtain ⟨i, hi, rfl⟩ := List.mem_iff_getElem.1 ho
    exact (h.get (h.length_eq ▸ hi) hi).quiet hlevel r hmem
  · simp
  · cases os.all (·.code == 0)
    · exact .inr rfl
    · exact .inl rfl

/-- The run of `parse` over any paths whose files all have verdicts. If it can be told of every path whether
something is there, each of them is handled once and in order, in the way of a run over it alone, whatever
comes before or behind it, and the run succeeds if and only if all files hold documents. The first path of
which it cannot be told stops the run with the error of the system: what is written is what the runs over
the paths before it write, and nothing about it or the paths behind it. -/
theorem runCommand_parse (print : Bool) (level : LogLevel) (h : ∀ p ∈ files, Judged look p) :
    ((∀ p ∈ files, barrier? look p = none) →
      ∃ os o, runCommand level look (.parse files print) = .ok o ∧
        List.Forall₂ (Alone print level look) files os ∧ Joins level os o) ∧
    ∀ front p back e, files = front ++ p :: back → (∀ q ∈ front, barrier? look q = none) →
      barrier? look p = some e →
      ∃ os, List.Forall₂ (Alone print level look) front os ∧
        runCommand level look (.parse files print) =
          .error (.loading (os.flatMap Outcome.events) (.file (.system e p))) := by
  constructor
  · intro hopen
    obtain ⟨os, hos⟩ := @exists_alone_each print level _ _ h hopen
    refine ⟨os, _, ?_, hos, joins_of_alone hos⟩
    rw [runCommand, reportFiles_of_alone hos]
    rfl
  · rintro front p back e rfl hfront hp
    obtain ⟨os, hos⟩ := @exists_alone_each print level look front
      (fun q hq => h q (List.mem_append_left _ hq)) hfront
    exact ⟨os, hos, by rw [runCommand, reportFiles_stops hos hp]⟩

/-- A file with a document, which comes in two pieces, one that is refused at its end, a locked one, one that
fails behind its first statement, a directory, and a directory that may not be searched. -/
def shelf : FileTree where
  entries := [
    (["a.proto"], .file (.ofChunks [Utf8.encode "syntax = 'pro".toList, Utf8.encode "to3';".toList] .exhausted)),
    (["b.proto"], .file (.ofList [])),
    (["c.proto"], .lockedFile),
    (["d.proto"], .file (.ofChunks [Utf8.encode "syntax = 'proto3';".toList]
      (.failing "[Errno 5] Input/output error"))),
    (["lib"], .directory),
    (["vault"], .sealedDirectory)]

/-- The path of one part. -/
def pathTo (name : String) : Path := ⟨0, [name]⟩

/-- Files of all kinds, one of them twice, and then one behind a directory that may not be searched. -/
theorem runCommand_parse_shelf :
    let files := ["a.proto", "x", "b.proto", "c.proto", "d.proto", "lib", "a.proto"].map pathTo
    let barred : Path := ⟨0, ["vault", "a.proto"]⟩
    (∀ p ∈ files, Judged shelf.look p) ∧ (∀ p ∈ files, barrier? shelf.look p = none) ∧
      barrier? shelf.look barred = some .denied ∧
      (∃ os o, runCommand .warning shelf.look (.parse files true) = .ok o ∧
        List.Forall₂ (Alone true .warning shelf.look) files os ∧ Joins .warning os o) ∧
      ∃ os, List.Forall₂ (Alone true .warning shelf.look) files os ∧
        runCommand .warning shelf.look (.parse (files ++ [barred, pathTo "b.proto"]) true) =
          .error (.loading (os.flatMap Outcome.events) (.file (.system .denied barred))) := by
  intro files barred
  have hjudged : ∀ p ∈ files ++ [barred, pathTo "b.proto"], Judged shelf.look p := by decide +kernel
  have hfiles : ∀ p ∈ files, Judged shelf.look p := fun p hp => hjudged p (List.mem_append_left _ hp)
  have hopen : ∀ p ∈ files, barrier? shelf.look p = none := by decide +kernel
  have hbarred : barrier? shelf.look barred = some .denied := by decide +kernel
  exact ⟨hfiles, hopen, hbarred, (runCommand_parse true .warning hfiles).1 hopen,
    (runCommand_parse true .warning hjudged).2 files barred _ _ rfl hopen hbarred⟩

/-- A name that is too long for a part of a path is too long wherever it is looked up. -/
theorem look_tooLong (t : FileTree) {name : String} (hsize : Path.maxPartSize < name.utf8ByteSize)
    (hnul : '\x00' ∉ name.toList) (hsealed : t.isSealed [] = false) :
    t.look (pathTo name) = .hidden .tooLong := by
  have hup : name ≠ ".." := by
    rintro rfl
    exact absurd hsize (by decide)
  have hclean : (pathTo name).hasNul = false := by simpa [pathTo, Path.hasNul] using hnul
  simp only [FileTree.look, hclean, Bool.false_eq_true, if_false]
  split
  · rfl
  · simp [pathTo, FileTree.walk, hup, hsize, hsealed]

/-- A name of one byte more than a part of a path may have. -/
def longName : String := String.ofList (List.replicate (Path.maxPartSize + 1) 'a')

theorem utf8ByteSize_longName : longName.utf8ByteSize = Path.maxPartSize + 1 := by
  unfold longName
  generalize Path.maxPartSize + 1 = n
  induction n with
  | zero => rfl
  | succ n ih =>
    have ha : 'a'.utf8Size = 1 := rfl
    rw [List.replicate_succ, String.ofList_cons, String.utf8ByteSize_append, ih,
      String.utf8ByteSize_singleton, ha, Nat.add_comm]

/-- Behind such a name a file that holds a document is not reported. -/
theorem no_report_behind_longName :
    ¬ ∀ files : List Path, files ≠ [] → (∀ p ∈ files, Judged shelf.look p) →
      ∃ o, runCommand .warning shelf.look (.parse files false) = .ok o := by
  intro h
  have hlook : shelf.look (pathTo longName) = .hidden .tooLong :=
    look_tooLong shelf (by rw [utf8ByteSize_longName]; exact Nat.lt_succ_self _)
      (by simp [longName]) (by decide)
  have hjudged : ∀ p ∈ [pathTo longName, pathTo "a.proto"], Judged shelf.look p := by
    refine List.forall_mem_cons.2 ⟨fun content hcontent => ?_, by decide +kernel⟩
    cases hlook.symm.trans hcontent
  obtain ⟨o, ho⟩ := h [pathTo longName, pathTo "a.proto"] nofun hjudged
  have hbarrier := barrier?_eq_some_iff.2 ⟨hlook, rfl⟩
  rw [runCommand, reportFiles, reportFile_barred hbarrier] at ho
  cases ho

end CommandLine
end ProtoSchema
