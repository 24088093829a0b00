import ProtoSchema.Text.Digit
import ProtoSchema.Text.Quoted

/-!
# ProtoSchema.CommandLine.Words

The words of a command line. A word that begins with a dash and names an option is an option; after
two dashes alone every word is an operand. An option may be shortened to any beginning that no
other option has, may carry its value after an equals sign, and one-letter options, which take no
value, may share a dash. A number below zero, a word with a space in it and a lone dash are operands.
Two dashes alone are never a value: an option to which they are attached is set to nothing.

The rules are those of release 3.11.7 of the library that reads the words. Later releases differ where
two dashes or further letters are attached to an option, as in `--log-level=--` and `-hx`.

`steps` reads words from left to right into what they ask for. An error in a word stands in its
place among the steps, so that what comes before it is done first; only an ambiguous option is an
error of the whole line.
-/

namespace ProtoSchema
namespace CommandLine

inductive UsageError where
  | ambiguous (word : String) (candidates : List String)
  | ignoredValue (option value : String)
  | missingValue (option : String)
  | invalidChoice (argument value : String) (choices : List String)
  | missingOperands (names : List String)
  | unrecognized (words : List String)
deriving DecidableEq, Repr

def UsageError.message : UsageError → String
  | ambiguous word candidates =>
    "ambiguous option: " ++ word ++ " could match " ++ ", ".intercalate candidates
  | ignoredValue option value =>
    "argument " ++ option ++ ": ignored explicit argument " ++ Text.quoted value
  | missingValue option => "argument " ++ option ++ ": expected one argument"
  | invalidChoice argument value choices =>
    "argument " ++ argument ++ ": invalid choice: " ++ Text.quoted value ++ " (choose from " ++
      ", ".intercalate (choices.map Text.quoted) ++ ")"
  | missingOperands names =>
    "the following arguments are required: " ++ ", ".intercalate names
  | unrecognized words => "unrecognized arguments: " ++ " ".intercalate words

/-- The options of a command: their spellings, which of them take a value, and what messages call
them. -/
structure Options (ω : Type) where
  spellings : List (String × ω)
  takesValue : ω → Bool
  label : ω → String

/-- What a word is; an option may carry a text itself. -/
inductive WordClass (ω : Type) where
  | operand
  | dashes
  | option (o : ω) (long : Bool) (attached : Option (List Char))
  | unknown

/-- The text before and the text after the first equals sign, if there is one. -/
def splitEquals : List Char → List Char × Option (List Char)
  | [] => ([], none)
  | c :: cs =>
    if c = '=' then ([], some cs)
    else
      let (before, after) := splitEquals cs
      (c :: before, after)

/-- Whether a text is a dash and a decimal number. -/
def isDashNumber : List Char → Bool
  | '-' :: cs =>
    let whole := cs.takeWhile Text.isDecimal
    match cs.dropWhile Text.isDecimal with
    | [] => !whole.isEmpty
    | '.' :: ds => !ds.isEmpty && ds.all Text.isDecimal
    | _ => false
  | _ => false

/-- Whether a word is a number below zero; a line feed may end it. -/
def isNegativeNumber (cs : List Char) : Bool :=
  isDashNumber cs || (cs.getLast? == some '\n' && isDashNumber cs.dropLast)

namespace Options

variable {ω : Type} (opts : Options ω)

def find? (cs : List Char) : Option ω := opts.spellings.lookup (String.ofList cs)

/-- The options that a word may stand for, with their spellings and the texts attached. -/
def candidates (cs : List Char) : List (String × ω × Bool × Option (List Char)) :=
  match cs with
  | '-' :: '-' :: _ =>
    let (start, value) := splitEquals cs
    opts.spellings.filterMap fun (s, o) =>
      if start.isPrefixOf s.toList then some (s, o, true, value) else none
  | a :: b :: rest =>
    opts.spellings.filterMap fun (s, o) =>
      if s.toList == [a, b] then some (s, o, false, some rest) else none
  | _ => []

/-- The class of a word that comes before any two dashes alone. -/
def classify (word : String) : Except UsageError (WordClass ω) :=
  let cs := word.toList
  if cs.head? ≠ some '-' then .ok .operand
  else
    let long := cs.tail.head? = some '-'
    match opts.find? cs with
    | some o => .ok (.option o long none)
    | none =>
      if cs.length = 1 then .ok .operand
      else
        match splitEquals cs with
        | (start, some value) =>
          match opts.find? start with
          | some o => .ok (.option o long (some value))
          | none => fromCandidates cs
        | (_, none) => fromCandidates cs
where
  /-- The class of a word that spells no option in full. -/
  fromCandidates (cs : List Char) : Except UsageError (WordClass ω) :=
    match opts.candidates cs with
    | [(_, o, long, attached)] => .ok (.option o long attached)
    | [] => .ok (if isNegativeNumber cs || cs.contains ' ' then .operand else .unknown)
    | found => .error (.ambiguous (String.ofList cs) (found.map (·.1)))

def classifyAll : List String → Except UsageError (List (String × WordClass ω))
  | [] => .ok []
  | w :: ws =>
    if w == "--" then .ok ((w, .dashes) :: ws.map fun v => (v, .operand))
    else
      match opts.classify w with
      | .error e => .error e
      | .ok c =>
        match classifyAll ws with
        | .error e => .error e
        | .ok cs => .ok ((w, c) :: cs)

end Options

/-- What the words of a command line ask for: an option without a value, one with its value or with
nothing in its place, an operand or two dashes, each with the words behind it, a word that names no
option, or an error. -/
inductive Step (ω : Type) where
  | flag (o : ω)
  | value (o : ω) (v : Option String)
  | operand (word : String) (behind : List String)
  | dashes (behind : List String)
  | stray (word : String)
  | wrong (e : UsageError)

namespace Options

variable {ω : Type} (opts : Options ω)

/-- The value that is attached to an option; two dashes alone are none. -/
def attachedValue (text : List Char) : Option String :=
  if text = ['-', '-'] then none else some (String.ofList text)

/-- The options that share a dash with the option `o`, which takes no value, up to the end of the
word. -/
def cluster (o : ω) : List Char → Except UsageError (List ω)
  | [] => .error (.ignoredValue (opts.label o) "")
  | c :: cs =>
    match opts.find? ['-', c], cs with
    | none, _ => .error (.ignoredValue (opts.label o) (String.ofList (c :: cs)))
    | some o', [] => .ok [o, o']
    | some o', d :: ds => (cluster o' (d :: ds)).map (o :: ·)

/-- What classified words ask for. -/
def steps : List (String × WordClass ω) → List (Step ω)
  | [] => []
  | (w, .operand) :: ws => .operand w (ws.map (·.1)) :: steps ws
  | (_, .dashes) :: ws => .dashes (ws.map (·.1)) :: steps ws
  | (w, .unknown) :: ws => .stray w :: steps ws
  | (_, .option o long attached) :: ws =>
    if opts.takesValue o then
      match attached with
      | some text => .value o (attachedValue text) :: steps ws
      | none =>
        match ws with
        | (v, .operand) :: ws => .value o (some v) :: steps ws
        | _ => [.wrong (.missingValue (opts.label o))]
    else
      match attached with
      | none => .flag o :: steps ws
      | some text =>
        if long then [.wrong (.ignoredValue (opts.label o) (String.ofList text))]
        else
          match opts.cluster o text with
          | .error e => [.wrong e]
          | .ok os => os.map .flag ++ steps ws

/-- What the words of a command line ask for. -/
def read (words : List String) : Except UsageError (List (Step ω)) :=
  (opts.classifyAll words).map opts.steps

end Options
end CommandLine
end ProtoSchema
