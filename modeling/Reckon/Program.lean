import Reckon.CommandLine
import Reckon.Session

/-!
  The program as a function: from the arguments, the files and the standard input to the exit
  status and the two outputs. A run that succeeds writes to the standard output only and has
  status 0; one that cannot read or process its statement writes one line to the standard error
  and has status 1; wrong arguments have status 2.
-/

namespace Reckon

/-- What a run leaves behind. -/
structure Response where
  status : Nat
  output : String
  errors : String
  deriving DecidableEq, Repr

/-- What a run can read: files by their path, or why one cannot be read, and standard input. -/
structure Surroundings where
  file : String → Except String ByteArray
  input : ByteArray

namespace Program

/-- The name and version of the program. -/
def versionText : String := "assignment_interpreter 0.1.0\n"

/-- The summary of the arguments. -/
def helpText : String :=
  "Evaluates a single assignment statement such as `x = 2 + 3 * (4 - 1);`\n" ++
  "\n" ++
  "Usage: assignment_interpreter [OPTIONS] [STATEMENT]\n" ++
  "\n" ++
  "Arguments:\n" ++
  "  [STATEMENT]  \n" ++
  "\n" ++
  "Options:\n" ++
  "  -f, --file <FILE>  Read the statement from this file\n" ++
  "      --tokens       Print the token stream instead of evaluating\n" ++
  "      --ast          Print the parsed tree instead of evaluating\n" ++
  "  -h, --help         Print help\n" ++
  "  -V, --version      Print version\n"

/-- What a terminal shows before the statement is typed. -/
def prompt : String := "Enter a statement (e.g., x = 2 + 3 * (4 - 1);):\n> "

/-! ## The statement -/

/-- The bytes up to the first line feed, that one included. -/
def firstLine : List UInt8 → List UInt8
  | [] => []
  | b :: rest => if b = 10 then [b] else b :: firstLine rest

/-- The text that bytes encode. -/
def decode (bytes : ByteArray) : Except String String :=
  match String.fromUTF8? bytes with
  | some text => .ok text
  | none => .error "stream did not contain valid UTF-8"

/-- The text of the statement, or why it cannot be read. Of standard input only the first line
counts, so that what follows it need not be text. -/
def statement (around : Surroundings) : Source → Except String String
  | .argument text => .ok text
  | .file path =>
    match around.file path with
    | .ok bytes => decode bytes
    | .error reason => .error reason
  | .input => decode ⟨(firstLine around.input.data.toList).toArray⟩

/-! ## The answer -/

/-- One line of a token listing. -/
def tokenLine (t : Token) : String := t.kind.label ++ " " ++ t.describe ++ "\n"

/-- What a statement is answered with in each mode. -/
def render (mode : Mode) (text : String) : Except Fault String :=
  match mode with
  | .value => (execute text).map Outcome.report
  | .tokens =>
    match tokenize text with
    | .ok tokens => .ok (String.join (tokens.map tokenLine))
    | .error f => .error (.lexical f)
  | .tree => (parse text).map fun tree => tree.text ++ "\n"

/-- A run that succeeds. -/
def success (output : String) : Response := ⟨0, output, ""⟩

/-- A run that fails, and says why. -/
def failure (status : Nat) (reason : String) : Response := ⟨status, "", "error: " ++ reason ++ "\n"⟩

/-- Processes the text of a statement. -/
def respond (mode : Mode) (text : String) : Response :=
  match render mode text with
  | .ok output => success output
  | .error f => failure 1 f.message

/-- Fulfils a request. -/
def fulfil (around : Surroundings) : Request → Response
  | .help => success helpText
  | .version => success versionText
  | .process mode source =>
    match statement around source with
    | .ok text => respond mode text
    | .error reason => failure 1 ("failed to read statement: " ++ reason)

/-- The source that a run reads its statement from, if the arguments ask for one. -/
def source? (arguments : List String) : Option Source :=
  match CommandLine.read arguments with
  | .ok (.process _ source) => some source
  | _ => none

/-- A whole run. -/
def run (around : Surroundings) (arguments : List String) : Response :=
  match CommandLine.read arguments with
  | .ok request => fulfil around request
  | .error f => failure 2 f.message

end Program

end Reckon
