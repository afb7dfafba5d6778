import Reckon.Program

/-!
  The executable: it fetches what `Program.run` needs, and nothing more, and writes what that
  answers.
-/

namespace Reckon

/-- The system's words for an error, with its number. -/
def systemReason : IO.Error → String
  | .alreadyExists _ code text | .otherError code text | .resourceBusy code text
  | .resourceVanished code text | .unsupportedOperation code text | .hardwareFault code text
  | .unsatisfiedConstraints code text | .illegalOperation code text | .protocolError code text
  | .timeExpired code text | .interrupted _ code text | .noFileOrDirectory _ code text
  | .invalidArgument _ code text | .permissionDenied _ code text
  | .resourceExhausted _ code text | .inappropriateType _ code text | .noSuchThing _ code text =>
    text ++ " (os error " ++ toString code ++ ")"
  | .unexpectedEof => "unexpected end of file"
  | .userError text => text

/-- The bytes of a file, or why it cannot be read. -/
def readFile (path : String) : IO (Except String ByteArray) := do
  try
    return .ok (← IO.FS.withFile path .read fun handle => handle.readBinToEnd)
  catch e =>
    return .error (systemReason e)

/-- The bytes of a stream, at least to the end of its first line. -/
partial def readLine (stream : IO.FS.Stream) (soFar : ByteArray) : IO ByteArray := do
  let chunk ← stream.read 4096
  if chunk.isEmpty then return soFar
  else if chunk.data.contains 10 then return soFar ++ chunk
  else readLine stream (soFar ++ chunk)

/-- The bytes of the statement that is typed or piped in. -/
def readInput : IO ByteArray := do
  let stdin ← IO.getStdin
  if ← stdin.isTty then
    let stdout ← IO.getStdout
    stdout.putStr Program.prompt
    stdout.flush
  readLine stdin .empty

/-- Fetches the bytes that a source names. -/
def fetch : Option Source → IO Surroundings
  | some (.file path) => do
    let content ← readFile path
    return { file := fun _ => content, input := .empty }
  | some .input => do
    return { file := fun _ => .ok .empty, input := ← readInput }
  | _ => return { file := fun _ => .ok .empty, input := .empty }

end Reckon

def main (arguments : List String) : IO UInt32 := do
  let around ← Reckon.fetch (Reckon.Program.source? arguments)
  let response := Reckon.Program.run around arguments
  (← IO.getStdout).putStr response.output
  (← IO.getStderr).putStr response.errors
  return response.status.toUInt32
