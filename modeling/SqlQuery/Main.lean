import SqlQuery.CommandLine.Run

/-!
The program: reads what the arguments name, and prints what comes of it.
-/

namespace SqlQuery

open CommandLine

/-- The number that the system gives to an error, if it gives one. -/
def systemCode? : IO.Error → Option UInt32
  | .noFileOrDirectory _ code _ | .permissionDenied _ code _ | .inappropriateType _ code _
  | .invalidArgument _ code _ | .resourceExhausted _ code _ | .noSuchThing _ code _
  | .otherError code _ | .illegalOperation code _ => some code
  | _ => none

/-- Opening a file gives the number with its sign turned, reading from it does not. -/
def positiveCode (code : UInt32) : UInt32 := if code ≥ 0x80000000 then 0 - code else code

def codedErrors : List (UInt32 × ReadError) :=
  [(2, .missing), (13, .denied), (20, .insideFile), (21, .directory), (36, .longName)]

def readError (e : IO.Error) : ReadError :=
  ((systemCode? e).bind fun code => codedErrors.lookup (positiveCode code)).getD
    (.other (toString e))

def decodeText (bytes : ByteArray) : Except ReadError String :=
  match String.fromUTF8? bytes with
  | some text => .ok text
  | none => .error .notText

def readText (read : IO ByteArray) : IO (Except ReadError String) := do
  try return decodeText (← read) catch e => return .error (readError e)

/-- Reads a stream to its end. -/
partial def readAll (stream : IO.FS.Stream) (read : ByteArray) : IO ByteArray := do
  let bytes ← stream.read 65536
  if bytes.isEmpty then return read else readAll stream (read ++ bytes)

/-- Reads the named files, and the standard input if it is needed. -/
def readInputs (files : List String) (needsStdin : Bool) : IO Inputs := do
  let texts ← files.mapM fun (path : String) => do
    let text ← readText (IO.FS.readBinFile path)
    return (path, text)
  let stdin ←
    if needsStdin then readText (do readAll (← IO.getStdin) ByteArray.empty) else pure (.ok "")
  return ⟨stdin, fun path => (texts.lookup path).getD (.error .missing)⟩

end SqlQuery

open SqlQuery SqlQuery.CommandLine in
def main (arguments : List String) : IO UInt32 := do
  let inherited ← IO.getEnv "SQL_DIALECT"
  let inputs ← readInputs (filesNamed inherited arguments) (readsStdin inherited arguments)
  let outcome := run inherited arguments inputs
  (← IO.getStdout).putStr outcome.stdout
  (← IO.getStderr).putStr outcome.stderr
  return outcome.exit.toUInt32
