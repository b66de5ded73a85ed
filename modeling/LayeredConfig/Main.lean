import LayeredConfig.Command
import LayeredConfig.FileTree.Archive
/-!
# The program

Runs the command of a command line on the file tree that standard input describes, as a YAML
document of paths and texts. What the command prints goes to standard output, and after a transfer
the file tree that it leaves, as one more document. Failures go to standard error.
-/

namespace LayeredConfig

/-- Reads a stream to its end. -/
partial def readAll (input : IO.FS.Stream) (before : String) : IO String := do
  let line ← input.getLine
  if line.isEmpty then return before else readAll input (before ++ line)

/-- The text that follows what a command prints. -/
def Invocation.epilogue (i : Invocation) (w : World) : String :=
  match i.command with
  | .list .. | .read .. => ""
  | _ =>
    match w.files.toDocument.encode with
    | .ok text => "---\n" ++ text
    | .error _ => ""

/-- Reports a failure, and gives its exit code. -/
def report (cause : Failure) : IO UInt32 := do
  (← IO.getStderr).putStr ("Error: " ++ cause.message ++ "\n")
  return UInt32.ofNat cause.exitCode

/-- Runs a command on a file tree. -/
def runOn (i : Invocation) (files : FileTree) : IO UInt32 := do
  let out ← IO.getStdout
  match i.run { World.empty with files := files } with
  | .ok r w =>
    out.putStr (r.printed ++ i.epilogue w)
    match r.failure with
    | none => return 0
    | some cause => report cause
  | .error (.failure cause) _ => report cause
  | .error .crash _ => return 101

/-- Runs the command of a command line. -/
def runWords (words : List String) : IO UInt32 := do
  match Invocation.ofWords? words with
  | .error (.version command) =>
    (← IO.getStdout).putStr (Usage.versionText command)
    return 0
  | .error usage =>
    (← IO.getStderr).putStr (Usage.summary ++ "\n")
    return if usage.isFailure then 2 else 0
  | .ok i =>
    match Document.decode (← readAll (← IO.getStdin) "") with
    | .error cause => report cause
    | .ok d => runOn i (.ofDocument d)

end LayeredConfig

/-- The entry point. -/
def main (words : List String) : IO UInt32 := LayeredConfig.runWords words
