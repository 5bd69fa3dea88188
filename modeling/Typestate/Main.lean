import Typestate.Command.Run

/-!
The program: it reads arguments and input, runs the request, and writes what that answers. No drawing
program is ever run, so none is found.
-/

namespace Typestate.Command

/-- Everything that is left on a stream. -/
partial def readAll (stream : IO.FS.Stream) (text : String) : IO String := do
  let line ← stream.getLine
  if line.isEmpty then return text
  readAll stream (text ++ line)

/-- The input of a request, if there is such a file. -/
def readInput : Option String → IO (Option String)
  | none => return some (← readAll (← IO.getStdin) "")
  | some file => do
    try return some (← IO.FS.readFile file)
    catch _ => return none

/-- Write what a request answers, and give its exit code. -/
def Response.write (r : Response) : IO UInt32 := do
  if let some (path, text) := r.file then
    if let some directory := path.directory? then IO.FS.createDirAll directory
    IO.FS.writeFile path.text text
  IO.print r.output
  IO.eprint r.complaints
  return r.exitCode.toUInt32

end Typestate.Command

open Typestate.Command in
def main (args : List String) : IO UInt32 := do
  match Invocation.ofArguments false args with
  | .error e => e.response.write
  | .ok inv =>
    let input ← readInput inv.file
    let stamp := toString (← IO.monoMsNow)
    (inv.run { input, logLevel := ← IO.getEnv "LOG_LEVEL", stamp }).write
