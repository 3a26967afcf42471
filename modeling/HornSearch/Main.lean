import HornSearch.CommandLine

/-!
# The program

The command line in the world: files, streams and the exit code. The lines are those
of `CommandLine.run`, printed as they are found.
-/

namespace HornSearch.CommandLine

def readFile (path : String) : IO (Except ReadError String) := do
  try
    let bytes ← IO.FS.readBinFile path
    match String.fromUTF8? bytes with
    | some text => return .ok text
    | none => return .error .notText
  catch
    | .noFileOrDirectory .. => return .error .notFound
    | .inappropriateType .. => return .error .isDirectory
    | e => return .error (.other (toString e))

/-- The bound on the steps of a search between two answers. -/
def stepBound : Nat := 1 <<< 60

/-- Prints the lines, each as soon as it is there. -/
def printLines : Nat → Printing → IO Unit
  | 0, _ => return
  | n + 1, p => do
    match p.next (n + 1) with
    | none => return
    | some (.finished message) => message.forM IO.println
    | some (.answer line behind) =>
      IO.println line
      printLines n behind

def runProgram (args : List String) : ExceptT Failure IO Unit := do
  let options ← Options.ofArguments args
  let (db, cursor) ← options.load (← readFile options.program)
  printLines stepBound (.start options db cursor)

end HornSearch.CommandLine

def main (args : List String) : IO UInt32 := do
  match ← HornSearch.CommandLine.runProgram args with
  | .ok () => return 0
  | .error f =>
    IO.eprint f.message
    return f.code.toUInt32
