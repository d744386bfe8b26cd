import ScriptFront.Report.Command
/-! The command line. -/
open ScriptFront.Report

namespace ScriptFront.Main

def usage : String :=
  "usage: scriptfront [--dump-tokens] [--dump-ast] [--dump-objects] [--fancy] SCRIPT"

def contentOf (path : String) : IO Content :=
  try return .bytes (← IO.FS.readBinFile path)
  catch
    | .noFileOrDirectory _ _ _ => return .missing
    | e => throw e

end ScriptFront.Main

open ScriptFront.Main in
def main (args : List String) : IO UInt32 := do
  match Command.ofArguments? args with
  | none =>
    IO.eprintln usage
    return 2
  | some command =>
    let outcome := command.run (← contentOf command.script)
    IO.print outcome.out
    IO.eprint outcome.err
    return outcome.code.toUInt32
