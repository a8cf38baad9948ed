import GrammarLens.CommandLine

/-!
Contract: the program. Reads the command line, prints what it asks for, and ends with the
exit code that goes with it.

Does not own: the transport of the server.
-/

def main (arguments : List String) : IO UInt32 := do
  match GrammarLens.CommandLine.parse (arguments.map String.toList) with
  | .error error =>
    IO.eprint (String.ofList error.render)
    return 2
  | .ok .showHelp =>
    IO.print (String.ofList GrammarLens.CommandLine.helpText)
    return 0
  | .ok (.start options) =>
    match options.threshold with
    | .error fault =>
      IO.eprintln (String.ofList fault.message)
      return 1
    | .ok threshold =>
      for notice in GrammarLens.Notice.atLeast threshold [options.startNotice] do
        IO.eprintln (String.ofList notice.render)
      return 0
