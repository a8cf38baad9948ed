import GrammarLens.Notice
import GrammarLens.Number.Literal

/-!
Contract: the command line.

Owns:
- the options, and what a run is asked to do;
- reading arguments. Every argument is sorted before any is acted on, long options may be
  cut short where that is unambiguous, and a value may be attached by an equals sign.
  The separator is no value: an option that is given it is left without one;
- the usage and help texts, and the wording of errors.
-/

namespace GrammarLens.CommandLine

/-- The options that can be given. -/
inductive Flag where
  | help
  | tcp
  | host
  | port
  | logLevel
deriving DecidableEq, Repr

namespace Flag

/-- The spellings of an option. -/
def spellings : Flag → List Text
  | help => ["-h".toList, "--help".toList]
  | tcp => ["--tcp".toList]
  | host => ["--host".toList]
  | port => ["--port".toList]
  | logLevel => ["--log-level".toList]

/-- The spellings of an option as errors name it. -/
def label (flag : Flag) : Text := Text.joinWith ['/'] flag.spellings

/-- Whether an option takes a value. -/
def takesValue : Flag → Bool
  | help | tcp => false
  | host | port | logLevel => true

/-- Every option. -/
def all : List Flag := [help, tcp, host, port, logLevel]

/-- Every spelling with its option, in order. -/
def table : List (Text × Flag) :=
  all.flatMap fun flag => flag.spellings.map fun spelling => (spelling, flag)

/-- The option with exactly the given spelling. -/
def ofSpelling? (spelling : Text) : Option Flag :=
  (table.find? fun entry => entry.1 = spelling).map Prod.snd

end Flag

/-- Why arguments are refused. -/
inductive UsageError where
  | expectedValue (flag : Flag)
  | ignoredValue (flag : Flag) (value : Text)
  | invalidInteger (flag : Flag) (value : Text)
  | invalidChoice (flag : Flag) (value : Text) (choices : List Text)
  | ambiguous (argument : Text) (candidates : List Text)
  | unrecognized (arguments : List Text)
deriving DecidableEq, Repr

namespace UsageError

/-- A message about one option. -/
def about (flag : Flag) (message : Text) : Text :=
  "argument ".toList ++ flag.label ++ ": ".toList ++ message

def message : UsageError → Text
  | expectedValue flag => about flag "expected one argument".toList
  | ignoredValue flag value =>
    about flag ("ignored explicit argument ".toList ++ Text.quoted value)
  | invalidInteger flag value => about flag ("invalid int value: ".toList ++ Text.quoted value)
  | invalidChoice flag value choices =>
    about flag ("invalid choice: ".toList ++ Text.quoted value ++ " (choose from ".toList ++
      Text.joinWith ", ".toList (choices.map Text.quoted) ++ ")".toList)
  | ambiguous argument candidates =>
    "ambiguous option: ".toList ++ argument ++ " could match ".toList ++
      Text.joinWith ", ".toList candidates
  | unrecognized arguments =>
    "unrecognized arguments: ".toList ++ Text.joinWith [' '] arguments

end UsageError

/-- What an argument is taken for. -/
inductive Argument where
  /-- A value, or something that no option takes. -/
  | plain (text : Text)
  /-- The separator itself. -/
  | separator
  /-- An option, its spelling, and a value attached to it. -/
  | option (flag : Flag) (spelling : Text) (attached : Option Text)
  /-- Something that looks like an option and is none. -/
  | unknown (text : Text)
deriving DecidableEq, Repr

/-- The mark after which no argument is an option. -/
def separator : Text := ['-', '-']

/-- Whether a text is all decimal digits, and has some. -/
def isDigits (text : Text) : Bool := !text.isEmpty && text.all fun c => (Text.digitValue? c).isSome

/-- Whether an argument is a negative number: a minus sign and digits, with a point before the
last of them or none. -/
def isNegativeNumber (argument : Text) : Bool :=
  match Text.dropFinalNewline argument with
  | '-' :: rest =>
    isDigits rest ||
      match rest.dropWhile fun c => (Text.digitValue? c).isSome with
      | '.' :: fraction => isDigits fraction
      | _ => false
  | _ => false

/-- The options an argument may be short for: with two dashes those whose spelling continues
the part before an equals sign, with one dash the option of its first letter with the rest as
its value. -/
def candidates (argument : Text) : List (Text × Argument) :=
  let start := argument.takeWhile (· != '=')
  let attached := (argument.dropWhile (· != '=')).drop 1
  if ['-', '-'].isPrefixOf argument then
    (Flag.table.filter fun entry => start.isPrefixOf entry.1).map fun (spelling, flag) =>
      (spelling, .option flag spelling
        (if argument.contains '=' then some attached else none))
  else
    (Flag.table.filter fun entry => entry.1 = argument.take 2).map fun (spelling, flag) =>
      (spelling, .option flag spelling (some (argument.drop 2)))

/-- Sorts an argument that starts with a dash, is no exact spelling and has more characters. -/
def classifyDashed (argument : Text) : Except UsageError Argument :=
  let start := argument.takeWhile (· != '=')
  match argument.contains '=', Flag.ofSpelling? start with
  | true, some flag =>
    .ok (.option flag start (some ((argument.dropWhile (· != '=')).drop 1)))
  | _, _ =>
    match candidates argument with
    | [(_, only)] => .ok only
    | [] =>
      if isNegativeNumber argument || argument.contains ' ' then .ok (.plain argument)
      else .ok (.unknown argument)
    | several => .error (.ambiguous argument (several.map Prod.fst))

/-- Sorts an argument before the separator. -/
def classify (argument : Text) : Except UsageError Argument :=
  match argument with
  | '-' :: _ :: _ =>
    match Flag.ofSpelling? argument with
    | some flag => .ok (.option flag argument none)
    | none => classifyDashed argument
  | _ => .ok (.plain argument)

/-- Sorts arguments in order. After the separator all are plain. -/
def classifyAll : List Text → Except UsageError (List Argument)
  | [] => .ok []
  | argument :: rest =>
    if argument = separator then .ok (.separator :: rest.map .plain)
    else do
      let first ← classify argument
      let others ← classifyAll rest
      return first :: others

/-- What the options ask for. Options that take a value can be left without one. -/
structure Options where
  tcp : Bool
  host : Option Text
  port : Option Int
  logLevel : Option Level
deriving DecidableEq, Repr

namespace Options

/-- The options when none are given. -/
def standard : Options := ⟨false, some "127.0.0.1".toList, some 2087, some .info⟩

/-- Leaves an option without a value. -/
def clear (options : Options) : Flag → Options
  | .host => { options with host := none }
  | .port => { options with port := none }
  | .logLevel => { options with logLevel := none }
  | .tcp | .help => options

/-- Gives an option a value that is not the separator. -/
def assign (options : Options) (flag : Flag) (value : Text) : Except UsageError Options :=
  match flag with
  | .host => .ok { options with host := some value }
  | .port =>
    match readInteger? value with
    | some port => .ok { options with port := some port }
    | none => .error (.invalidInteger flag value)
  | .logLevel =>
    match Level.ofName? value with
    | some level => .ok { options with logLevel := some level }
    | none => .error (.invalidChoice flag value (Level.all.map Level.name))
  | .tcp | .help => .ok options

/-- Gives an option a value; the separator leaves it without one, whatever its kind. -/
def set (options : Options) (flag : Flag) (value : Text) : Except UsageError Options :=
  if value = separator then .ok (options.clear flag) else options.assign flag value

end Options

/-- What a run of the program is asked to do. -/
inductive Request where
  | showHelp
  | start (options : Options)
deriving DecidableEq, Repr

/-- Checks what is attached to a one-letter option that takes no value: one or more further
letters may repeat the option, and what follows them is refused. -/
def checkLetters (flag : Flag) (attached : Text) : Except UsageError Unit :=
  match attached.dropWhile fun letter => ['-', letter] ∈ flag.spellings with
  | [] => if attached.isEmpty then .error (.ignoredValue flag []) else .ok ()
  | refused => .error (.ignoredValue flag refused)

/-- Acts on sorted arguments in order. `extras` are the arguments that nothing took, last
first. -/
def interpret (options : Options) (extras : List Text) :
    List Argument → Except UsageError Request
  | [] =>
    if extras.isEmpty then .ok (.start options) else .error (.unrecognized extras.reverse)
  | .plain text :: rest => interpret options (text :: extras) rest
  | .separator :: rest => interpret options (separator :: extras) rest
  | .unknown text :: rest => interpret options (text :: extras) rest
  | .option .help spelling (some attached) :: _ =>
    if ['-', '-'].isPrefixOf spelling then .error (.ignoredValue .help attached)
    else (checkLetters .help attached).map fun _ => .showHelp
  | .option .help _ none :: _ => .ok .showHelp
  | .option .tcp _ (some attached) :: _ => .error (.ignoredValue .tcp attached)
  | .option .tcp _ none :: rest => interpret { options with tcp := true } extras rest
  | .option flag _ (some attached) :: rest =>
    match options.set flag attached with
    | .error error => .error error
    | .ok changed => interpret changed extras rest
  | .option flag _ none :: .plain value :: rest =>
    match options.set flag value with
    | .error error => .error error
    | .ok changed => interpret changed extras rest
  | .option flag _ none :: _ => .error (.expectedValue flag)

/-- Reads the arguments of a run. -/
def parse (arguments : List Text) : Except UsageError Request := do
  interpret .standard [] (← classifyAll arguments)

/-- How the program is called. -/
def usage : Text :=
  ("usage: tdl-lsp [-h] [--tcp] [--host HOST] [--port PORT]\n" ++
    "               [--log-level \x7bdebug,info,warning,error\x7d]\n").toList

/-- The help text. -/
def helpText : Text :=
  usage ++
    ("\nTDL Language Server\n\noptions:\n" ++
      "  -h, --help            show this help message and exit\n" ++
      "  --tcp                 Start server in TCP mode instead of stdio\n" ++
      "  --host HOST           Host to bind to in TCP mode (default: 127.0.0.1)\n" ++
      "  --port PORT           Port to listen on in TCP mode (default: 2087)\n" ++
      "  --log-level \x7bdebug,info,warning,error\x7d\n" ++
      "                        Logging level (default: info)\n").toList

/-- What is written about refused arguments. -/
def UsageError.render (error : UsageError) : Text :=
  usage ++ "tdl-lsp: error: ".toList ++ error.message ++ ['\n']

/-- Why a run that the arguments ask for cannot start. -/
inductive StartFault where
  /-- The level of notices was left without a value. -/
  | levelMissing
deriving DecidableEq, Repr

def StartFault.message : StartFault → Text
  | levelMissing => "'list' object has no attribute 'upper'".toList

/-- The level from which a run shows notices. -/
def Options.threshold (options : Options) : Except StartFault Level :=
  match options.logLevel with
  | some level => .ok level
  | none => .error .levelMissing

/-- The notice with which a server starts. -/
def Options.startNotice (options : Options) : Notice :=
  if options.tcp then .startingOnPort options.host options.port else .startingOnStreams

end GrammarLens.CommandLine
