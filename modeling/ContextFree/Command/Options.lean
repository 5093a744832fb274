/-!
# Command-line options

The options of the program and how they are read from its arguments. Arguments are read from
left to right and the first one that does not fit is the usage error; the version and the help
text are given as soon as they are asked for.
-/

namespace ContextFree.Command

/-- How candidate words are found. -/
inductive Mode where
  | bfs
  | bigram
deriving DecidableEq, Repr

/-- The mode of a name. -/
def Mode.ofName? : String → Option Mode
  | "bfs" => some .bfs
  | "bigram" => some .bigram
  | _ => none

/-- The options that take a value. -/
inductive Setting where
  | mode
  | amount
  | length
  | maxLength
  | seed
  | word
  | output
deriving DecidableEq, Repr

/-- The options without a value. -/
inductive Flag where
  | positive
  | printNormalForm
  | verbose
  | version
  | help
deriving DecidableEq, Repr

/-- An option of either kind. -/
abbrev Switch := Setting ⊕ Flag

namespace Switch

/-- The option with a long name. -/
def ofLong? : String → Option Switch
  | "mode" => some (.inl .mode)
  | "amount" => some (.inl .amount)
  | "length" => some (.inl .length)
  | "max-length" => some (.inl .maxLength)
  | "seed" => some (.inl .seed)
  | "word" => some (.inl .word)
  | "output" => some (.inl .output)
  | "positive" => some (.inr .positive)
  | "print-cnf" => some (.inr .printNormalForm)
  | "verbose" => some (.inr .verbose)
  | "version" => some (.inr .version)
  | "help" => some (.inr .help)
  | _ => none

/-- The option with a letter. -/
def ofShort? : Char → Option Switch
  | 'm' => some (.inl .mode)
  | 'n' => some (.inl .amount)
  | 'l' => some (.inl .length)
  | 's' => some (.inl .seed)
  | 'w' => some (.inl .word)
  | 'o' => some (.inl .output)
  | 'p' => some (.inr .positive)
  | 'v' => some (.inr .verbose)
  | 'V' => some (.inr .version)
  | 'h' => some (.inr .help)
  | _ => none

end Switch

/-- What is wrong with the arguments. -/
inductive UsageError where
  | unknownOption (text : String)
  | missingValue (setting : Setting)
  | unneededValue (flag : Flag)
  | repeatedSetting (setting : Setting)
  | repeatedFlag (flag : Flag)
  | invalidValue (setting : Setting) (value : String)
  | emptyFile
  | unexpectedArgument (text : String)
  | missingFile
deriving DecidableEq, Repr

/-- The options as given. -/
structure Options where
  file : Option String := none
  mode : Option Mode := none
  amount : Option Nat := none
  length : Option Nat := none
  maxLength : Option Nat := none
  positive : Bool := false
  seed : Option Nat := none
  words : List String := []
  printNormalForm : Bool := false
  output : Option String := none
  verbosity : Nat := 0
deriving DecidableEq, Repr

/-- What the arguments ask for. -/
inductive Request where
  | run (file : String) (options : Options)
  | version
  | help
deriving DecidableEq, Repr

/-- The number that a text spells: digits, after a plus sign if there is one, and no more than
fits in 64 bits. -/
def readNumber? (text : String) : Option Nat :=
  let digits :=
    match text.toList with
    | '+' :: rest => rest
    | chars => chars
  if digits.isEmpty || !digits.all Char.isDigit then none
  else
    let number := digits.foldl (fun number digit => number * 10 + (digit.toNat - '0'.toNat)) 0
    if number < 1 <<< 64 then some number else none

namespace Options

/-- The value of a setting that may be given once. -/
def once {α : Type} (setting : Setting) (old : Option α) (value : String)
    (read? : String → Option α) : Except UsageError (Option α) :=
  if old.isSome then .error (.repeatedSetting setting)
  else
    match read? value with
    | some new => .ok (some new)
    | none => .error (.invalidValue setting value)

/-- A text that is not empty. -/
def nonempty? (text : String) : Option String := if text.isEmpty then none else some text

/-- The options with the value of a setting. -/
def set (options : Options) (setting : Setting) (value : String) : Except UsageError Options :=
  match setting with
  | .mode => do
    return { options with mode := ← once .mode options.mode value Mode.ofName? }
  | .amount => do
    return { options with amount := ← once .amount options.amount value readNumber? }
  | .length => do
    return { options with length := ← once .length options.length value readNumber? }
  | .maxLength => do
    return { options with maxLength := ← once .maxLength options.maxLength value readNumber? }
  | .seed => do
    return { options with seed := ← once .seed options.seed value readNumber? }
  | .output => do
    return { options with output := ← once .output options.output value nonempty? }
  | .word => .ok { options with words := options.words ++ [value] }

/-- The options with a positional argument, which is the file. -/
def setFile (options : Options) (text : String) : Except UsageError Options :=
  if options.file.isSome then .error (.unexpectedArgument text)
  else if text.isEmpty then .error .emptyFile
  else .ok { options with file := some text }

end Options

/-- Where reading the arguments has got to: the options so far, and whether a value is still to
come or only positional arguments are. -/
inductive Progress where
  | options (options : Options)
  | awaiting (options : Options) (setting : Setting)
  | positional (options : Options)
  | done (request : Request)
deriving DecidableEq, Repr

/-- Sets a flag. -/
def raise (options : Options) : Flag → Except UsageError Progress
  | .positive =>
    if options.positive then .error (.repeatedFlag .positive)
    else .ok (.options { options with positive := true })
  | .printNormalForm =>
    if options.printNormalForm then .error (.repeatedFlag .printNormalForm)
    else .ok (.options { options with printNormalForm := true })
  | .verbose => .ok (.options { options with verbosity := options.verbosity + 1 })
  | .version => .ok (.done .version)
  | .help => .ok (.done .help)

/-- Reads the letters behind a single dash: flags, and at most one setting, whose value is the
rest, without an equals sign in front, or the next argument if there is no rest. -/
def readLetters (options : Options) : List Char → Except UsageError Progress
  | [] => .ok (.options options)
  | letter :: rest =>
    match Switch.ofShort? letter with
    | none => .error (.unknownOption (String.singleton letter))
    | some (.inr flag) =>
      match raise options flag with
      | .ok (.options options) => readLetters options rest
      | other => other
    | some (.inl setting) =>
      match rest with
      | [] => .ok (.awaiting options setting)
      | '=' :: value => (options.set setting (String.ofList value)).map .options
      | value => (options.set setting (String.ofList value)).map .options

/-- Reads a long option, without its two dashes. -/
def readLong (options : Options) (chars : List Char) : Except UsageError Progress :=
  let name := String.ofList (chars.takeWhile (· != '='))
  let value? :=
    match chars.dropWhile (· != '=') with
    | [] => none
    | _ :: value => some (String.ofList value)
  match Switch.ofLong? name, value? with
  | none, _ => .error (.unknownOption name)
  | some (.inl setting), some value => (options.set setting value).map .options
  | some (.inl setting), none => .ok (.awaiting options setting)
  | some (.inr flag), some _ => .error (.unneededValue flag)
  | some (.inr flag), none => raise options flag

/-- Reads one argument. -/
def readArgument (progress : Progress) (argument : String) : Except UsageError Progress :=
  match progress with
  | .done request => .ok (.done request)
  | .positional options => (options.setFile argument).map .positional
  | .awaiting options setting =>
    match argument.toList with
    | '-' :: _ :: _ => .error (.missingValue setting)
    | _ => (options.set setting argument).map .options
  | .options options =>
    match argument.toList with
    | ['-', '-'] => .ok (.positional options)
    | '-' :: '-' :: long => readLong options long
    | '-' :: letter :: letters => readLetters options (letter :: letters)
    | _ => (options.setFile argument).map .options

/-- What complete options ask for. -/
def Options.request (options : Options) : Except UsageError Request :=
  match options.file with
  | some file => .ok (.run file options)
  | none => .error .missingFile

/-- Reads the arguments of the program. -/
def readArguments (arguments : List String) : Except UsageError Request :=
  match arguments.foldlM readArgument (.options {}) with
  | .error error => .error error
  | .ok (.done request) => .ok request
  | .ok (.awaiting _ setting) => .error (.missingValue setting)
  | .ok (.options options) => options.request
  | .ok (.positional options) => options.request

end ContextFree.Command
