import ContextFree.Command.Options
import ContextFree.Corpus
import ContextFree.NormalForm.Conversion
import ContextFree.Source.File
import ContextFree.Words.Strategy

/-!
# Running the program

The program reads a grammar, converts it, finds candidate words or takes those that are given,
and writes them out with their labels. What it does between reading the grammar and writing the
corpus depends on nothing but the options, the content of the file and the seed.
-/

namespace ContextFree.Command

/-- What a run leaves behind besides files. -/
structure Outcome where
  exitCode : Nat
  stdout : String
  stderr : String
deriving DecidableEq, Repr

/-- The exit code for arguments that do not fit. -/
def usageExitCode : Nat := 2

/-- What is printed for the version. -/
def versionText : String := "chomsky 0.1.0\n"

/-- What is printed for help. -/
def helpText : String := String.join
  ["Usage: chomsky [OPTIONS] <FILE>\n\n",
   "Arguments:\n",
   "  <FILE>  File containing the grammar\n\n",
   "Options:\n",
   "  -m, --mode <MODE>          How candidate words are generated [default: bfs]",
   " [possible values: bfs, bigram]\n",
   "  -n, --amount <AMOUNT>      Amount of words to generate (default: 10)\n",
   "  -l, --length <LENGTH>      Exact word length for breadth-first generation\n",
   "      --max-length <LENGTH>  Longest word the bigram walk produces (default: 20)\n",
   "  -p, --positive             Only emit words derived from the grammar\n",
   "  -s, --seed <SEED>          Seed for every random choice (default: random)\n",
   "  -w, --word <WORD>          Label these words instead of generating any\n",
   "      --print-cnf            Print the grammar in Chomsky normal form to stderr\n",
   "  -o, --output <FILE>        Write the corpus here instead of stdout\n",
   "  -v, --verbose...           Log more, repeat for more detail\n",
   "  -h, --help                 Print help\n",
   "  -V, --version              Print version\n"]

/-- What is printed for arguments that do not fit. -/
def UsageError.text : UsageError → String
  | unknownOption text => "error: unexpected argument '" ++ text ++ "' found\n"
  | missingValue _ => "error: a value is required for an option but none was supplied\n"
  | unneededValue _ => "error: unexpected value for an option that takes none\n"
  | repeatedSetting _ | repeatedFlag _ =>
    "error: an option cannot be used multiple times\n"
  | invalidValue _ value => "error: invalid value '" ++ value ++ "'\n"
  | emptyFile => "error: a value is required for '<FILE>' but none was supplied\n"
  | unexpectedArgument text => "error: unexpected argument '" ++ text ++ "' found\n"
  | missingFile => "error: the following required arguments were not provided: <FILE>\n"

namespace Options

/-- The levels whose notices are logged: errors and warnings always, more with verbosity. -/
def logs (options : Options) (level : Level) : Bool := level.rank ≤ 1 + options.verbosity

/-- The lines of the log for a list of notices. -/
def log (options : Options) (notices : List Notice) : String :=
  String.join ((notices.filter fun notice => options.logs notice.level).map Notice.line)

/-- The line of the log for a message of the program itself. -/
def note (options : Options) (level : Level) (message : String) : String :=
  options.log [⟨level, .command, message⟩]

/-- How candidate words are to be found. -/
def strategy (options : Options) : Strategy :=
  match options.mode.getD .bfs with
  | .bfs =>
    let defaults : SearchOptions := {}
    .search { defaults with
      count := options.amount.getD defaults.count
      wordLength := options.length
      alwaysPositive := options.positive }
  | .bigram =>
    let defaults : WalkOptions := {}
    .walks { defaults with
      count := options.amount.getD defaults.count
      maxLength := options.maxLength.getD defaults.maxLength }

/-- The words to label: those that are given or, if there are none, candidates. -/
def candidates (options : Options) (c : NormalForm) (entropy : UInt64) :
    List Word × List Notice :=
  if options.words.isEmpty then
    let seed := (options.seed.map UInt64.ofNat).getD entropy
    let found := c.generate options.strategy (Keystream.ofSeed seed)
    (found.words, found.notices)
  else (options.words.map String.toList, [])

end Options

/-- A corpus to be written, and what has been logged on the way to it. -/
structure Result where
  log : String
  corpus : String
deriving DecidableEq, Repr

/-- The result for a file, given what reading it gave, or the reports on its faults. `entropy`
is the seed that is used when none is given. -/
def process (file : String) (options : Options) (content : Except FileError String)
    (entropy : UInt64) : Except String Result :=
  match Grammar.ofContent file content with
  | .error reports => .error (String.join (reports.map fun report => report.text ++ "\n"))
  | .ok g =>
    let conversion := g.convertFixed
    let c := conversion.normalForm
    let (words, notices) := options.candidates c entropy
    let log :=
      options.note .information ("read " ++ toString g.productionCount ++ " productions over " ++
        toString g.rules.size ++ " nonterminals from " ++ file) ++
      options.log conversion.notices ++
      options.note .information
        ("normal form has " ++ toString c.productionCount ++ " productions") ++
      (if options.printNormalForm then c.render else "") ++
      options.log notices ++
      options.note .information ("labeling " ++ toString words.length ++ " words")
    .ok ⟨log, Corpus.format (Corpus.labelWords (.ofNormalForm c) words)⟩

/-- What is logged when the corpus cannot be written. -/
def Options.writeFailure (options : Options) (error : FileError) : String :=
  options.note .error ("could not write the corpus: " ++ error.text)

/-- Runs the program in a directory and gives the outcome and the directory afterwards. -/
def run (directory : Directory) (arguments : List String) (entropy : UInt64) :
    Outcome × Directory :=
  match readArguments arguments with
  | .error error => (⟨usageExitCode, "", error.text⟩, directory)
  | .ok .version => (⟨0, versionText, ""⟩, directory)
  | .ok .help => (⟨0, helpText, ""⟩, directory)
  | .ok (.run file options) =>
    match process file options (directory.read file) entropy with
    | .error text => (⟨1, "", text⟩, directory)
    | .ok result =>
      match options.output with
      | none => (⟨0, result.corpus, result.log⟩, directory)
      | some path =>
        match directory.write path result.corpus with
        | .ok directory => (⟨0, "", result.log⟩, directory)
        | .error error => (⟨1, "", result.log ++ options.writeFailure error⟩, directory)

end ContextFree.Command
