import InstSelect.Named

/-!
# Command-line arguments

The grammar of the command line. There are two levels: options before the subcommand
`lower`, and those after it. An option takes its value from the same argument
(`--log=info`, `-oout`, `-o=out`) or from the next one; a value on its own may not look
like an option. Flags of one letter may be clustered. Apart from `-v`, no option may be
given twice on one level. After `--` every argument is positional.
-/

namespace InstSelect.CommandLine

/-- Verbosity of diagnostics. -/
inductive LogLevel
  | error
  | warn
  | info
  | debug
  | trace
deriving DecidableEq, Repr

instance : Named LogLevel where
  members := [.error, .warn, .info, .debug, .trace]
  ident
    | .error => "error"
    | .warn => "warn"
    | .info => "info"
    | .debug => "debug"
    | .trace => "trace"

/-- Form of diagnostics. -/
inductive LogFormat
  | pretty
  | json
deriving DecidableEq, Repr

instance : Named LogFormat where
  members := [.pretty, .json]
  ident
    | .pretty => "pretty"
    | .json => "json"

/-- Form of the emitted program. -/
inductive Emit
  | text
  | json
deriving DecidableEq, Repr

instance : Named Emit where
  members := [.text, .json]
  ident
    | .text => "text"
    | .json => "json"

/-- The options. -/
inductive Opt
  | verbose
  | quiet
  | log
  | logFormat
  | config
  | emit
  | output
  | noTypes
  | help
  | version
deriving DecidableEq, Repr

/-- The level an option is given on. -/
inductive Level
  /-- Before the subcommand. -/
  | top
  /-- After the subcommand. -/
  | lower
deriving DecidableEq, Repr

namespace Opt

def ofLevel : Level → List Opt
  | .top => [verbose, quiet, log, logFormat, config, help, version]
  | .lower => [verbose, quiet, log, logFormat, config, emit, output, noTypes, help]

def long : Opt → String
  | verbose => "verbose"
  | quiet => "quiet"
  | log => "log"
  | logFormat => "log-format"
  | config => "config"
  | emit => "emit"
  | output => "output"
  | noTypes => "no-types"
  | help => "help"
  | version => "version"

/-- The one-letter name, if there is one. -/
def short? : Opt → Option Char
  | verbose => some 'v'
  | quiet => some 'q'
  | config => some 'c'
  | output => some 'o'
  | help => some 'h'
  | version => some 'V'
  | log | logFormat | emit | noTypes => none

/-- Whether an option has a value. -/
def takesValue : Opt → Bool
  | log | logFormat | config | emit | output => true
  | verbose | quiet | noTypes | help | version => false

/-- The values an option accepts; a path is any text but the empty one. -/
def accepts (o : Opt) (value : String) : Bool :=
  match o with
  | log => (Named.find? value : Option LogLevel).isSome
  | logFormat => (Named.find? value : Option LogFormat).isSome
  | emit => (Named.find? value : Option Emit).isSome
  | config | output => !value.isEmpty
  | verbose | quiet | noTypes | help | version => false

end Opt

/-- Why the arguments do not lead to a run of the subcommand. -/
inductive Stop
  /-- The arguments break the grammar. -/
  | usage
  /-- Help was asked for. -/
  | help
  /-- The version was asked for. -/
  | version
deriving DecidableEq, Repr

/-- What has been read on one level. -/
structure Given where
  /-- Options with their values; the value of a flag is empty. -/
  options : List (Opt × String)
  input : Option String
  /-- The option whose value is the next argument. -/
  pending : Option Opt
  /-- Whether `--` has been seen. -/
  literal : Bool
deriving DecidableEq, Repr

namespace Given

/-- Nothing read yet. -/
def empty : Given := ⟨[], none, none, false⟩

def value? (g : Given) (o : Opt) : Option String := g.options.lookup o

def record (g : Given) (o : Opt) (value : String) : Except Stop Given :=
  match o with
  | .help => .error .help
  | .version => .error .version
  | .verbose => .ok { g with options := g.options ++ [(o, value)] }
  | _ =>
    if (g.value? o).isSome || (o.takesValue && !o.accepts value) then .error .usage
    else .ok { g with options := g.options ++ [(o, value)] }

/-- Fails while an option waits for its value. -/
def settled (g : Given) : Except Stop Unit :=
  if g.pending.isSome then .error .usage else .ok ()

def longOption (level : Level) (g : Given) (name : String) (value : Option String) :
    Except Stop Given := do
  match (Opt.ofLevel level).find? fun o => o.long == name with
  | none => .error .usage
  | some o =>
    g.settled
    match o.takesValue, value with
    | true, some value => g.record o value
    | true, none => pure { g with pending := some o }
    | false, some _ => .error .usage
    | false, none => g.record o ""

/--
Takes a cluster of one-letter options; the first that has a value takes the rest as its
value.
-/
def shortOptions (level : Level) : List Char → Given → Except Stop Given
  | [], g => .ok g
  | c :: rest, g => do
    match (Opt.ofLevel level).find? fun o => o.short? == some c with
    | none => .error .usage
    | some o =>
      g.settled
      if o.takesValue then
        match rest with
        | [] => pure { g with pending := some o }
        | '=' :: value => g.record o (String.ofList value)
        | value => g.record o (String.ofList value)
      else shortOptions level rest (← g.record o "")

/-- Takes a positional argument: the input, once. -/
def positional (level : Level) (g : Given) (arg : String) : Except Stop Given := do
  g.settled
  match level, g.input with
  | .lower, none =>
    if arg.isEmpty then .error .usage else pure { g with input := some arg }
  | _, _ => .error .usage

/-- Takes one argument. -/
def take (level : Level) (g : Given) (arg : String) : Except Stop Given :=
  if g.literal then g.positional level arg
  else
    match arg.toList with
    | ['-', '-'] => .ok { g with literal := true }
    | '-' :: '-' :: rest =>
      let name := String.ofList (rest.takeWhile (· ≠ '='))
      match rest.dropWhile (· ≠ '=') with
      | [] => g.longOption level name none
      | _ :: value => g.longOption level name (some (String.ofList value))
    | '-' :: c :: rest => shortOptions level (c :: rest) g
    | _ =>
      match g.pending with
      | some o => { g with pending := none }.record o arg
      | none => g.positional level arg

end Given

/-- What a run of the subcommand is to do. -/
structure Request where
  input : String
  emit : Emit
  output : Option String
  showTypes : Bool
  config : Option String
deriving DecidableEq, Repr

/--
Combines the two levels; an option given after the subcommand wins over the same before
it.
-/
def request (top lower : Given) : Except Stop Request := do
  lower.settled
  match lower.input with
  | none => .error .usage
  | some input =>
    pure {
      input
      emit := ((lower.value? .emit).bind Named.find?).getD .text
      output := lower.value? .output
      showTypes := (lower.value? .noTypes).isNone
      config := (lower.value? .config).or (top.value? .config) }

/-- What follows the word `help`: nothing, or one subcommand to be explained. -/
def helpTopic : List String → Stop
  | [] | ["lower"] | ["help"] => .help
  | _ => .usage

/-- Reads the arguments before the subcommand, then those after it. -/
def parseTop (g : Given) : List String → Except Stop Request
  | [] => .error .usage
  | arg :: rest => do
    if !g.literal && g.pending.isNone && arg == "lower" then
      request g (← rest.foldlM (Given.take .lower) Given.empty)
    else if !g.literal && g.pending.isNone && arg == "help" then .error (helpTopic rest)
    else parseTop (← g.take .top arg) rest

/-- Reads the arguments. -/
def parse (args : List String) : Except Stop Request := parseTop Given.empty args

end InstSelect.CommandLine
