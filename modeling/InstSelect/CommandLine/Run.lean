import InstSelect.Abi.Json
import InstSelect.CommandLine.Arguments
import InstSelect.Failure.Message
import InstSelect.IR.Json
import InstSelect.Lowering.Module
import InstSelect.Machine.Json
import InstSelect.Machine.Listing

/-!
# Running the command line

What the program does with its arguments, over whatever holds the files: the calling
convention is read first, then the module; the module is lowered, and the program is
written to the output file or to standard output.
-/

namespace InstSelect.CommandLine

/-- What a run leaves besides written files. -/
structure Report where
  exitCode : UInt8
  stdout : String
  stderr : String
deriving DecidableEq, Repr

/-- Access to files. -/
structure Files (m : Type → Type) where
  read : String → m (Option String)
  /-- Writes a text to a path; the answer tells whether it could be written. -/
  write : String → String → m Bool

def versionText : String := "fp-x64 0.1.0\n"

/-- A short reminder of the arguments. -/
def usageText : String :=
  "Usage: fp-x64 [-v] [-q] [--log LEVEL] [--log-format FORMAT] [-c CONFIG]\n" ++
  "              lower INPUT [--emit text|json] [-o OUTPUT] [--no-types]\n"

namespace Report

/-- Success, with a text on standard output. -/
def success (stdout : String) : Report := ⟨0, stdout, ""⟩

/--
The report of a failure: broken invariants and overflows have an exit code of their own.
-/
def ofFailure (f : Failure) : Report :=
  ⟨if f.isRefusal then 1 else 101, "", f.message ++ "\n"⟩

/-- The report of arguments that lead to no run. -/
def ofStop : Stop → Report
  | .usage => ⟨2, "", usageText⟩
  | .help => success usageText
  | .version => success versionText

end Report

/-- Reads what is stored in a file from its text. -/
def decodeFile {α : Type} (ofText? : String → Option α) (what path : String)
    (text : Option String) : Except Failure α :=
  match text with
  | none => .error (.generic s!"reading {what} {path}")
  | some text =>
    match ofText? text with
    | some a => .ok a
    | none => .error (.generic s!"parsing {what} {path}")

/-- The emitted text of a program. -/
def render (r : Request) (p : Machine.Program) : Except Failure String :=
  match r.emit with
  | .text => p.listing { Machine.ListingStyle.standard with showTypes := r.showTypes }
  | .json => .ok (encode p).pretty

variable {m : Type → Type} [Monad m]

/-- The calling convention asked for. -/
def loadAbi (files : Files m) (r : Request) : m (Except Failure Abi) := do
  match r.config with
  | none => pure (.ok Abi.win64)
  | some path => pure (decodeFile Abi.ofText? "config" path (← files.read path))

/-- The emitted text of the module asked for, under a calling convention. -/
def loadAndLower (files : Files m) (r : Request) (abi : Abi) :
    m (Except Failure String) := do
  let text ← files.read r.input
  pure do
    let m ← decodeFile IR.Module.ofText? "module" r.input text
    render r (← Lowering.lowerModule m abi)

/-- Hands the emitted text over. -/
def deliver (files : Files m) (r : Request) (text : String) : m Report := do
  match r.output with
  | none => pure (.success text)
  | some path =>
    if ← files.write path text then pure (.success "")
    else pure (.ofFailure (.generic s!"writing {path}"))

/-- Carries out a request. -/
def perform (files : Files m) (r : Request) : m Report := do
  match ← loadAbi files r with
  | .error failure => pure (.ofFailure failure)
  | .ok abi =>
    match ← loadAndLower files r abi with
    | .error failure => pure (.ofFailure failure)
    | .ok text => deliver files r text

/-- Runs the program on its arguments. -/
def run (files : Files m) (args : List String) : m Report :=
  match parse args with
  | .error stop => pure (.ofStop stop)
  | .ok r => perform files r

end InstSelect.CommandLine
