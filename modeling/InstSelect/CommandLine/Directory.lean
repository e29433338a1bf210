import InstSelect.CommandLine.Run

/-!
# A directory in memory

Files held as a list of paths and texts, with the rules of a real directory: paths are
relative to it, `.` stays where it is, `..` leaves a subdirectory that exists, and a file
can be written only into a directory that exists.
-/

namespace InstSelect.CommandLine

/-- A directory: the paths of its files, each a list of names, with their texts. -/
structure Directory where
  files : List (List String × String)
deriving DecidableEq, Repr

namespace Directory

/-- The names in a path, empty ones included. -/
def splitPath (path : String) : List String := path.splitOn "/"

def ofFiles (files : List (String × String)) : Directory :=
  ⟨files.map fun f => (splitPath f.1, f.2)⟩

/-- Whether there is a subdirectory at a path. -/
def hasDir (d : Directory) (path : List String) : Bool :=
  path.isEmpty || d.files.any fun f => path.isPrefixOf f.1 && path.length < f.1.length

/-- Follows names from a subdirectory; what is left must be the name of a file in it. -/
def locate? (d : Directory) (here : List String) : List String → Option (List String)
  | [] => none
  | [name] => if name = "" ∨ name = "." ∨ name = ".." then none else some (here ++ [name])
  | name :: rest =>
    if name = "" ∨ name = "." then d.locate? here rest
    else if name = ".." then (if here.isEmpty then none else d.locate? here.dropLast rest)
    else if d.hasDir (here ++ [name]) then d.locate? (here ++ [name]) rest
    else none

/-- The place of a file that a path names, whether or not the file exists. -/
def place? (d : Directory) (path : String) : Option (List String) :=
  if path.startsWith "/" then none
  else (d.locate? [] (splitPath path)).filter fun place => !d.hasDir place

/-- The text of a file. -/
def read? (d : Directory) (path : String) : Option String :=
  (d.place? path).bind fun place => d.files.lookup place

/-- The directory after a file is written, if it can be. -/
def write? (d : Directory) (path text : String) : Option Directory :=
  (d.place? path).map fun place =>
    if (d.files.lookup place).isSome then
      ⟨d.files.map fun f => if f.1 = place then (place, text) else f⟩
    else ⟨d.files ++ [(place, text)]⟩

/-- The files of a directory by path. -/
def entries (d : Directory) : List (String × String) :=
  d.files.map fun f => ("/".intercalate f.1, f.2)

/-- Access to the files of a directory that is the state of a run. -/
def access : Files (StateM Directory) where
  read path := do
    pure ((← get).read? path)
  write path text := do
    match (← get).write? path text with
    | some d =>
      set d
      pure true
    | none => pure false

/-- Runs the program in a directory; the answer has the directory afterwards. -/
def runIn (d : Directory) (args : List String) : Report × Directory :=
  (run access args).run d

/-- The files of `after` that `before` does not have with the same text. -/
def changes (before after : Directory) : List (String × String) :=
  after.entries.filter fun f => !before.entries.contains f

end Directory

end InstSelect.CommandLine
