import PrimeLang.Command.Plan

/-! # Runs of the command in a directory

A directory as a value, together with the file system that it is in, and what the command leaves of
both. Links, permissions and files that are no plain ones are left out. -/

namespace PrimeLang.Command

/-- Why a file cannot be read or written. -/
inductive FileError where
  | notFound
  | isDirectory
  | notDirectory
  | notText
deriving DecidableEq, Repr

def FileError.reason : FileError → String
  | notFound => "No such file or directory (os error 2)"
  | isDirectory => "Is a directory (os error 21)"
  | notDirectory => "Not a directory (os error 20)"
  | notText => "stream did not contain valid UTF-8"

/-- The names that lead to a file or directory from the root of the file system. -/
abbrev Path := List String

/-- The names in a path. Slashes that follow each other count as one. -/
def pathNames (path : String) : List String :=
  ((path.toList.splitOn '/').map String.ofList).filter (· ≠ "")

/-- A path that begins with a slash starts at the root. -/
def beginsInSlash (path : String) : Bool := path.toList.head? == some '/'

/-- A path that ends in a slash can only be that of a directory. -/
def endsInSlash (path : String) : Bool := path.toList.getLast? == some '/'

/-- A directory to run in, with the files and directories of the file system. The root is a
directory whether it is listed or not. -/
structure Directory where
  /-- Where the directory itself is. -/
  path : Path
  dirs : List Path
  files : List (Path × ByteArray)

/-- What a path leads to. -/
inductive Target where
  | dir
  | file (path : Path) (content : ByteArray)
  /-- Nothing yet, in a directory that exists. -/
  | absent (path : Path)

namespace Directory

/-- Follows names from the directory at `path`. One dot stays there and two lead to the directory
that it is in, which is the root again at the root. -/
def follow (d : Directory) (path : Path) : List String → Except FileError Target
  | [] => .ok .dir
  | name :: names =>
    if name = "." then d.follow path names
    else if name = ".." then d.follow path.dropLast names
    else
      let path := path ++ [name]
      if path ∈ d.dirs then d.follow path names
      else
        match d.files.lookup path with
        | some content => if names = [] then .ok (.file path content) else .error .notDirectory
        | none => if names = [] then .ok (.absent path) else .error .notFound

/-- What the names in a path lead to, from the root or from the directory. The empty path leads
nowhere. -/
def find (d : Directory) (path : String) : Except FileError Target :=
  if path = "" then .error .notFound
  else d.follow (if beginsInSlash path then [] else d.path) (pathNames path)

/-- The content of a file. -/
def read (d : Directory) (path : String) : Except FileError ByteArray := do
  match ← d.find path with
  | .dir => throw .isDirectory
  | .absent _ => throw .notFound
  | .file _ content => if endsInSlash path then throw .notDirectory else return content

/-- The content of a file, which has to be UTF-8. -/
def readText (d : Directory) (path : String) : Except FileError String := do
  match String.fromUTF8? (← d.read path) with
  | some text => return text
  | none => throw .notText

/-- Replaces or creates a file. A path that ends in a slash is refused as that of a directory,
whatever its names lead to. -/
def write (d : Directory) (path : String) (content : ByteArray) : Except FileError Directory := do
  match ← d.find path with
  | .dir => throw .isDirectory
  | .absent names | .file names _ =>
    if endsInSlash path then throw .isDirectory
    else return { d with files := (names, content) :: d.files.filter (·.1 ≠ names) }

/-- The directory at `path` with the given directories and files below it. There is nothing else but
the directories that lead to them. -/
def ofEntries (path : Path) (dirs : List String) (files : List (String × ByteArray)) : Directory :=
  let below (entry : String) := path ++ (pathNames entry).filter (· ≠ ".")
  let parents (path : Path) := (List.range path.length).map path.take
  let dirs := path :: dirs.map below
  let files := files.map fun (entry, content) => (below entry, content)
  ⟨path, dirs ++ dirs.flatMap parents ++ files.flatMap (parents ·.1), files⟩

end Directory

/-- What a run of the command leaves behind. -/
structure Outcome where
  status : UInt32
  stdout : String
  directory : Directory

/-- Performs actions in order until one fails. -/
def perform (d : Directory) (stdout : String) (status : UInt32) : List Action → Outcome
  | [] => ⟨status, stdout, d⟩
  | .print text :: rest => perform d (stdout ++ text) status rest
  | .write path content :: rest =>
    match d.write path content with
    | .ok d => perform d stdout status rest
    | .error e => ⟨fileStatus, stdout ++ writeFailure e.reason, d⟩

/-- Runs the command in a directory. -/
def run (d : Directory) (args : List String) : Outcome :=
  match Options.ofArguments? args with
  | none => ⟨usageStatus, "", d⟩
  | some o =>
    match d.readText o.input with
    | .error e => ⟨fileStatus, readFailure o.input e.reason, d⟩
    | .ok code =>
      let plan := o.plan code
      perform d "" plan.status plan.actions

end PrimeLang.Command
