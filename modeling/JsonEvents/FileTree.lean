import JsonEvents.Reader
import JsonEvents.Status.Parts

/-!
# Files and directories

A tree of files, directories and symbolic links in and below a working
directory.  `resolve` follows a name through it, `openReader` opens what the
name leads to, and `build` makes a tree entry by entry.
-/

namespace JsonEvents

open Ascii

inductive Entry
  | directory
  | file (content : Bytes)
  | link (target : Bytes)

/-- The steps on the way from the surroundings of the working directory. -/
abbrev Path := List Bytes

abbrev FileTree := List (Path × Entry)

/-- Of the surroundings nothing else is known, and no step of a name leads back from there. -/
def workingDirectory : Path := [[]]

/-- Why a name leads nowhere, or to nothing that can be read. -/
inductive PathFault
  | absent
  | notDirectory
  | nameTooLong
  | isDirectory
  | accessDenied
  | tooManyLinks
  deriving DecidableEq

namespace PathFault

def text : PathFault → String
  | .absent => "No such file or directory"
  | .notDirectory => "Not a directory"
  | .nameTooLong => "File name too long"
  | .isDirectory => "Is a directory"
  | .accessDenied => "Permission denied"
  | .tooManyLinks => "Too many levels of symbolic links"

def category : PathFault → Category
  | .absent => .notFound
  | .notDirectory | .nameTooLong | .isDirectory | .accessDenied => .invalidArgument
  | .tooManyLinks => .ioError

/-- The failure to use a name. -/
def status (fault : PathFault) (name : Bytes) : Status :=
  .ofParts fault.category .unspecified
    [.bytes name, .bytes (Bytes.ofString ": "), .bytes (Bytes.ofString fault.text)]

end PathFault

namespace FileTree

def separator : UInt8 := 47

/-- A name of this length is too long for one step of a path. -/
def stepLimit : Nat := 255

/-- A path of this length is too long. -/
def pathLimit : Nat := 4096

/-- So many links are followed. -/
def linkLimit : Nat := 40

def dot : Bytes := [point]

def dotDot : Bytes := [point, point]

/-- The steps of a name between separators; one at the end asks for a directory. -/
def stepsFrom (step : Bytes) : Bytes → List Bytes
  | [] => if step.isEmpty then [dot] else [step.reverse]
  | c :: rest =>
      if c = separator then
        if step.isEmpty then stepsFrom [] rest else step.reverse :: stepsFrom [] rest
      else stepsFrom (c :: step) rest

def steps (name : Bytes) : List Bytes := stepsFrom [] name

/-- The surroundings are a directory, and all that is above them is a part of them. -/
def entry? (t : FileTree) (path : Path) : Option Entry :=
  if path.isEmpty then some .directory else (t.find? (·.1 == path)).map (·.2)

/-- Where a name begins: one with a separator in front does not hang on the current directory. -/
def origin (name : Bytes) (current : Path) : Path :=
  if name.head? = some separator then [] else current

/-- Follow steps from a path that is no link, by way of so many links at most. -/
def walk (t : FileTree) (links : Nat) (path : Path) (todo : List Bytes) :
    Except PathFault (Path × Entry) :=
  match todo with
  | [] =>
      match t.entry? path with
      | some entry => .ok (path, entry)
      | none => .error .absent
  | step :: rest =>
      match t.entry? path with
      | some .directory =>
          if step = dot then t.walk links path rest
          else if step = dotDot then t.walk links path.dropLast rest
          else if stepLimit < step.length then .error .nameTooLong
          else
            match t.entry? (path ++ [step]) with
            | none => .error .absent
            | some (.link target) =>
                if _spent : links = 0 then .error .tooManyLinks
                else t.walk (links - 1) (origin target path) (steps target ++ rest)
            | some _ => t.walk links (path ++ [step]) rest
      | some _ => .error .notDirectory
      | none => .error .absent
termination_by (links, todo.length)

/-- Whether a name is one that may be followed at all. -/
def isName (name : Bytes) : Bool := !name.isEmpty && name.length < pathLimit

def resolve (t : FileTree) (name : Bytes) : Except PathFault (Path × Entry) :=
  if name.isEmpty then .error .absent
  else if pathLimit ≤ name.length then .error .nameTooLong
  else t.walk linkLimit (origin name workingDirectory) (steps name)

/-- A reader of the file.  A directory can be opened, but reading it fails. -/
def openReader (t : FileTree) (name : Bytes) : Except Status Reader :=
  match t.resolve name with
  | .error fault => .error (fault.status name)
  | .ok (_, .file content) => .ok { Reader.ofBytes content with grantsNothing := true }
  | .ok _ => .ok (.failing (PathFault.isDirectory.status name))

def isDirectory (t : FileTree) (name : Bytes) : Bool :=
  match t.resolve name with
  | .ok (_, .directory) => true
  | _ => false

/-- What the file of a name holds, through links. -/
def content? (t : FileTree) (name : Bytes) : Option Bytes :=
  match t.resolve name with
  | .ok (_, .file content) => some content
  | _ => none

/-- A name with a further step. -/
def join (name step : Bytes) : Bytes :=
  if name.getLast? = some separator then name ++ step else name ++ [separator] ++ step

/-- The names of the files below a directory, links to files among them. -/
def filesBelow (t : FileTree) (name : Bytes) : List Bytes :=
  match t.resolve name with
  | .ok (path, .directory) =>
      t.filterMap fun (below, _) =>
        if path.isPrefixOf below && path.length < below.length then
          let full := (below.drop path.length).foldl join name
          if (t.content? full).isSome then some full else none
        else none
  | _ => []

/-- The files that arguments name, by themselves or by a directory above them. -/
def corpus (t : FileTree) (args : List Bytes) : List Bytes :=
  args.flatMap fun arg => if t.isDirectory arg then t.filesBelow arg else [arg]

/-- The path at which a name is free for a new entry. -/
def vacancy? (t : FileTree) (name : Bytes) : Option Path := do
  let last ← (steps name).getLast?
  if last = dot ∨ last = dotDot ∨ stepLimit < last.length ∨ pathLimit ≤ name.length then none
  else
    match t.walk linkLimit (origin name workingDirectory) (steps name).dropLast with
    | .ok (path, .directory) =>
        if (t.entry? (path ++ [last])).isNone then some (path ++ [last]) else none
    | _ => none

/-- Add the directories along steps that are not there yet, as far as that can be done. -/
def addDirectoriesFrom (t : FileTree) (path : Path) : List Bytes → FileTree
  | [] => t
  | step :: rest =>
      if step = dot then t.addDirectoriesFrom path rest
      else if step = dotDot then t.addDirectoriesFrom path.dropLast rest
      else if stepLimit < step.length then t
      else
        match t.entry? (path ++ [step]) with
        | none =>
            addDirectoriesFrom (t ++ [(path ++ [step], .directory)]) (path ++ [step]) rest
        | some .directory => t.addDirectoriesFrom (path ++ [step]) rest
        | some _ => t

/-- Add the directories of a name. -/
def addDirectories (t : FileTree) (name : Bytes) : FileTree :=
  if isName name then t.addDirectoriesFrom (origin name workingDirectory) (steps name) else t

/-- Give a file its content; there may be none of the name yet, but a directory stays. -/
def writeFile (t : FileTree) (name content : Bytes) : FileTree :=
  match t.resolve name with
  | .ok (path, .file _) =>
      t.map fun old => if old.1 == path then (path, .file content) else old
  | .ok _ => t
  | .error _ =>
      match t.vacancy? name with
      | some path => t ++ [(path, .file content)]
      | none => t

/-- Add a link, if its name is free. -/
def addLink (t : FileTree) (name target : Bytes) : FileTree :=
  match t.vacancy? name with
  | some path => if isName target then t ++ [(path, .link target)] else t
  | none => t

/-- The tree of a working directory without entries. -/
def empty : FileTree := [(workingDirectory, .directory)]

/-- A tree of directories, then files, then links.  What cannot be made is left out. -/
def build (directories : List Bytes) (files : List (Bytes × Bytes))
    (links : List (Bytes × Bytes)) : FileTree :=
  let t := directories.foldl addDirectories empty
  let t := files.foldl (fun t (name, content) => writeFile t name content) t
  links.foldl (fun t (name, target) => addLink t name target) t

end FileTree

end JsonEvents
