import Marshal.Text

/-! # Files

Paths, and files held in memory under them. Directories are there as long as a file is below them.
-/
set_option autoImplicit false
namespace Marshal

namespace FilePath

def parts (path : Text) : List Text := Text.splitOn 47 path

def isRooted (path : Text) : Bool := path.head? = some 47

/-- Removes empty parts and dots, and resolves double dots as far as the text allows; `stack` holds the
parts so far, last one first. -/
def resolve (rooted : Bool) : List Text → List Text → List Text
  | stack, [] => stack.reverse
  | stack, part :: rest =>
    if part.isEmpty || part = Text.ofString "." then resolve rooted stack rest
    else if part = Text.ofString ".." then
      match stack with
      | [] => resolve rooted (if rooted then [] else [part]) rest
      | top :: below =>
        if top = Text.ofString ".." then resolve rooted (part :: stack) rest else resolve rooted below rest
    else resolve rooted (part :: stack) rest

def clean (path : Text) : Text :=
  let rooted := isRooted path
  match resolve rooted [] (parts path), rooted with
  | [], false => "."
  | names, true => "/" ++ Text.join "/" names
  | names, false => Text.join "/" names

def join (directory name : Text) : Text := clean (directory ++ "/" ++ name)

end FilePath

inductive Spot where
  | file (content : Text)
  | directory
  | vacant
  | missing
  | notDirectory

structure Files where
  entries : List (List Text × Text) := []

namespace Files

def ofList (files : List (Text × Text)) : Files :=
  { entries := files.map fun (path, content) => (FilePath.resolve false [] (FilePath.parts path), content) }

def isDirectory (fs : Files) (names : List Text) : Bool :=
  names.isEmpty || fs.entries.any fun (path, _) => names.isPrefixOf path && path.length > names.length

def file? (fs : Files) (names : List Text) : Option Text := fs.entries.lookup names

/-- Follows the parts of a path; `here` is the directory reached, last name first. What lies above the top
directory is empty. -/
def walk (fs : Files) : List Text → List Text → Spot
  | _, [] => .directory
  | here, part :: rest =>
    if part.isEmpty || part = Text.ofString "." then walk fs here rest
    else if part = Text.ofString ".." then
      match here with
      | [] => if rest.all fun p => p.isEmpty || p = Text.ofString "." then .directory else .missing
      | _ :: above => walk fs above rest
    else
      let names := (part :: here).reverse
      match fs.file? names with
      | some content => if rest.isEmpty then .file content else .notDirectory
      | none =>
        if fs.isDirectory names then walk fs (part :: here) rest
        else if rest.isEmpty then .vacant
        else .missing

def spot (fs : Files) (path : Text) : Spot :=
  if path.isEmpty then .missing
  else if FilePath.isRooted path then
    if (FilePath.resolve true [] (FilePath.parts path)).isEmpty then .directory else .missing
  else fs.walk [] (FilePath.parts path)

def refusal (op path why : Text) : Text := op ++ " " ++ path ++ ": " ++ why

def noSuchFile : Text := "no such file or directory"

def read (fs : Files) (path : Text) : Except Text Text :=
  match fs.spot path with
  | .file content => .ok content
  | .directory => .error (refusal "read" path "is a directory")
  | .notDirectory => .error (refusal "open" path "not a directory")
  | _ => .error (refusal "open" path noSuchFile)

def put (fs : Files) (path content : Text) : Files :=
  let names := FilePath.resolve false [] (FilePath.parts path)
  { entries := (names, content) :: fs.entries.filter (·.1 ≠ names) }

def create (fs : Files) (path : Text) : Except Text Files :=
  match fs.spot path with
  | .file _ => .ok (fs.put path [])
  | .vacant => .ok (fs.put path [])
  | .directory => .error (refusal "open" path "is a directory")
  | .notDirectory => .error (refusal "open" path "not a directory")
  | .missing => .error (refusal "open" path noSuchFile)

end Files

end Marshal
