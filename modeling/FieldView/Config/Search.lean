import FieldView.Config.Basic

/-!
# Where the configuration is

The configuration of a place in a file tree is the nearest file `ffront.toml` in its directory or in
a directory above. A place is a path from the root of the tree; it need not exist. Going up goes
along the path as it is written, so `a` comes above `a/..`.

What is put into a tree is put where its path leads, and every directory on the way is made: a file
at `a/../b` lies at `b`, and there is a directory `a`.
-/

set_option autoImplicit false

namespace FieldView

/-- The steps of a path as it is written, between slashes. -/
def pathSteps (path : String) : List String := path.splitOn "/"

/-- The steps of a path that go somewhere. -/
def properSteps (path : String) : List String :=
  (pathSteps path).filter fun step => step != "" && step != "."

/-- The place one step away from a place. A step that is empty or a dot stays, two dots go up, and
nothing is known above the root. The path of a place is given from its end. -/
def placeAfter? (here : List String) (step : String) : Option (List String) :=
  if step = "" ∨ step = "." then some here
  else if step = ".." then
    match here with
    | [] => none
    | _ :: above => some above
  else some (step :: here)

/-- The place to which steps lead, and the places from which they were taken. -/
def routeFrom? (here : List String) : List String → Option (List String × List (List String))
  | [] => some (here, [])
  | step :: steps => do
    let next ← placeAfter? here step
    let (place, passed) ← routeFrom? next steps
    return (place, here :: passed)

/-- The route of a path from the root of a tree. A path that begins with a slash leads out of the
tree. -/
def route? (path : String) : Option (List String × List (List String)) :=
  if path.startsWith "/" then none else routeFrom? [] (pathSteps path)

/-- A tree of files. A directory is one that is listed, or in which something lies. -/
structure FileTree where
  /-- Files by their path, the latest first. -/
  files : List (List String × String) := []
  dirs : List (List String) := []

namespace FileTree

/-- The tree with a directory more, and with every directory that its path passes. -/
def addDir (t : FileTree) (path : String) : FileTree :=
  match route? path with
  | none => t
  | some (place, passed) => { t with dirs := (place :: passed).map List.reverse ++ t.dirs }

/-- The tree with a file more, and with every directory that its path passes. A file that was there
is replaced. -/
def addFile (t : FileTree) (path : String) (text : String) : FileTree :=
  match route? path with
  | none => t
  | some (place, passed) =>
    { files := (place.reverse, text) :: t.files
      dirs := passed.map List.reverse ++ t.dirs }

/-- The tree with some files and some directories. -/
def ofPaths (files : List (String × String)) (dirs : List String) : FileTree :=
  files.foldl (fun t (path, text) => t.addFile path text) (dirs.foldl addDir {})

/-- Whether there is a directory at a path. -/
def isDir (t : FileTree) (path : List String) : Bool :=
  path.isEmpty || t.dirs.any (path.isPrefixOf ·) ||
    t.files.any fun (file, _) => path.isPrefixOf file && path != file

/-- The text of the file at a path. -/
def file? (t : FileTree) (path : List String) : Option String :=
  if t.isDir path then none else List.lookup path t.files

/-- Follows steps from a place. Each step needs a directory to start from. -/
def follow (t : FileTree) (here : List String) : List String → Option (List String)
  | [] => some here
  | step :: steps =>
    if !t.isDir here.reverse then none
    else
      match placeAfter? here step with
      | none => none
      | some next => t.follow next steps

/-- The text of the file to which steps from the root lead. -/
def read? (t : FileTree) (steps : List String) : Option String :=
  match t.follow [] steps with
  | none => none
  | some here => t.file? here.reverse

/-- The text of the file at a path as it is written. A path that begins with a slash leads out of
the tree. -/
def readPath? (t : FileTree) (path : String) : Option String :=
  if path.startsWith "/" then none else t.read? (pathSteps path)

/-- The text of the nearest file of a name in a directory, whose path is given from its end, or
above. -/
def nearest? (t : FileTree) (name : String) : List String → Option String
  | [] => t.read? [name]
  | step :: above =>
    match t.read? ((step :: above).reverse ++ [name]) with
    | some text => some text
    | none => t.nearest? name above

end FileTree

namespace Config

/-- The name of a configuration file. -/
def fileName : String := "ffront.toml"

/-- The text of the configuration file of a place. The place of a file is its directory. -/
def textFor? (t : FileTree) (place : String) : Option String :=
  if place.startsWith "/" then none
  else
    let here := (properSteps place).reverse
    t.nearest? fileName (if (t.readPath? place).isSome then here.drop 1 else here)

/-- The configuration in a file. -/
def load (t : FileTree) (path : String) : Except ConfigError Config :=
  match t.readPath? path with
  | none => .error .unreadable
  | some text => ofText text

/-- The configuration of a place. It is the default where there is no file. -/
def loadFor (t : FileTree) (place : String) : Except ConfigError Config :=
  match textFor? t place with
  | none => .ok {}
  | some text => ofText text

end Config

end FieldView
