import CoinLedger.Text

/-!
# The working directory

The files that settings and logs name, and the folders through which their paths go.  A path is
walked component by component: an empty component and a single dot stay in the folder, two dots
lead to the folder above, and a name leads on only if there is a folder of this name.  What the
last component names is a folder, which can be opened but holds no text, or a file, which may be
new.  Nothing here makes or removes a folder, and no name stands for another path.
-/

namespace CoinLedger

/-- A place in the file system: the names that lead to it from the root. -/
abbrev Location := List Text

/-- The files and folders that can be reached from the working directory. -/
structure Directory where
  /-- The working directory. -/
  home : Location
  /-- Other folders.  The folders above a folder are there with it. -/
  folders : List Location
  /-- The names of the files with their contents.  A name is the shortest path from the working
  directory, or from the root if the file does not lie in the working directory. -/
  files : List (Text × Text)
  deriving DecidableEq

namespace Directory

/-- A working directory without files and without folders in it. -/
def empty : Directory := ⟨[Text.ofString "home"], [], []⟩

/-- The byte between the components of a path. -/
def slash : UInt8 := 47

/-- The longest name of a file or folder. -/
def maxNameLength : Nat := 255

/-- The longest path. -/
def maxPathLength : Nat := 4095

/-- Whether a component stays in the folder in which it stands. -/
def staysInPlace (component : Text) : Bool := component == [] || component == [46]

/-- Whether a component leads to the folder above. -/
def leadsUp (component : Text) : Bool := component == [46, 46]

/-- What counts of a path: it ends at its first zero byte. -/
def spelled (path : Text) : Text := path.takeWhile (· ≠ 0)

/-- The components of a path. -/
def components (path : Text) : List Text := Text.fields slash (spelled path)

/-- Whether a path and all its components are short enough to be looked up. -/
def withinLimits (path : Text) : Bool :=
  decide ((spelled path).length ≤ maxPathLength) &&
    (components path).all (fun part => part.length ≤ maxNameLength)

/-- Components with slashes between them. -/
def join : List Text → Text
  | [] => []
  | [name] => name
  | name :: rest => name ++ [slash] ++ join rest

/-- Whether there is a folder at a place. -/
def isFolder (d : Directory) (place : Location) : Bool :=
  (d.home :: d.folders).any (fun folder => place.isPrefixOf folder)

/-- The folder to which a component leads from the folder at a place.  The root is its own folder
above. -/
def enter? (d : Directory) (place : Location) (component : Text) : Option Location :=
  if staysInPlace component then some place
  else if leadsUp component then some place.dropLast
  else if d.isFolder (place ++ [component]) then some (place ++ [component])
  else none

/-- The folder to which components lead one after the other. -/
def walk? (d : Directory) (place : Location) : List Text → Option Location
  | [] => some place
  | component :: rest => (d.enter? place component).bind (fun next => d.walk? next rest)

/-- The folder from which a path is walked: the root if the path begins with a slash. -/
def startOf (d : Directory) (path : Text) : Location :=
  if (components path).head? = some [] then [] else d.home

/-- The name of the file at a place. -/
def nameAt (d : Directory) (place : Location) : Text :=
  if d.home.isPrefixOf place then join (place.drop d.home.length) else [slash] ++ join place

/-- What a path leads to. -/
inductive Target where
  /-- a folder -/
  | folder
  /-- a file, which may be new, in a folder that is there -/
  | file (name : Text)
  deriving DecidableEq

/-- What a path leads to; `none` if it is empty or too long or goes through what is no folder. -/
def resolve? (d : Directory) (path : Text) : Option Target :=
  if spelled path = [] || !withinLimits path then none
  else
    match (components path).getLast? with
    | none => none
    | some last =>
      (d.walk? (d.startOf path) (components path).dropLast).map (fun place =>
        if (d.enter? place last).isSome then .folder else .file (d.nameAt (place ++ [last])))

/-- The content of the file with the given name. -/
def find? (d : Directory) (name : Text) : Option Text := d.files.lookup name

/-- Opens what a path leads to and reads it.  A folder can be opened, and then there is nothing to
read. -/
def read? (d : Directory) (path : Text) : Option Text :=
  match d.resolve? path with
  | none => none
  | some .folder => some []
  | some (.file name) => d.find? name

/-- The name of the file that a path leads to, which is there or can be created. -/
def writable? (d : Directory) (path : Text) : Option Text :=
  match d.resolve? path with
  | some (.file name) => some name
  | some .folder | none => none

/-- Replaces the content of a file, or creates it. -/
def write (d : Directory) (name content : Text) : Directory :=
  { d with files := (name, content) :: d.files.filter (fun file => file.1 ≠ name) }

/-- Replaces the content of the file that a path leads to, or creates it, where that is
possible. -/
def put (d : Directory) (path content : Text) : Directory :=
  match d.writable? path with
  | some name => d.write name content
  | none => d

/-- Appends to a file, which may be new. -/
def append (d : Directory) (name text : Text) : Directory :=
  d.write name ((d.find? name).getD [] ++ text)

/-- A file has the content that was written last. -/
theorem find?_write (d : Directory) (name content : Text) :
    (d.write name content).find? name = some content := by
  simp [write, find?]

end Directory

end CoinLedger
