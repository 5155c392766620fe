/-!
# Directories
Files of one directory, in the order of their names, and the rules for paths.
-/

namespace BlockMachine.Cli
set_option autoImplicit false

namespace Path

def splitSlashes : List Char → List (List Char)
  | [] => [[]]
  | c :: cs =>
    if c = '/' then [] :: splitSlashes cs
    else
      match splitSlashes cs with
      | part :: parts => (c :: part) :: parts
      | [] => [[c]]

def isIdle (part : List Char) : Bool := part == [] || part == ['.']

def parts (path : String) : List (List Char) :=
  (splitSlashes path.toList).filter (!isIdle ·)

/-- The part of a name after its last dot. A name has none if its only dot comes first. -/
def extension? (name : List Char) : Option (List Char) :=
  let reversed := name.reverse
  match reversed.dropWhile (· != '.') with
  | '.' :: _ :: _ => some (reversed.takeWhile (· != '.')).reverse
  | _ => none

def hasExtension (path extension : String) : Bool :=
  match (parts path).getLast? with
  | some name => name != ['.', '.'] && extension? name == some extension.toList
  | none => false

inductive Target where
  | outside
  | directory
  | file (name : String)
  | beneath (name : String) (slashesOnly : Bool)
  deriving DecidableEq

def target (path : String) : Target :=
  if path.toList = [] ∨ path.toList.head? = some '/' then .outside
  else
    match (splitSlashes path.toList).dropWhile isIdle with
    | [] => .directory
    | name :: rest =>
      if name = ['.', '.'] then .outside
      else if rest = [] then .file (String.ofList name)
      else .beneath (String.ofList name) (rest.all (· == []))

end Path

inductive OpenFailure where
  | missing
  | notDirectory
  | isDirectory
  deriving DecidableEq

def OpenFailure.message : OpenFailure → String
  | .missing => "No such file or directory (os error 2)"
  | .notDirectory => "Not a directory (os error 20)"
  | .isDirectory => "Is a directory (os error 21)"

structure Directory where
  files : List (String × List UInt8) := []
  deriving DecidableEq

namespace Directory

def insertFile (name : String) (content : List UInt8) :
    List (String × List UInt8) → List (String × List UInt8)
  | [] => [(name, content)]
  | f :: fs =>
    if name < f.1 then (name, content) :: f :: fs
    else if name = f.1 then (name, content) :: fs
    else f :: insertFile name content fs

def failureBeneath (d : Directory) (name : String) : OpenFailure :=
  if (d.files.lookup name).isSome then .notDirectory else .missing

def read (d : Directory) (path : String) : Except OpenFailure (List UInt8) :=
  match Path.target path with
  | .file name =>
    match d.files.lookup name with
    | some content => .ok content
    | none => .error .missing
  | .beneath name _ => .error (d.failureBeneath name)
  | .directory => .error .isDirectory
  | .outside => .error .missing

/-- Writes a file over the one of the same name. A name with only slashes after it asks for a
directory, whether it is there or not. -/
def write (d : Directory) (path : String) (content : List UInt8) :
    Option OpenFailure × Directory :=
  match Path.target path with
  | .file name => (none, ⟨insertFile name content d.files⟩)
  | .beneath name slashesOnly =>
    (some (if slashesOnly then .isDirectory else d.failureBeneath name), d)
  | .directory => (some .isDirectory, d)
  | .outside => (some .missing, d)

end Directory

end BlockMachine.Cli
