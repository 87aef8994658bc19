/-
Paths of scripts.

A path is a sequence of names between slashes.  Empty names and single dots stand
for nothing and two dots for the folder above.  What a file is called is its last
name; its extension is what follows the last dot of that, unless the dot comes
first.  Names and paths have a greatest length, counted in bytes.

* `Path.extension?` — the extension of a path;
* `Folder.read` — the text of a file of a folder.
-/
namespace WordScript

namespace Path

/-- Whether a name stands for nothing. -/
def isVacant (name : String) : Bool :=
  name = "" || name = "."

/-- The names of a path that stand for something. -/
def names (path : String) : List String :=
  (path.splitOn "/").filter fun name => !isVacant name

/-- The last name of a path that does not end in the folder above. -/
def fileName? (path : String) : Option String :=
  match (names path).getLast? with
  | some ".." => none
  | last => last

/-- What follows the last dot of a name, if something stands before that dot. -/
def extensionOf? (name : String) : Option String :=
  match (name.splitOn ".").reverse with
  | last :: before :: rest => if before = "" && rest.isEmpty then none else some last
  | _ => none

/-- The extension of a path. -/
def extension? (path : String) : Option String :=
  (fileName? path).bind extensionOf?

end Path

/-- Why a file cannot be read. -/
inductive ReadError where
  | notFound
  | notFolder
  | isFolder
  | nameTooLong
  | notUtf8
  | other (reason : String)
deriving Repr, DecidableEq

/-- The wording of an error. -/
def ReadError.message : ReadError → String
  | notFound => "No such file or directory (os error 2)"
  | notFolder => "Not a directory (os error 20)"
  | isFolder => "Is a directory (os error 21)"
  | nameTooLong => "File name too long (os error 36)"
  | notUtf8 => "stream did not contain valid UTF-8"
  | other reason => reason

namespace Path

/-- The bytes that a name may have. -/
def maxNameBytes : Nat := 255

/-- The bytes that a path may have. -/
def maxPathBytes : Nat := 4095

/-- Why a name of which nothing is known cannot be followed. -/
def unknown (name : String) : ReadError :=
  if maxNameBytes < name.utf8ByteSize then .nameTooLong else .notFound

/-- Why names cannot be followed from a place where no file is visible. -/
def unseen : List String → ReadError
  | [] => .isFolder
  | name :: rest => if isVacant name || name = ".." then unseen rest else unknown name

end Path

/-- Files by their paths from a folder. -/
structure Folder where
  files : List (String × String)

namespace Folder

/-- The text of the file with exactly these names. -/
def file? (f : Folder) (names : List String) : Option String :=
  (f.files.find? fun file => Path.names file.1 == names).map Prod.snd

/-- Whether some file lies below these names. -/
def isFolder (f : Folder) (names : List String) : Bool :=
  names.isEmpty || f.files.any fun file =>
    names.isPrefixOf (Path.names file.1) && Path.names file.1 != names

/-- Follows names from the place `at_`, which is given by its names.  Nothing outside the folder is
visible. -/
def locate (f : Folder) (at_ : List String) : List String → Except ReadError (List String)
  | [] => .ok at_
  | name :: rest =>
    if (f.file? at_).isSome then .error .notFolder
    else if Path.isVacant name then f.locate at_ rest
    else if name = ".." then
      if at_.isEmpty then .error (Path.unseen rest) else f.locate at_.dropLast rest
    else if (f.file? (at_ ++ [name])).isSome || f.isFolder (at_ ++ [name]) then
      f.locate (at_ ++ [name]) rest
    else .error (Path.unknown name)

/-- The text of the file at a path. -/
def read (f : Folder) (path : String) : Except ReadError String :=
  if path = "" then .error .notFound
  else if Path.maxPathBytes < path.utf8ByteSize then .error .nameTooLong
  else if path.startsWith "/" then .error (Path.unseen (path.splitOn "/"))
  else
    match f.locate [] (path.splitOn "/") with
    | .error e => .error e
    | .ok names =>
      match f.file? names with
      | some text => .ok text
      | none => .error .isFolder

end Folder

end WordScript
