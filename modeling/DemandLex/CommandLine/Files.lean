/-! Files by name, and why one cannot be read. -/

namespace DemandLex.CommandLine

inductive ReadError where
  | notFound
  | notDirectory
  | isDirectory
  | nameTooLong
  | notText
  | other (message : String)
  deriving DecidableEq, Repr

namespace ReadError

def message : ReadError → String
  | notFound => "No such file or directory (os error 2)"
  | notDirectory => "Not a directory (os error 20)"
  | isDirectory => "Is a directory (os error 21)"
  | nameTooLong => "File name too long (os error 36)"
  | notText => "stream did not contain valid UTF-8"
  | other message => message

end ReadError

def decode (bytes : ByteArray) : Except ReadError String :=
  match String.fromUTF8? bytes with
  | some text => .ok text
  | none => .error .notText

/-- A directory with the files in it, each by its path from there. -/
structure Directory where
  files : List (String × ByteArray)

namespace Directory

def components (path : String) : List String :=
  (path.splitOn "/").filter fun name => name != "" && name != "."

inductive Entry where
  | file (content : ByteArray)
  | directory

def at? (d : Directory) (place : List String) : Option Entry :=
  if place.isEmpty then some .directory
  else match d.files.find? fun (name, _) => components name == place with
    | some (_, content) => some (.file content)
    | none =>
      if d.files.any fun (name, _) => place.isPrefixOf (components name) then some .directory
      else none

/-- What stands at a place counted from the root, as far as every system has it: the device that is
always empty, the standard input, and directories. -/
def rootAt? (input : ByteArray) : List String → Option Entry
  | [] => some .directory
  | ["dev", "null"] => some (.file .empty)
  | ["dev", "stdin"] | ["dev", "fd", "0"] | ["proc", "self", "fd", "0"] => some (.file input)
  | ["dev", "fd"] | ["proc", "self"] | ["proc", "self", "fd"] => some .directory
  | [name] =>
    if ["bin", "boot", "dev", "etc", "home", "lib", "media", "mnt", "opt", "proc", "root", "run",
        "sbin", "srv", "sys", "tmp", "usr", "var"].contains name then some .directory
    else none
  | _ => none

/-- Why a path from above the directory leads to no file: nothing is known there except the way
up. -/
def above : List String → ReadError
  | [] => .isDirectory
  | name :: rest =>
    if name = "" ∨ name = "." ∨ name = ".." then above rest
    else if 255 < name.utf8ByteSize then .nameTooLong
    else .notFound

/-- Follows the parts of a path from a place, where `stands` says what is at every place. Two dots
at the top stay there, or go on with `leave` if there is something above. -/
def follow (stands : List String → Option Entry)
    (leave : Option (List String → Except ReadError ByteArray)) (place : List String) :
    List String → Except ReadError ByteArray
  | [] =>
    match stands place with
    | none => .error .notFound
    | some .directory => .error .isDirectory
    | some (.file content) => .ok content
  | name :: rest =>
    match stands place with
    | none => .error .notFound
    | some (.file _) => .error .notDirectory
    | some .directory =>
      if name = "" ∨ name = "." then follow stands leave place rest
      else if name = ".." then
        match place, leave with
        | [], some leave => leave rest
        | _, _ => follow stands leave place.dropLast rest
      else if 255 < name.utf8ByteSize then .error .nameTooLong
      else follow stands leave (place ++ [name]) rest

def read (d : Directory) (input : ByteArray) (path : String) : Except ReadError ByteArray :=
  if path = "" then .error .notFound
  else if 4096 ≤ path.utf8ByteSize then .error .nameTooLong
  else match path.splitOn "/" with
    | "" :: rest => follow (rootAt? input) none [] rest
    | parts => follow d.at? (some fun rest => .error (above rest)) [] parts

end Directory

end DemandLex.CommandLine
