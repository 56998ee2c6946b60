import TraceTree.Text.Split

set_option autoImplicit false

/-! # The working directory

The files that a session writes. A session starts in a directory of its own that is empty: files
can be written into it but not into directories below it, since there are none. What lies outside
is not kept; the directories above are taken to exist, and no other place is. -/

namespace TraceTree

/-- Why a file cannot be written. -/
inductive DiskError where
  | notFound
  | notADirectory
  | isADirectory
  | nameTooLong
  | nullInName
  deriving DecidableEq

/-- The wording of a failure. -/
def DiskError.message : DiskError → String
  | notFound => "No such file or directory (os error 2)"
  | notADirectory => "Not a directory (os error 20)"
  | isADirectory => "Is a directory (os error 21)"
  | nameTooLong => "File name too long (os error 36)"
  | nullInName => "file name contained an unexpected NUL byte"

/-- The files in the working directory, with their contents. -/
structure Disk where
  files : List (String × String)

/-- Where a path leads: to a name in the working directory, or to one outside. -/
inductive Target where
  | inside (name : String)
  | outside
  deriving DecidableEq

namespace Disk

/-- An empty directory. -/
def empty : Disk := ⟨[]⟩

/-- The content of a file. -/
def content? (d : Disk) (name : String) : Option String := d.files.lookup name

/-- Put a file in place of one with the same name. -/
def put (d : Disk) (name content : String) : Disk :=
  ⟨d.files.filter (fun file => file.1 != name) ++ [(name, content)]⟩

/-- Follow the parts of a path; `inside` says whether the directory reached is the working
directory. A name with a slash after it can only be that of a directory. -/
def follow (d : Disk) : Bool → List String → Except DiskError Target
  | _, [] => .error .isADirectory
  | inside, [name] =>
    if name == "" || name == "." || name == ".." then .error .isADirectory
    else if 255 < name.utf8ByteSize then .error .nameTooLong
    else .ok (if inside then .inside name else .outside)
  | inside, part :: more =>
    if part == "" || part == "." then d.follow inside more
    else if part == ".." then d.follow false more
    else if more.all (· == "") then .error .isADirectory
    else if 255 < part.utf8ByteSize then .error .nameTooLong
    else if inside && (d.content? part).isSome then .error .notADirectory
    else .error .notFound

/-- Where a path leads. -/
def resolve (d : Disk) (path : String) : Except DiskError Target :=
  if path.toList.contains '\x00' then .error .nullInName
  else if path == "" then .error .notFound
  else if 4095 < path.utf8ByteSize then .error .nameTooLong
  else d.follow (!path.startsWith "/") (Text.splitAt '/' path)

/-- Write a file. -/
def write (d : Disk) (path content : String) : Except DiskError Disk :=
  match d.resolve path with
  | .ok (.inside name) => .ok (d.put name content)
  | .ok .outside => .ok d
  | .error e => .error e

end Disk

end TraceTree
