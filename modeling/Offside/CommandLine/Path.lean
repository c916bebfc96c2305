set_option autoImplicit false

/-! # Paths

A path is made absolute from a directory: `.` and empty parts mean nothing, and `..` takes back the
part before it. What lies on the disk plays no role. -/

namespace Offside.Path

/-- The parts of a directory. -/
def directoryParts (directory : String) : List String :=
  if directory = "/" then [""] else directory.splitOn "/"

/-- The parts from the root on after one more part, all in reverse. -/
def enter (parts : List String) (part : String) : List String :=
  if part = "" || part = "." then parts
  else if part = ".." then
    match parts with
    | _ :: above :: rest => above :: rest
    | root => root
  else part :: parts

/-- The path with these parts. -/
def ofParts (parts : List String) : String :=
  if parts = [""] then "/" else "/".intercalate parts

/-- The absolute form of a path that is given inside a directory. -/
def resolve (directory path : String) : String :=
  let root := if path.startsWith "/" then [""] else directoryParts directory
  ofParts ((path.splitOn "/").foldl enter root.reverse).reverse

end Offside.Path
