import SinkTrace.Text.Basic

/-!
Paths and the module names they stand for.
-/

namespace SinkTrace.Path

def join (dir name : String) : String := if dir = "" then name else dir ++ "/" ++ name

def parentDir (path : String) : String := ((Text.cutLast? path "/").map (·.1)).getD ""

/-- A path without the ending of its last part. Leading dots of a name are no ending. -/
def dropEnding (path : String) : String :=
  let (dir, name) := match Text.cutLast? path "/" with
    | some (d, n) => (d ++ "/", n)
    | none => ("", path)
  let dots := name.toList.takeWhile (· = '.')
  let rest := String.ofList (name.toList.drop dots.length)
  match Text.cutLast? rest "." with
  | some (stem, _) => dir ++ String.ofList dots ++ stem
  | none => path

def parts (path : String) : List String :=
  (Text.splitOn path "/").foldl (fun out p =>
    if p = "" || p = "." then out
    else if p = ".." then
      match out.getLast? with
      | none => if Text.startsWith path "/" then out else out ++ [p]
      | some ".." => out ++ [p]
      | some _ => out.dropLast
    else out ++ [p]) []

def commonStart : List String → List String → List String
  | a :: as, b :: bs => if a = b then a :: commonStart as bs else []
  | _, _ => []

def relative (path dir : String) : String :=
  let source := parts dir
  let target := parts path
  let common := (commonStart source target).length
  let steps := List.replicate (source.length - common) ".." ++ target.drop common
  if steps.isEmpty then "." else String.intercalate "/" steps

def moduleName (path : String) : String := Text.replace (dropEnding path) "/" "."

/-- The module name of a file of a package; the initial file of a directory stands for the
directory. -/
def moduleIn (file package : String) : String :=
  let name := moduleName (relative file package)
  if Text.endsWith name "__init__" then Text.dotted (Text.components name).dropLast else name

def moduleFound (file dir : String) : String :=
  moduleName (relative (if Text.endsWith file "__init__.py" then parentDir file else file) dir)

end SinkTrace.Path
