import SinkTrace.Data.Table
import SinkTrace.Package.Path
import SinkTrace.Text.Utf8

/-!
The files that are analysed. Paths are relative to the root of the tree; the root itself is the
empty path.
-/

namespace SinkTrace

structure FileTree where
  files : Table String (List UInt8) := {}

namespace FileTree

variable (t : FileTree)

def isFile (path : String) : Bool := t.files.contains path

def isDir (path : String) : Bool :=
  path = "" || t.files.keys.any fun f => Text.startsWith f (path ++ "/")

def below? (dir path : String) : Option String :=
  if dir = "" then some path
  else (Text.afterPrefix? (dir ++ "/").toList path.toList).map String.ofList

def insertEntry (e : String × Bool) : List (String × Bool) → List (String × Bool)
  | [] => [e]
  | a :: as => if a.1 < e.1 then a :: insertEntry e as else e :: a :: as

def list (dir : String) : List (String × Bool) :=
  let names := t.files.keys.filterMap fun f =>
    (below? dir f).map fun rest =>
      match Text.cut? rest "/" with
      | some (d, _) => (d, true)
      | none => (rest, false)
  let once := names.foldl (fun out n => if out.contains n then out else out ++ [n]) []
  once.foldr insertEntry []

def walk (dir : String) : List (String × List String) :=
  go ((t.files.keys.map String.length).foldl max 0 + 1) dir
where
  go : Nat → String → List (String × List String)
    | 0, _ => []
    | fuel + 1, dir =>
      let entries := t.list dir
      let files := (entries.filter fun e => !e.2).map (·.1)
      let dirs := (entries.filter (·.2)).map (·.1)
      (dir, files) :: dirs.flatMap fun d => go fuel (Path.join dir d)

def unifyLines : List Char → List Char
  | '\r' :: '\n' :: cs => '\n' :: unifyLines cs
  | '\r' :: cs => '\n' :: unifyLines cs
  | c :: cs => c :: unifyLines cs
  | [] => []

def textStrict? (path : String) : Option String :=
  (t.files.get? path).bind fun bs =>
    (Text.Utf8.strict? bs).map fun s => String.ofList (unifyLines s.toList)

def text? (path : String) : Option String :=
  (t.files.get? path).map fun bs => String.ofList (unifyLines (Text.Utf8.lenient bs).toList)

end FileTree

end SinkTrace
