import SinkTrace.Package.FileTree
import SinkTrace.Sink.Basic

/-!
Which files of a package are analysed, and in which order.
-/

namespace SinkTrace

/-- The files of a package: those that mention a sink, those that mention a model, and all. -/
structure FoundFiles where
  entry : List String := []
  matching : List String := []
  middle : List String := []

namespace FoundFiles

def skipped : List String :=
  ["paper_experiments", "tests", "benchmark", "venv", "WareHouse/", "testevals/", "benchmarks",
   "examples", "test/", "camel/test"]

/-- How often a file is matched: for the first sink with its function or its module in the text. -/
def countMatches (content : String) (listed : Nat) (line : String) : Nat :=
  if 0 < listed then listed
  else
    match Text.splitOn line ":" with
    | [m, f, _] =>
      (if Text.contains content (f ++ "(") then 1 else 0) +
      (if Text.contains content m then 1 else 0)
    | _ => 0

def callsModel (content line : String) : Bool :=
  match Text.splitOn line ":" with
  | [m, f, _] =>
    (Text.contains content ("import " ++ m) || Text.contains content ("from " ++ m)) &&
      Text.contains content (f ++ "(")
  | _ => false

def addFile (sinkLines middleLines : List String) (found : FoundFiles) (path content : String) :
    FoundFiles :=
  let listed := sinkLines.foldl (countMatches content) 0
  let isMiddle := middleLines.any (callsModel content)
  { entry := if listed = 0 && !isMiddle then found.entry ++ [path] else found.entry
    matching := found.matching ++ List.replicate listed path
    middle := if isMiddle then found.middle ++ [path] else found.middle }

def ofTree (files : FileTree) (package : String) (sinkLines middleLines : List String) :
    FoundFiles :=
  let dirs := (files.walk package).filter fun d => !skipped.any (Text.contains ("/" ++ d.1))
  let paths := dirs.flatMap fun (dir, names) =>
    (names.filter (Text.endsWith · ".py")).map (Path.join dir)
  let found := paths.foldl (fun found path =>
    match files.textStrict? path with
    | some content => addFile sinkLines middleLines found path content
    | none => found) {}
  { found with entry := found.matching ++ found.middle ++ found.entry }

end FoundFiles

end SinkTrace
