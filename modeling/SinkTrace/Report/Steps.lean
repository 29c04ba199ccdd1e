import SinkTrace.Analysis.Basic
import SinkTrace.Report.Snapshot

/-!
The steps of an analysis as a report: after every step, the sections that it may have changed.

The sections that grow most are written as differences: only the entries that are new, or that are
not what they were when the section was last written.
-/

namespace SinkTrace.Report

abbrev Written := Table String (List (String × Value))

namespace Steps

open Snapshot

def passName : Stage → String
  | .files _ => "Files"
  | .sites => "Location"
  | .links => "Import"
  | .filter => "Filter"
  | .declarations => "Pre"
  | .flow => "Post"
  | .callEdges => "CallGraph"
  | .keyMisses => "KeyErr"

def messages (m : Messages) : Value :=
  .object [("sup_class", nameSets m.superClasses), ("import_message", nameSets m.imports)]

/-- What the search for sinks and the imports change. -/
def searched (w : World) : List (String × Value) :=
  [("sinks", sinks w.sinks), ("potent", potent w.sinks),
   ("middles", middles w.middles), ("modules", modules w.modules),
   ("imports", imports w.imports), ("sources", .texts w.sources)]

/-- The sections that a step may have changed. -/
def sections : Stage → World → List (String × Value)
  | .files f, _ =>
    [("entry", .texts f.entry), ("matching", .texts f.matching), ("middle", .texts f.middle)]
  | .sites, w => searched w ++ [("messages", messages w.messages)]
  | .links, w => searched w ++ [("hierarchy", hierarchy w.sinks.hierarchy)]
  | .filter, w =>
    [("sinks", sinks w.sinks), ("potent", potent w.sinks),
     ("middles", middles w.middles), ("sources", .texts w.sources)]
  | .declarations, w =>
    [("defs", definitions w.defs), ("scopes", scopes w.scopes), ("classes", classes w.classes)]
  | .flow, w =>
    [("defs", definitions w.defs), ("scopes", scopes w.scopes), ("classes", classes w.classes),
     ("closure", nameSets (closure w.defs.closure)),
     ("taints", nameSets (closure w.defs.taints)),
     ("sinks", sinks w.sinks), ("intersections", crossings w.crossings),
     ("sources", .texts w.sources)]
  | .callEdges, w =>
    [("cg", nameSets w.graph.callees), ("re_cg", nameSets w.graph.callers),
     ("modnames", moduleNames w.graph), ("stmts", statements w.graph),
     ("calls", calls w.graph), ("contexts", contexts w.contexts),
     ("hierarchy", hierarchy w.sinks.hierarchy)]
  | .keyMisses, w => [("key_errs", .sorted (w.keyMisses.map keyMiss))]

def isDifference (name : String) : Bool := ["defs", "scopes", "closure", "taints"].contains name

def difference (before after : List (String × Value)) : List (String × Value) :=
  after.filter fun (k, v) =>
    match before.find? fun e => e.1 == k with
    | some e => e.2.written != v.written
    | none => true

def writeSection (written : Written) (name : String) (v : Value) : Written × Value :=
  match isDifference name, v with
  | true, .object fields =>
    (written.set name fields, .object (difference (written.getD name []) fields))
  | _, v => (written, v)

def writeStep (omitted : List String) (written : Written) (stage : Stage) (w : World) :
    Written × Value :=
  let name := passName stage
  let kept := (sections stage w).filter fun s => !omitted.contains (name ++ "." ++ s.1)
  let (written, fields) := kept.foldl (fun (written, out) (k, v) =>
    let (written, v) := writeSection written k v
    (written, out ++ [(k, v)])) (written, [])
  (written, .object (("pass", .text name) :: fields))

def write (omitted : List String) (steps : List (Stage × World)) : List Value :=
  (steps.foldl (fun (written, out) (stage, w) =>
    let (written, v) := writeStep omitted written stage w
    (written, out ++ [v])) (({} : Written), ([] : List Value))).2

end Steps

end SinkTrace.Report
