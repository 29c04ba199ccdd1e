import SinkTrace.Code.Literal
import SinkTrace.Data.Names
import SinkTrace.Fault

/-!
Small registers: where sinks and models meet, the contexts of calls, and keys that are missing.
-/

namespace SinkTrace

/-- The lines of a namespace that call a method which leads to a model. -/
structure Crossing where
  filename : String := ""
  lines : Table Int Names := {}

abbrev Crossings := Table String Crossing

namespace Crossings

def create (name : String) : Act Crossings Unit := do
  unless (← get).contains name do
    if name = "" then throw (.resource "Invalid node name")
    modify (·.set name {})

def setFilename (name : String) (filename : Option String) : Act Crossings Unit := do
  match filename with
  | none | some "" => throw (.resource "Invalid node name")
  | some f =>
    if !(← get).contains name then throw (.resource "Node does not exist")
    modify (·.modify name fun c => { c with filename := f })

def addLine (cs : Crossings) (name : String) (line : Int) (method : String) : Crossings :=
  cs.modify name fun c =>
  { c with lines := c.lines.set line ((c.lines.getD line []).insertEnd method) }

end Crossings

structure Context where
  context : String := ""
  pointer : String := ""

abbrev Contexts := Table String Context

structure KeyMiss where
  filename : String
  line : Nat
  ns : String
  key : Literal

end SinkTrace
