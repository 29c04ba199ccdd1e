import SinkTrace.Data.Names

/-!
Modules: what the passes know about the classes, methods and fields of a file.
-/

namespace SinkTrace

structure ClassShape where
  /-- The base classes, with the modules they are in. -/
  supers : Table String String := {}
  /-- The fields, with the methods that use them. -/
  fields : NameTable := {}
  methods : Names := []

structure Span where
  first : Option Nat
  last : Option Nat

structure ModuleInfo where
  name : String
  filename : Option String
  classes : Table String ClassShape := {}
  methods : Table String Span := {}
  fields : NameTable := {}
  fieldClasses : NameTable := {}
  /-- The classes and methods in the order of the text. -/
  members : List String := []
  moduleMethods : List String := []
  abstractMethods : Names := []
  /-- Who calls a method: methods of the module, or `module#method` for those of others. -/
  callers : NameTable := {}
  messages : Names := []

namespace ModuleInfo

variable (m : ModuleInfo)

def withClass (c : String) : ModuleInfo := { m with classes := m.classes.setNew c {} }

def classShape (c : String) : ClassShape := m.classes.getD c {}

def addMethod (method : String) (span : Span) : ModuleInfo :=
  { m with methods := m.methods.setNew method span }

def addField (f : String) : ModuleInfo := { m with fields := m.fields.setNew f [] }

def addFieldClasses (f : String) (cs : Names) : ModuleInfo :=
  { m with fieldClasses := Names.unionAt m.fieldClasses f cs }

def addMember (x : String) : ModuleInfo :=
  if m.members.contains x then m else { m with members := m.members ++ [x] }

def addModuleMethod (x : String) : ModuleInfo :=
  if m.moduleMethods.contains x then m else { m with moduleMethods := m.moduleMethods ++ [x] }

def addAbstract (x : String) : ModuleInfo :=
  { m with abstractMethods := m.abstractMethods.insertEnd x }

def addCaller (callee caller : String) : ModuleInfo :=
  { m with callers := m.callers.set callee (m.callers.getD callee [] ++ [caller]) }

end ModuleInfo

structure Modules where
  inner : Table String ModuleInfo := {}
  outer : Table String ModuleInfo := {}

namespace Modules

variable (ms : Modules)

def create (name : String) (filename : Option String) (isOuter : Bool) : Modules :=
  if isOuter then { ms with outer := ms.outer.set name { name, filename } }
  else { ms with inner := ms.inner.set name { name, filename } }

def get? (name : String) : Option ModuleInfo := ms.inner.get? name <|> ms.outer.get? name

/-- Changes the module that `get?` gives. -/
def adjust (name : String) (f : ModuleInfo → ModuleInfo) : Modules :=
  if ms.inner.contains name then { ms with inner := ms.inner.modify name f }
  else { ms with outer := ms.outer.modify name f }

end Modules

end SinkTrace
