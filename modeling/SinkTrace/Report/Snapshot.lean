import SinkTrace.Class
import SinkTrace.Code.Printer
import SinkTrace.Definition.Store
import SinkTrace.Graph.CallGraph
import SinkTrace.Import.Graph
import SinkTrace.Middle
import SinkTrace.Register
import SinkTrace.Report.Value
import SinkTrace.Scope

/-!
Snapshots: the state of the analysis as values of a report.
-/

namespace SinkTrace.Report.Snapshot

open Value

def present (fields : List (String × Bool × Value)) : List (String × Value) :=
  fields.filterMap fun (k, isEmpty, v) => if isEmpty then none else some (k, v)

def nameSets (t : NameTable) : Value := table names t

def nameLists (t : NameTable) : Value := table texts t

/-! ### Definitions and scopes -/

def keyText (k : Option String) : String := k.getD "None"

def namePointer (p : NamePointer) : List (String × Value) :=
  present
    [("names", p.points.isEmpty, points p.points),
     ("args", p.args.isEmpty, .object (p.args.entries.map fun e => (keyText e.1, points e.2))),
     ("pos", p.posNames.isEmpty, .object (p.posNames.entries.map fun e =>
       (e.1.display, .text e.2))),
     ("name_pos", p.namePos.isEmpty,
      .object (p.namePos.entries.map fun e => (keyText e.1, literal e.2)))]

def definition (d : Definition) : Value :=
  .object <| [("type", .text d.kind.tag), ("mod", ofOption .text d.module)] ++ namePointer d.name ++
      present
        [("lits", d.lits.isEmpty, scalars d.lits), ("taints", d.taints.isEmpty, points d.taints),
         ("decorators", (d.decorators.getD []).isEmpty, texts (d.decorators.getD []))]

def definitions (ds : Definitions) : Value := table definition ds.current

def changes (ds : Definitions) : Value :=
  .object <| ds.current.entries.filterMap fun (ns, d) =>
    if d.change = .nothing && d.addedNames.isEmpty && d.addedTaints.isEmpty then none
    else some (ns, .list [.text d.change.word, points d.addedNames, points d.addedTaints])

def closure (t : NameTable) : NameTable := ⟨t.entries.filter fun e => !Names.same e.2 [e.1]⟩

def scope (s : Scope) : Value :=
  .object
    [("parent", ofOption .text s.parent), ("defs", table (fun d => .text d.ns) s.defs),
     ("counters", .list [.int s.lambdas, .int s.dicts, .int s.lists])]

def scopes (ss : Scopes) : Value := table scope ss

def classInfo (c : ClassInfo) : Value := .object [("module", .text c.module), ("mro", texts c.mro)]

def classes (cs : Classes) : Value := table classInfo cs

/-! ### Sinks and middles -/

def links (pool : Pool) (l : Links) : Value :=
  .object [("callee", names (pool.get l.callees)), ("caller", names (pool.get l.callers))]

def fieldMark (pool : Pool) : FieldMark → Value
  | .name s => .text s
  | .modules i => names (pool.get i)

def sinkNode (pool : Pool) (n : SinkNode) : List (String × Value) :=
  [("filename", .text n.filename), ("module", .text n.module),
   ("super_module", nameSets n.superModules),
   ("sink_field", table (fieldMark pool) n.fields), ("potent_num", .int n.followed),
   ("sink_method_user", table (links pool) n.methodUsers),
   ("sink_module_user", table (fun i => names (pool.get i)) n.moduleUsers),
   ("sink_method", names n.methods), ("pre_analyzed", names n.analyzed),
   ("no_return", names n.noReturn)]

def ownCallers : CallerSource → NameTable
  | .own t => t
  | .ofModule _ => {}

def sinkRoot (methods : NameTable) : Value :=
  .object [("sink_method_user", table (fun s => .object [("callee", names s)]) methods)]

def sinks (ss : Sinks) : Value :=
  .object
    [("nodes", table (fun n => .object (sinkNode ss.pool n)) ss.nodes),
     ("roots", table sinkRoot ss.roots)]

def potent (ss : Sinks) : Value :=
  .object
    [("methods", nameSets ss.potentMethods), ("modules", nameSets ss.potentModules),
     ("module_mods", nameSets ss.moduleMods), ("exist_mods", names ss.existMods),
     ("no_super_add", names ss.noSuperAdd), ("extra_mods", texts ss.extraMods),
     ("caller_sinks", names ss.callerSinks)]

def middleNode (pool : Pool) (n : MiddleNode) : List (String × Value) :=
  [("filename", .text n.filename), ("potent_method", table (links pool) n.methods),
   ("potent_num", .int n.followed)]

def middleRoot (pool : Pool) (r : MiddleRoot) : Value :=
  .object [("filename", .text r.filename), ("potent_method", table (links pool) r.methods)]

def middles (ms : Middles) : Value :=
  .object
    [("nodes", table (fun n => .object (middleNode ms.pool n)) ms.nodes),
     ("roots", table (middleRoot ms.pool) ms.roots), ("potent", nameSets ms.potentMethods)]

def hierarchy (g : Inheritance) : Value :=
  .object
    [("graph", nameSets g.parents), ("roots", names g.roots), ("edges", nameSets g.edges),
     ("cls_edges", nameSets g.classEdges)]

/-! ### Modules and imports -/

def classShape (c : ClassShape) : Value :=
  .object
    [("sup_classes", table .text c.supers), ("fields", nameSets c.fields),
     ("methods", names c.methods)]

def method (name : String) (s : Span) : Value :=
  .object [("name", .text name), ("first", ofOption ofNat s.first), ("last", ofOption ofNat s.last)]

def module (m : ModuleInfo) : Value :=
  .object
    [("filename", ofOption .text m.filename), ("classes", table classShape m.classes),
     ("methods", .object (m.methods.entries.map fun e => (e.1, method e.1 e.2))),
     ("fields", nameSets m.fields), ("field_to_cls", nameSets m.fieldClasses),
     ("classes_and_methods", texts m.members), ("module_methods", texts m.moduleMethods),
     ("abstract", names m.abstractMethods), ("callers", nameLists m.callers)]

def methodMessages (m : ModuleInfo) : Value :=
  .object <| m.messages.map fun x =>
    (x, .object (["calls", "comments", "params", "returns"].map fun k => (k, .list [])))

def modules (ms : Modules) : Value :=
  .object [("internal", table module ms.inner), ("external", table module ms.outer)]

def importNode (n : ImportNode) : Value :=
  .object
    [("filename", .text n.filename), ("imports", names n.imports),
     ("reverse_imports", names n.reverseImports),
     ("imports_nodes", table (fun i => .text ((Stmt.importing i).text?.getD "")) n.statements),
     ("sink_imports", nameSets n.sinkImports), ("method_imports", table .text n.methodImports),
     ("import_tree", names n.tree)]

def imports (is : Imports) : Value := table importNode is.graph

/-! ### Registers and the call graph -/

def crossing (c : Crossing) : Value :=
  .object
    [("filename", .text c.filename),
     ("line_num", .object (c.lines.entries.map fun e => (toString e.1, names e.2)))]

def crossings (cs : Crossings) : Value := table crossing cs

def context (c : Context) : Value :=
  .object [("context", .text c.context), ("pointer", .text c.pointer)]

def contexts (cs : Contexts) : Value := table context cs

def keyMiss (k : KeyMiss) : Value :=
  .object
    [("filename", .text k.filename), ("lineno", ofNat k.line), ("namespace", .text k.ns),
     ("key", literal k.key)]

def pair (e : String × String) : Value := texts [e.1, e.2]

def statements (g : CallGraph) : Value := table (table .text) g.statements

def calls (g : CallGraph) : Value := table (table names) g.calls

def moduleNames (g : CallGraph) : Value := table (ofOption .text) g.modules

end SinkTrace.Report.Snapshot
