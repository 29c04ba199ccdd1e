import SinkTrace.Proofs.Import
import SinkTrace.Proofs.Walk.Binding
import SinkTrace.Walk.Declarations

/-!
# Declaring, rule by rule

Two walks of the pass that declares scopes, functions, classes and variables do the same at a node
if they do the same at its parts. They keep what stands the steps between the visits, and what is
done with classes and with imports (`Declaring`, `Imports`). In this way the pass takes nothing away
from the world.
-/

namespace SinkTrace

open Definitions World Declarations

namespace Declarations

open Act Walk

variable {D : List String → Prop} {E I J : Walk Declarations → Prop} {p : Place} {P : Node → Prop}
  {params : Params Expr} {v w : Node → Declare Unit} {enter : String → Declare Unit} {fn : DefRef}
  {given : Table String (List Meaning)} {loc : Loc} {name target : String}

/-! ### Modules -/

lemma developing_declareBlocks {kind : DefKind} {blocks : List String} :
    Developing (declareBlocks kind blocks) := by
  refine .forM fun _ _ => developing_ensureDef.bind fun r => ?_
  exact developing_bindIn

lemma developing_declareModule : Developing declareModule := by
  refine reads_getFrame.next fun f => developing_setCurrent.bind fun _ => ?_
  refine reads_hasScope.next fun b => ?_
  extract_lets rest
  have hrest (u : Unit) : Developing (rest u) :=
    reads_def?.next fun r => .or_pure .throw
  refine .ite (hrest ()) (reads_fileText.next fun _ => ?_)
  refine (developing_onScopes Scopes.leads_addModule).bind fun _ => ?_
  refine developing_ensureDef.bind fun r => developing_bindIn.bind fun _ => ?_
  refine developing_declareBlocks.bind fun _ => ?_
  exact developing_declareBlocks.bind hrest

lemma developing_ensureModule : Developing ensureModule := by
  intro s
  unfold ensureModule
  simp only [getFrame, getWorld, run_bind, run_get, run_pure]
  cases hmodule : s.world.modules.get? s.frame.module with
  | some info => exact .refl
  | none =>
    exact .single (aside_of_world rfl
      { Enriches.refl s.world with modules := Modules.expands_create hmodule })

lemma developing_addSpan (ns : String) (node : Node) : Developing (addSpan ns node) :=
  reads_moduleName.next fun _ => developing_ensureModule.bind fun _ =>
    developing_mapModules fun ms => ms.expands_adjust fun info _ hx =>
      info.contains_addMethod ns _ (.inr hx)

lemma reads_importNode : Reads importNode :=
  reads_getWorld.bind fun _ => reads_moduleName.bind fun _ => .need

/-! ### Classes -/

lemma developing_standFor {scope : String} {source : DefRef} :
    Developing (standFor scope name source) := by
  refine reads_getWorld.next fun w => Leads.need.bind fun s => ?_
  extract_lets noted ns bound
  have hnoted (u : Unit) : Developing (noted u) := by
    refine reads_getWorld.next fun w => Leads.need.bind fun s => ?_
    exact Leads.need.bind fun r => developing_addName
  have hbound (u : Unit) : Developing (bound u) := by
    refine reads_def?.next fun r => Leads.need.bind fun r => ?_
    exact developing_flows.bind fun _ => developing_bindIn.bind hnoted
  refine .ite (hnoted ()) (reads_def?.next fun r => .ite ?_ (hbound ()))
  refine reads_moduleName.next fun m => Leads.bind ?_ hbound
  exact developing_mapDefs fun ds => ds.enriches_assign

abbrev noteAnalyzed (module block : String) : Declare Unit :=
  mapSinkNode module fun n => { n with analyzed := n.analyzed.insertEnd block }

variable (D E I)

/-- The invariant stands all that the pass does between its visits with what is imported. -/
structure Importing : Prop
    extends Tolerant World.Enriches D E I where
  takeOver : ∀ p scope name source,
    AlikeAt E I p (takeOver scope name source) (takeOver scope name source)

/-- It also stands what the pass does with the blocks that it declares. -/
structure Declaring : Prop
    extends Importing D E I where
  declareClass : ∀ p module c, AlikeAt E I p (declareClass module c) (declareClass module c)
  note : ∀ p module block, AlikeAt E I p (noteAnalyzed module block) (noteAnalyzed module block)

variable {D E I}

lemma importing_of_classes (hI : Tolerant Enriches D E I) (hclass : ∀ p name module, AlikeAt E I p
      (mapWorld (mapClasses (·.create name module)) : Declare Unit)
      (mapWorld (mapClasses (·.create name module)))) :
    Importing D E I where
  toTolerant := hI
  takeOver p scope name source := by
    refine (hI.reads reads_definition).bind fun d => ?_
    exact .when (hclass p _ _) (hI.aside developing_standFor)

lemma declaring_of_classes (hI : Tolerant Enriches D E I) (hclass : ∀ p name module, AlikeAt E I p
      (mapWorld (mapClasses (·.create name module)) : Declare Unit)
      (mapWorld (mapClasses (·.create name module))))
    (hnote : ∀ p module block, AlikeAt E I p (noteAnalyzed module block)
      (noteAnalyzed module block)) :
    Declaring D E I where
  toImporting := importing_of_classes hI hclass
  declareClass p module c := by
    refine (hI.reads reads_currentNs).bind fun _ => ?_
    refine (hI.aside (developing_onDefs leads_classDef)).bind fun r => ?_
    exact (hI.aside (developing_addSpan _ _)).bind fun _ => hclass p _ _
  note := hnote

/-! ### Imports -/

lemma developing_takeOverOutside : Developing (takeOverOutside name target) := by
  unfold takeOverOutside
  extract_lets head isPath name target
  refine reads_def?.next fun r => Leads.need.bind fun r => .or_pure ?_
  refine reads_currentNs.next fun _ => reads_hasScope.next fun b => ?_
  extract_lets rest
  have hrest (u : Unit) : Developing (rest u) := by
    refine reads_def?.next fun t => Leads.need.bind fun t => ?_
    exact developing_addName.bind fun _ => developing_bindIn
  exact .ite (hrest ()) (Leads.throw.bind hrest)

/-- What the current module imports at a place may be taken in. -/
def Imports (E I : Walk Declarations → Prop) (p : Place) (enter : String → Declare Unit) : Prop :=
  ∀ s node, p.At s.frame → I s → s.world.imports.node? s.frame.module = some node →
    ∀ i ∈ node.statements.values, AlikeAt E I p (importing enter i) (importing enter i)

section Entering

variable (hI : Importing D E I)

include hI

lemma Importing.takeOverFrom {module : String} : AlikeAt E I p (takeOverFrom module name target)
      (takeOverFrom module name target) := by
  refine (hI.reads reads_currentNs).bind fun _ => (hI.reads reads_getWorld).bind fun w => ?_
  refine hI.need.bind fun _ => .ite ?_ ?_
  · exact .forM fun e _ => hI.takeOver p _ _ _
  · split
    · refine (hI.reads reads_hasScope).bind fun b => ?_
      exact .ite (hI.takeOver p _ _ _) (.pure _)
    · exact .pure _

lemma Importing.importName
    (henter : ∀ m, m ≠ "" → Alike E (fun s => Here p I s ∧ m ∉ s.frame.analyzed.names) (Here p I)
      (enter m) (enter m)) {source : Option String} {level : Nat} {a : Alias} :
    AlikeAt E I p (importName enter source level a) (importName enter source level a) := by
  refine (hI.reads (reads_onImports Imports.reads_importFromGraph)).bind fun found => ?_
  split
  · exact hI.aside developing_takeOverOutside
  · exact hI.aside developing_takeOverOutside
  · next m hm =>
    refine (hI.reads reads_getWorld).bind fun _ => .ite ?_ ?_
    · exact hI.aside developing_takeOverOutside
    · refine .look (fun _ => rfl) fun b => ?_
      cases b with
      | true => exact hI.takeOverFrom.mono fun _ hs => hs.1
      | false =>
        refine ((henter m hm).mono fun s hs => ⟨hs.1, ?_⟩).bind fun _ => hI.takeOverFrom
        simpa using hs.2

lemma Importing.imports_of
    (henter : ∀ m, m ≠ "" → Alike E (fun s => Here p I s ∧ m ∉ s.frame.analyzed.names) (Here p I)
      (enter m) (enter m)) : Imports E I p enter := by
  intro s node _ _ _ i _
  cases i with
  | plain loc names => exact .forM fun a _ => hI.importName henter
  | fromModule loc module names level => exact .forM fun a _ => hI.importName henter

lemma Importing.imports (henter : ∀ m, AlikeAt E I p (enter m) (enter m)) : Imports E I p enter :=
  hI.imports_of fun m _ => (henter m).mono fun _ hs => hs.1

end Entering

namespace Imports

variable (hI : Tolerant World.Enriches D E I) {take : Import → Declare Unit}

include hI

lemma node_bind (himports : Imports E I p enter) {α : Type} {f g : ImportNode → Declare α}
    (h : ∀ node, (∀ i ∈ node.statements.values,
      AlikeAt E I p (importing enter i) (importing enter i)) → AlikeAt E I p (f node) (g node)) :
    AlikeAt E I p (importNode >>= f) (importNode >>= g) := by
  refine (hI.reads reads_importNode).bind_of (fun s node t hs hrun => ?_) h
  refine himports s node hs.1 hs.2 ?_
  have hnode : importNode s = need .kind (s.world.imports.node? s.frame.module) s := rfl
  rw [hnode] at hrun
  cases hfound : s.world.imports.node? s.frame.module with
  | none =>
    rw [hfound] at hrun
    cases hrun
  | some n =>
    rw [hfound] at hrun
    cases hrun
    rfl

lemma importingFrom {i : Import} (hi : AlikeAt E I p (importing enter i) (importing enter i)) :
    AlikeAt E I p (importingFrom enter i) (importingFrom enter i) := by
  cases i with
  | plain loc names => exact hI.throws
  | fromModule loc module names level => exact hi

lemma forSinks (himports : Imports E I p enter)
    (htake : ∀ i, AlikeAt E I p (importing enter i) (importing enter i) →
      AlikeAt E I p (take i) (take i)) :
    AlikeAt E I p (importForSinks take name) (importForSinks take name) := by
  refine himports.node_bind hI fun node hnode => .forM fun n _ => ?_
  cases hn : node.statements.get? n with
  | some i => exact htake i (hnode i (Table.mem_values_of_get? hn))
  | none => exact .pure _

lemma all (himports : Imports E I p enter)
    (htake : ∀ i, AlikeAt E I p (importing enter i) (importing enter i) →
      AlikeAt E I p (take i) (take i)) : AlikeAt E I p (importAll take) (importAll take) :=
  himports.node_bind hI fun _ hnode => .forM fun i hi => htake i (hnode i hi)

lemma initial (himports : Imports E I p enter) :
    AlikeAt E I p (importInitial enter) (importInitial enter) :=
  (hI.reads reads_getFrame).bind fun _ => (hI.reads reads_getOwn).bind fun _ =>
    .ite (himports.all hI fun _ hi => hi) (.pure _)

end Imports

/-! ### Functions -/

lemma developing_firstParam {cls : DefRef} {p : Param Expr} :
    Developing (firstParam loc fn cls p) := by
  refine reads_def?.next fun r => ?_
  extract_lets give
  have hgive (r : Option DefRef) : Developing (give r) := by
    simp only [give]
    split
    · exact .pure
    · refine developing_addName.bind fun _ => (developing_bind _).bind fun _ => ?_
      exact developing_mapFrame fun _ => ⟨_, _, _, rfl⟩
  split
  · exact Leads.pure.bind hgive
  · refine .ite (developing_createDef.map.bind hgive) (.ite ?_ (Leads.pure.bind hgive))
    exact developing_createDef.map.bind hgive

lemma reads_hintedNames {p : Param Expr} : Reads (hintedNames p) := by
  refine reads_getWorld.bind fun w => reads_moduleName.bind fun _ => ?_
  split
  · refine reads_importNode.bind fun _ => ?_
    split
    · exact .pure
    · exact .pure
    · exact .pure_or .pure
  · exact .pure

lemma developing_giveDefault {r : DefRef} {m : Meaning} : Developing (giveDefault r m) := by
  unfold giveDefault
  split
  · refine developing_addName.bind fun _ => reads_definition.next fun d => ?_
    exact .pure_or (developing_mapDefs fun ds => ds.enriches_merge r)
  · exact developing_addLiteral

lemma developing_declareParam {hinted : Names} :
    Developing (declareParam fn given hinted name) := by
  refine developing_ensureDef.bind fun r => (developing_bind _).bind fun _ => ?_
  refine Leads.bind (.forM fun n _ => developing_addName) fun _ => ?_
  exact .forM fun m _ => developing_giveDefault

lemma reads_innerName : Reads (innerName name) := reads_getFrame.bind_pure

lemma developing_declareParams {around : Option DefRef} {decorators : List Expr} :
    Developing (declareParams loc fn around given params decorators) := by
  refine Leads.need.bind fun _ => reads_leftOf.next fun plain => ?_
  extract_lets named rest
  have hrest (u : Unit) : Developing (rest u) := by
    refine reads_leftOf.next fun _ => ?_
    refine Leads.bind (.mapM fun x _ => ?_) fun _ => ?_
    · refine Leads.bind (developing_onName ?_) fun _ => ?_
      · exact refitting_addPosArg
      · exact reads_hintedNames.leads.bind_pure
    refine Leads.bind (.forM fun param _ => developing_onName ?_) fun _ => ?_
    · exact refitting_addArg
    · refine Leads.bind (.forM fun _ _ => ?_) fun _ => .pure
      exact developing_declareParam
  split
  · refine reads_kindOf.next fun k => .ite ?_ (hrest ())
    exact developing_firstParam.bind hrest
  · exact hrest ()

section Functions

variable (hI : Tolerant World.Enriches D E I)

include hI

lemma alike_defaults (h : AlikeOn E I p v w .expr params.values)
    {plain : List (Param Expr)} : AlikeAt E I p (defaults v plain params)
    (defaults w plain params) := by
  refine Alike.bind (.mapM fun d hd => ?_) fun _ =>
    Alike.bind (.mapM fun d hd => ?_) fun _ => .pure _
  · refine (h _ (List.mem_append_left _ (List.fst_mem_of_mem_zipIdx hd))).bind fun _ => ?_
    refine (hI.aside developing_meaning).bind fun _ => ?_
    exact hI.need.bind fun _ => .pure _
  · obtain ⟨param, d⟩ := d
    cases d with
    | none => exact .pure _
    | some d =>
      have hmem : d ∈ params.kwDefaults.filterMap id :=
        List.mem_filterMap.mpr ⟨some d, (List.of_mem_zip hd).2, rfl⟩
      refine (h d (List.mem_append_right _ hmem)).bind fun _ => ?_
      exact (hI.aside developing_meaning).bind fun _ => .pure _

lemma alike_declareFunction (loc : Loc) (node : Node) (name : String)
    (h : AlikeOn E I p v w .expr params.values)
    (decorators : List Expr) :
    AlikeAt E I p (declareFunction v loc node name params decorators)
      (declareFunction w loc node name params decorators) := by
  refine (hI.reads reads_currentNs).bind fun _ => (hI.reads reads_moduleName).bind fun _ => ?_
  refine (hI.reads reads_def?).bind fun _ => (hI.reads reads_leftOf).bind fun _ => ?_
  refine (alike_defaults hI h).bind fun _ => hI.aside ?_
  refine (developing_onDefs leads_function).bind fun _ => ?_
  exact (developing_addSpan _ _).bind fun _ => developing_declareParams

lemma alike_lambda (hnext : Alike E J (Here p I) nextLambda nextLambda) {body : Expr}
    (hparams : AlikeOn E I p v w .expr params.values)
    (hbody : ∀ name, AlikeAt E I (p.inFunction name) (v (.expr body)) (w (.expr body))) :
    Alike E J (Here p I) (lambda v loc params body) (lambda w loc params body) := by
  refine hnext.bind fun name => (hI.reads reads_currentNs).bind fun _ => ?_
  refine (hI.aside developing_createScope).bind fun _ => ?_
  refine (alike_declareFunction hI _ _ _ hparams _).bind fun r => ?_
  exact (hI.aside developing_bindIn).bind fun _ => hI.lambdaBody (hbody name)

end Functions

section Blocks

variable (hI : Declaring D E I)

include hI

lemma alike_functionDef {f : Function Stmt} (hD : D (p.names ++ [f.name]))
    (himports : Imports E I p enter)
    (hparams : AlikeOn E I p v w .expr f.params.values)
    (hbody : AlikeOn E I (p.inFunction f.name) v w .stmt f.body) :
    AlikeAt E I p (functionDef v enter f) (functionDef w enter f) := by
  refine (hI.reads reads_moduleName).bind fun module =>
    (hI.reads reads_getWorld).bind fun world => ?_
  cases world.sinks.node? module with
  | none => exact .pure _
  | some node =>
    refine (hI.reads reads_innerName).bind fun _ => (hI.reads reads_getFrame).bind fun _ => ?_
    have hdeclare := (alike_declareFunction hI.toTolerant f.loc
      (.stmt (.functionDef f)) f.name hparams
      f.decorators).bind fun _ => .pure ()
    refine .ite ((hI.note p _ _).bind fun _ => ?_) hdeclare
    refine (himports.forSinks hI.toTolerant (fun _ hi => hi)).bind fun _ => ?_
    exact hdeclare.bind fun _ => hI.functionBody hD hbody

lemma alike_classDef {c : ClassDecl Stmt} (hD : D (p.names ++ [c.name]))
    (himports : Imports E I p enter)
    (h : AlikeOn E I (p.inClass c.name) v w .stmt c.body) :
    AlikeAt E I p (classDef v enter c) (classDef w enter c) := by
  have hbody := hI.classBody hD h
  refine (hI.reads reads_moduleName).bind fun module => ?_
  refine (hI.reads reads_innerName).bind fun _ => (hI.reads reads_getWorld).bind fun world => ?_
  cases world.sinks.node? module with
  | none => exact .pure _
  | some node =>
    refine .ite (.ite hbody ?_) (.pure _)
    refine (himports.forSinks hI.toTolerant (fun _ => Imports.importingFrom hI.toTolerant)).bind
      fun _ => (hI.declareClass p _ c).bind fun _ => ?_
    exact (hI.note p _ _).bind fun _ => hbody

end Blocks

/-! ### Statements -/

lemma alike_assignRule (h : ∀ n, P n → AlikeAt E I p (v n) (w n)) :
    AssignRule.Alike E I P p { visit := v } { visit := w } :=
  ⟨h, fun _ => .pure _, fun _ _ => .pure _⟩

section Statements

variable (hI : Tolerant World.Enriches D E I)

include hI

lemma alike_forLoop {target : Expr} {body : List Stmt}
    (h : Alike E (Here p I) J (body.forM fun s => v (.stmt s)) (body.forM fun s => w (.stmt s))) :
    Alike E (Here p I) J (forLoop v target body) (forLoop w target body) := by
  refine Alike.bind (.forM fun _ _ => hI.aside ?_) fun _ => h
  refine reads_currentNs.next fun _ => reads_def?.next fun r => ?_
  refine .or_pure (developing_createDef.bind fun r => ?_)
  exact developing_bindIn

lemma alike_assignment (himports : Imports E I p enter) (hP : Hereditary P)
    (h : ∀ n, P n → AlikeAt E I p (v n) (w n)) {targets : List Expr} {value : Expr}
    (hvalue : P (.expr value)) (htargets : ∀ t ∈ targets, P (.expr t)) :
    AlikeAt E I p (assignment v enter targets value) (assignment w enter targets value) := by
  have hassign := hI.assign (alike_assignRule h) hP hvalue htargets
  refine .ite (hI.mapOwn.bind fun _ => ?_) hassign
  exact (himports.all hI fun _ => Imports.importingFrom hI).bind fun _ => hassign

lemma alike_hinted (himports : Imports E I p enter) (hP : Hereditary P)
    (h : ∀ n, P n → AlikeAt E I p (v n) (w n)) {target hint : Expr} {value : Option Expr}
    (htarget : P (.expr target)) (hvalue : ∀ e, value = some e → P (.expr e)) :
    AlikeAt E I p (hinted v enter target hint value) (hinted w enter target hint value) := by
  unfold hinted
  cases given? target.id? with
  | none => exact .pure _
  | some name =>
    refine .ite (.pure _) ?_
    extract_lets rest rest'
    have hrest (u : Unit) : AlikeAt E I p (rest u) (rest' u) := by
      refine (hI.reads reads_currentNs).bind fun _ => ?_
      refine (hI.aside developing_assignTo).bind fun r => ?_
      refine (hI.aside developing_bindNs).bind fun _ => ?_
      split
      · exact hI.assign (alike_assignRule h) hP (hvalue _ rfl) (by simpa using htarget)
      · exact .pure _
    cases hint.id? with
    | none => exact hrest ()
    | some t =>
      refine (hI.reads reads_getWorld).bind fun _ => .ite ?_ (hrest ())
      refine himports.node_bind hI fun node hnode => ?_
      split
      · exact hrest ()
      · exact hrest ()
      · cases hstated : node.statements.get? _ with
        | none => exact hI.throws
        | some i => exact (hnode i (Table.mem_values_of_get? hstated)).bind hrest

end Statements

/-! ### Calls -/

lemma developing_superDef : Developing superDef := by
  refine reads_currentNs.next fun _ => reads_moduleName.next fun _ => ?_
  refine developing_ensureDef.bind fun r => reads_getWorld.next fun w => ?_
  refine Leads.need.bind fun _ => reads_getFrame.next fun f => ?_
  refine developing_withClass.bind fun _ => Leads.bind (.forM fun e _ => ?_) fun _ => ?_
  · exact reads_def?.next fun d => .or_pure developing_addName
  · exact developing_bindNs.bind_pure

lemma developing_callee? {id : String} : Developing (callee? id) := by
  refine reads_scopeDef?.next fun found => ?_
  refine .ite_bind developing_superDef.map .pure fun found => ?_
  extract_lets rest
  have hrest (found : Option DefRef) : Developing (rest found) := by
    simp only [rest]
    split
    · exact .pure
    · refine reads_kindOf.next fun k => .or_pure ?_
      exact reads_currentMethod.next fun _ => reads_def?.leads
  cases found with
  | none => exact Leads.pure.bind hrest
  | some r =>
    refine reads_kindOf.next fun k => ?_
    exact .ite_bind reads_def?.leads .pure hrest

section Calls

variable (hI : Tolerant World.Enriches D E I)

include hI

lemma alike_call {e : Expr} {func : Expr} {args : List Expr} {keywords : List (Keyword Expr)}
    (hfunc : AlikeAt E I p (v (.expr func)) (w (.expr func)))
    (hargs : AlikeOn E I p v w .expr args)
    (hkeywords : ∀ k ∈ keywords, AlikeAt E I p (v (.expr k.value)) (w (.expr k.value))) :
    AlikeAt E I p (call v e func args keywords) (call w e func args keywords) := by
  refine (hI.reads reads_getOwn).bind fun o => .when hI.mapOwn (hfunc.bind fun _ => ?_)
  cases func.id? with
  | none => exact .pure _
  | some id =>
    refine (hI.aside developing_callee?).bind fun r => ?_
    cases r with
    | none => exact .pure _
    | some r => exact hI.passArgs hargs hkeywords

lemma alike_handler {h : Handler Stmt}
    (hparts : Alike E (Here p I) J ((Node.handler h).children.forM v)
      ((Node.handler h).children.forM w)) :
    Alike E (Here p I) J (handler v h) (handler w h) := by
  refine hI.mapOwn.bind fun _ => (hI.reads reads_getOwn).bind fun o => ?_
  refine Alike.bind (.forM fun c _ => hI.aside ?_) fun _ => hparts
  refine developing_meaning.bind fun _ => .forM fun m _ => ?_
  refine Leads.need.bind fun r => reads_def?.next fun _ => ?_
  split
  · refine reads_currentNs.next fun _ => developing_assignTo.bind fun d => ?_
    exact developing_bindNs
  · exact .pure

lemma alike_tryBlock (hJ : Tolerant Enriches D E J) {parts : List Node}
    (hparts : Alike E (Here p I) (Here p J) (parts.forM v) (parts.forM w)) :
    Alike E (Here p I) (Here p J) (tryBlock v parts) (tryBlock w parts) :=
  hI.mapOwn.bind fun _ => hparts.bind fun _ => hJ.mapOwn

end Calls

/-! ### The walk -/

lemma alike_rule (hI : Tolerant Enriches D E I) (hD : ∀ name, D (p.names ++ [name]))
    (hlambda : ∀ loc params body, P (.expr (.lambda loc params body)) → D p.names)
    (hmodule : ∀ body, P (.program body) → Renumbers I) (himports : ∀ q, Imports E I q enter)
    (hP : Hereditary P) (h : Visits E I P p v w)
    (hfunction : ∀ f, P (.stmt (.functionDef f)) →
      AlikeAt E I p (functionDef v enter f) (functionDef w enter f))
    (hclass : ∀ c, P (.stmt (.classDef c)) →
      AlikeAt E I p (classDef v enter c) (classDef w enter c))
    {n : Node} (hn : P n) :
    AlikeAt E I p (rule v enter n) (rule w enter n) := by
  have hpart {c : Node} (hc : c ∈ n.children) : P c := hP n hn c hc
  unfold rule
  split
  · refine (hI.aside developing_declareModule).bind fun _ => Alike.bind ?_ fun _ =>
      (himports p).initial hI
    refine hI.inModule (hmodule _ hn) fun m => Alike.bind (.forM fun s _ => ?_) fun _ => ?_
    · exact h.inside _ p.holds_inFunction _ isPart_stmt
    · exact (himports _).initial hI
  · exact hfunction _ hn
  · exact hclass _ hn
  · refine alike_forLoop hI (.forM fun s hs => h.here _ (hpart ?_))
    simp [Node.children, Node.ofStmt, Node.stmts, hs]
  · refine alike_assignment hI (himports p) hP h.here (hpart ?_) fun t ht => hpart ?_
    · simp [Node.children, Node.ofStmt]
    · simp [Node.children, Node.ofStmt, Node.exprs, ht]
  · refine alike_hinted hI (himports p) hP h.here (hpart ?_) fun e he => hpart ?_
    · simp [Node.children, Node.ofStmt]
    · simp [Node.children, Node.ofStmt, Node.opt, he]
  · exact hI.returns (.forM fun m hm => h.here m (hpart hm))
  · exact hI.returns (.forM fun m hm => h.here m (hpart hm))
  · exact hI.returns (.forM fun m hm => h.here m (hpart hm))
  · exact hI.raises (.forM fun m hm => h.here m (hpart (List.mem_append_left _ hm)))
  · exact alike_tryBlock hI hI (.forM fun c hc => h.here c (hpart hc))
  · exact alike_handler hI (.forM fun c hc => h.here c (hpart hc))
  · refine alike_call hI (h.here _ (hpart ?_)) (fun a ha => ?_) fun k hk => ?_
    · simp [Node.children, Node.ofExpr]
    · exact h.here _ (hP.call_arg hn ha)
    · exact h.here _ (hP.call_keyword hn hk)
  · next loc params body =>
    have hparams : P (.params params) := hpart (by simp [Node.children, Node.ofExpr])
    refine alike_lambda hI (hI.nextLambda (hlambda _ _ _ hn)) (fun d hd => ?_) fun _ => ?_
    · exact h.here _ (hP.param_default hparams hd)
    · exact h.inside _ p.holds_inFunction _ (isPart_expr body)
  · exact hI.visitCommon hD hmodule hP h hn

lemma Declaring.rule (hI : Declaring D E I) (hD : ∀ name, D (p.names ++ [name]))
    (hlambda : ∀ loc params body, P (.expr (.lambda loc params body)) → D p.names)
    (hmodule : ∀ body, P (.program body) → Renumbers I) (himports : ∀ q, Imports E I q enter)
    (hP : Hereditary P) (h : Visits E I P p v w) {n : Node} (hn : P n) :
    AlikeAt E I p (rule v enter n) (rule w enter n) := by
  refine alike_rule hI.toTolerant hD hlambda hmodule himports hP h (fun f hf => ?_)
    (fun c _ => ?_) hn
  · have hparams : P (.params f.params) := hP _ hf _ (by simp [Node.children, Node.ofStmt])
    refine alike_functionDef hI (hD _) (himports p) (fun d hd => ?_) fun s _ => ?_
    · exact h.here _ (hP.param_default hparams hd)
    · exact h.inside _ p.holds_inFunction _ isPart_stmt
  · refine alike_classDef hI (hD _) (himports p) fun s _ => ?_
    exact h.inside _ p.holds_inClass _ isPart_stmt

lemma Declaring.visit (hI : Declaring Any E I) (hmodule : Renumbers I)
    (himports : ∀ q, Imports E I q enter) {fuel : Nat} (p : Place) (n : Node) :
    AlikeAt E I p (visit enter fuel n) (visit enter fuel n) := by
  induction fuel generalizing p n with
  | zero => exact hI.throws
  | succ fuel ih =>
    exact hI.rule (fun _ => trivial) (fun _ _ _ _ => trivial)
      (fun _ _ => hmodule) himports hereditary_true ⟨fun n _ => ih p n, fun q _ n _ =>
        ih q n⟩ trivial

section World

variable {E I : World → Prop}

lemma alike_enter (hI : Declaring Any (OfWorld E) (OfWorld I))
    {run : Declare Unit} (hrun : AlikeAt (OfWorld E) (OfWorld I) {} run run)
    (p : Place) (module : String) :
    AlikeAt (OfWorld E) (OfWorld I) p
      (Declarations.enter run module) (Declarations.enter run module) := by
  refine (hI.reads reads_getWorld).bind fun _ => (hI.reads reads_getFrame).bind fun f => ?_
  refine .ite ((hI.aside developing_setCurrent).bind fun _ => ?_) (.pure _)
  refine Alike.bind ?_ fun _ => hI.aside developing_setCurrent
  exact alike_elsewhere (.ite hrun (hI.aside developing_declareModule))

lemma alike_analyze (hI : Declaring Any (OfWorld E) (OfWorld I))
    (hcount : Recountable I) (depth : Nat) (p : Place) :
    AlikeAt (OfWorld E) (OfWorld I) p (analyze depth) (analyze depth) := by
  induction depth generalizing p with
  | zero => exact hI.throws
  | succ depth ih =>
    have himports (q : Place) := hI.imports (alike_enter hI (ih {}) q)
    refine (hI.reads reads_program).bind fun _ => ?_
    exact hI.visit (renumbers_of_world hcount) himports p _

end World

lemma declaring_develops {w₀ : World} :
    Declaring Any (fun s => w₀.Develops s.world) (fun s => w₀.Develops s.world) := by
  refine declaring_of_classes (tolerant_develops w₀) (fun p _ module => ?_) fun p _ _ => ?_
  · rintro s ⟨hp, hs⟩
    refine ⟨rfl, hp, hs.trans { Develops.refl s.world with classes := fun c hc => ?_ }⟩
    exact Table.contains_setNew (.inr hc)
  · rintro s ⟨hp, hs⟩
    refine ⟨rfl, hp, hs.trans (s.world.develops_sinks fun X x hx => ?_)⟩
    exact Sinks.hasMethod_of_adjustNode (fun _ => rfl) hx

end Declarations

end SinkTrace
