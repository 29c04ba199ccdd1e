import SinkTrace.Proofs.Walk.Declarations
import SinkTrace.Walk.Flow.Visit

/-!
# Promoting methods

A method that comes to lead to a sink gets an entry in the sink node of its module, and the module
is declared anew. What stands that, and what the pass makes of classes, is kept (`Following`). The
noting of taints and of calls of a model only adds.
-/

namespace SinkTrace

open Sinks

namespace Flow

open Act Walk

variable {D : List String → Prop} {E I : Walk Flow → Prop} {p : Place} {v : Node → Follow Unit}
  {fuel : Nat} {method module ns : String}

/-! ### Parts of the state -/

lemma reads_inheritance : Reads inheritance := fun _ => .refl

lemma reads_currentModule : Reads currentModule :=
  reads_getWorld.bind fun _ => reads_moduleName.bind fun _ => .need

lemma developing_classOf {cls : String} : Developing (classOf module cls) :=
  developing_withClass.bind fun _ => reads_getWorld.next fun _ =>
    Leads.need.bind_pure

lemma reads_currentClassNs : Reads currentClassNs := fun _ => .refl

lemma reads_sinkNode : Reads sinkNode :=
  reads_getWorld.bind fun _ => reads_moduleName.bind fun _ => .need

lemma reads_importNode : Reads importNode :=
  reads_getWorld.bind fun _ => reads_moduleName.bind fun _ => .need

lemma developing_closeNames : Developing closeNames :=
  developing_mapDefs Definitions.enriches_closeNames

/-! ### Methods that come to lead to a sink -/

/-- The invariant stands all that the pass does between its visits, also with classes and with other
modules. -/
structure Following (D : List String → Prop) (E I : Walk Flow → Prop) : Prop
    extends Tolerant World.Enriches D E I where
  analyzed : ∀ s a, I s → I { s with frame := { s.frame with analyzed := a } }
  redeclare : ∀ p file module, UpholdsAt E I p (redeclare file module)
  makeKnown : ∀ p full name, UpholdsAt E I p (makeKnown full name)

/-- An invariant is kept where a module is declared anew, if a walk through the module keeps it. -/
lemma upholds_redeclare_of {E I : World → Prop} {file : String} (h : Alike (OfWorld E)
      (fun s => ({} : Place).At s.frame ∧ s.frame.module = module ∧ I s.world) (OfWorld I)
      (Declarations.analyze depthBound) (Declarations.analyze depthBound)) :
    UpholdsAt (OfWorld E) (OfWorld I) p (redeclare file module) := by
  refine Upholds.bind ?_ fun _ => fun s hs => hs
  rintro s ⟨hp, hs⟩
  let start : Walk Declarations := { world := s.world, frame := { file, module, analyzed :=
    { names := s.frame.analyzed.names.insertEnd module } }, own := {} }
  have hend := (h start ⟨Place.at_of_eq rfl rfl rfl, rfl, hs⟩).2
  unfold declareModule
  dsimp only
  rcases hrun : Declarations.analyze depthBound start with ⟨_ | _, t⟩
  · rw [hrun] at hend
    exact hend
  · rw [hrun] at hend
    exact ⟨⟨hp.names, hp.methods, hp.classes⟩, hend⟩

lemma upholds_redeclare {E I : World → Prop}
    (hI : Declarations.Declaring Any (OfWorld E) (OfWorld I))
    (hcount : Recountable I) (p : Place) (file module : String) :
    UpholdsAt (OfWorld E) (OfWorld I) p (redeclare file module) := by
  have hanalyze := Declarations.alike_analyze hI hcount depthBound {}
  exact upholds_redeclare_of ((hanalyze.mono fun s hs => ⟨hs.1, hs.2.2⟩).post fun s hs => hs.2)

lemma upholds_makeKnown (hI : Tolerant World.Enriches D E I)
    (hclass : ∀ (s : Walk Flow) name module, I s → I { s with
      world := s.world.mapClasses fun cs =>
      (cs.create name module).modify name ClassInfo.clearMro })
    (p : Place) (full name : String) : UpholdsAt E I p (makeKnown full name) := by
  refine (hI.leads reads_moduleName.leads).bind fun _ => ?_
  refine (hI.leads reads_getWorld.leads).bind fun w => ?_
  split
  · exact .pure
  · refine .ite .pure ((hI.leads reads_currentNs.leads).bind fun _ => ?_)
    refine (hI.leads (developing_onDefs Definitions.leads_classDef)).bind fun r => ?_
    refine Upholds.bind ?_ fun _ => .pure
    exact fun s hs => ⟨hs.1, hclass s _ _ hs.2⟩

lemma following_develops {w₀ : World} :
    Following Any (fun s => w₀.Develops s.world) (fun s => w₀.Develops s.world) where
  toTolerant := tolerant_develops w₀
  analyzed _ _ hs := hs
  redeclare := upholds_redeclare Declarations.declaring_develops recountable_develops
  makeKnown := by
    refine upholds_makeKnown (tolerant_develops w₀) fun s _ _ hs => ?_
    refine hs.trans { World.Develops.refl s.world with classes := fun c hc => ?_ }
    simp only [World.mapClasses, Table.contains_modify]
    exact Table.contains_setNew (.inr hc)

lemma developing_ensureSinkNode {file : Option String} :
    Developing (ensureSinkNode module file) := by
  refine reads_getWorld.next fun w => .pure_or ?_
  extract_lets rest
  have hrest (u : Unit) : Developing (rest u) := by
    refine reads_moduleName.next fun _ => reads_getWorld.next fun w => ?_
    exact .or_pure (developing_onSinks leads_setCallers)
  refine Leads.bind (developing_onSinks ?_) fun _ => ?_
  · exact leads_createNode.bind fun _ => leads_setFilename
  · split
    · exact developing_addSource.bind hrest
    · exact hrest ()

lemma developing_addMethod : Developing (mapSinks fun ss =>
    ((ss.ensureLinks module ns).1.addPotentMethod ns
      [module]).spreadOutward module ns ns.length ns :
      Follow Unit) := by
  have hentry (ss : Sinks) := extends_addPotentMethod (ss.ensureLinks module ns).1 ns
    (List.cons_ne_nil module [])
  have hlinks (ss : Sinks) := extends_ensureLinks ss module ns
  refine developing_mapSinks (fun ss X x hx => ?_) fun ss X x hx => ?_
  · exact hasMethod_of_spreadOutward ((hentry ss).methods X x ((hlinks ss).methods X x hx)) .refl
  · exact (hlinks ss).analyzed X x ((hentry ss).analyzed X x (analyzed_of_spreadOutward hx .refl))

section Promoting

variable (hI : Following D E I)

include hI

lemma Following.eraseAnalyzed :
    UpholdsAt E I p (mapFrame fun f => { f with analyzed := f.analyzed.erase module }) :=
  fun s hs => ⟨⟨hs.1.names, hs.1.methods, hs.1.classes⟩, hI.analyzed s _ hs.2⟩

lemma Following.promote {depth : Nat} (module part : String) :
    UpholdsAt E I p (Flow.promote depth module part method) := by
  induction depth generalizing module part with
  | zero => exact .pure
  | succ depth ih =>
    refine (hI.leads reads_getWorld.leads).bind fun w => ?_
    split
    · exact .pure
    · refine (hI.leads developing_ensureSinkNode).bind fun _ => ?_
      refine (hI.leads reads_getWorld.leads).bind fun w => .ite .pure ?_
      refine (hI.leads developing_addMethod).bind fun _ => ?_
      refine (hI.leads developing_classOf).bind fun _ => ?_
      refine Upholds.bind (.forM fun e _ => ih _ _) fun _ => ?_
      refine hI.eraseAnalyzed.bind fun _ => (hI.leads .need).bind fun _ => ?_
      exact (hI.redeclare p _ _).bind fun _ => hI.leads developing_mapOwn

lemma Following.promoteFieldUsers {owner : Option (String × String)} {place : Option Nat}
    {field : String} : UpholdsAt E I p (Flow.promoteFieldUsers owner place field) := by
  unfold Flow.promoteFieldUsers
  split
  · exact .pure
  · refine (hI.leads reads_getWorld.leads).bind fun w => .ite .pure ?_
    refine (hI.leads developing_classOf).bind fun _ => .forM fun m _ => ?_
    exact hI.promote _ _

lemma Following.promoteByValues {users : Names} (values seen : Names) :
    UpholdsAt E I p (Flow.promoteByValues users fuel values seen) := by
  induction fuel generalizing values seen with
  | zero => exact .pure
  | succ fuel ih =>
    refine .foldlM (fun _ v _ => .ite .pure (.ite ?_ ?_))
    · exact (hI.leads reads_closureOf.leads).bind fun _ => ih _ _
    · refine (hI.leads reads_moduleAndPart.leads).bind fun p => ?_
      refine (hI.leads reads_getWorld.leads).bind fun w => ?_
      refine (hI.leads reads_leadsToSink.leads).bind fun b => .ite ?_ .pure
      refine (hI.leads reads_moduleName.leads).bind fun _ => ?_
      exact Upholds.bind (.forM fun m _ => hI.promote _ _) fun _ => .pure

lemma Following.promoteByFields {fields : NameTable} :
    UpholdsAt E I p (Flow.promoteByFields fields) := by
  refine .forM fun e _ => .ite ?_ .pure
  refine (hI.leads reads_closureOf.leads).bind fun _ => ?_
  exact (hI.promoteByValues _ _).bind fun _ => .pure

end Promoting

/-! ### Taints -/

lemma developing_addTaints {ms : List Meaning} {target : String} :
    Developing (addTaints ms target) := by
  refine .forM fun m _ => ?_
  split
  · exact developing_addTaint
  · exact .pure

lemma developing_taintFrom {target : DefRef} (e : Expr) : Developing (taintFrom target fuel e) := by
  induction fuel generalizing e with
  | zero => exact .throw
  | succ fuel ih =>
    unfold taintFrom
    split
    · exact Leads.bind (.forM fun k _ => ih k) fun _ => .forM fun e _ => ih _
    · refine .forM fun p _ => ?_
      split
      · exact ih _
      · exact .pure
    · exact ih _
    · exact developing_meaning.bind fun _ => developing_addTaints

lemma reads_sinkName : Reads sinkName := fun _ => .refl

lemma Following.taintArgs (hI : Following D E I) (hv : ∀ n, UpholdsAt E I p (v n)) (c : CallForm)
    (positions : List Int) : UpholdsAt E I p (Flow.taintArgs v fuel c positions) := by
  induction fuel generalizing c positions with
  | zero => exact hI.fault
  | succ fuel ih =>
    refine (hI.leads reads_argsOf.leads).bind fun _ =>
      Upholds.bind (.forM fun a _ => .ite ?_ .pure) fun _ => .forM fun k _ => ?_
    · refine (hv _).bind fun _ => (hI.leads developing_meaning).bind fun ms => ?_
      split
      · exact ih _ _
      · refine hI.leads (developing_meaning.bind fun ms => reads_sinkName.next fun name => ?_)
        exact developing_addTaints
      · exact hI.leads (reads_sinkName.next fun name => developing_addTaints)
    · refine (hv _).bind fun _ => (hI.leads developing_meaning).bind fun _ => ?_
      split
      · exact ih _ _
      · refine .forM fun m _ => hI.leads ?_
        unfold taintBare
        split
        · refine reads_definition.next fun d => .or_pure ?_
          exact reads_sinkName.next fun _ => developing_addTaint
        · exact .pure

/-! ### Models -/

lemma developing_noteModelCall {name : String} : Developing (noteModelCall name) :=
  reads_currentNs.next fun _ => developing_mapOwn

lemma reads_callsModel {name : Option String} : Reads (callsModel name) :=
  reads_currentNs.bind fun _ => reads_getOwn.bind_pure

lemma developing_noteCrossing {line : Nat} {modules imports : Names} :
    Developing (noteCrossing line modules imports method) :=
  reads_currentNs.next fun _ =>
    developing_of_world (fun _ => rfl) fun s => { World.Enriches.refl s.world with }

lemma developing_createCrossing :
    Developing (onWorld (World.onCrossings (Crossings.create ns)) : Follow Unit) :=
  developing_of_world (fun _ => rfl) fun s => { World.Enriches.refl s.world with }

end Flow

end SinkTrace
