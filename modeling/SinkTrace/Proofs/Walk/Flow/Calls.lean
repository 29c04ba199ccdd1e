import SinkTrace.Proofs.Walk.Flow.Promotion

/-!
# Following calls

Deciding what a call is about may bring new methods on the way to a sink. Passing its arguments adds
to the pointers of parameters and fields. The walk through the parts of a call is a parameter here.
-/

namespace SinkTrace.Flow

open Act Walk

variable {D : List String → Prop} {E I : Walk Flow → Prop} {p : Place} {v : Node → Follow Unit}
  {again : CallForm → Follow Unit} {arg : Expr} {c : CallForm} {cls : DefRef} {ends : Names}
  {fuel : Nat} {method name : String} {vs : List String} {α : Type} {as : List α}

/-! ### What a call is about -/

section Deciding

variable (hI : Following D E I)

include hI

lemma Following.keepingArgs {args : List Expr} {body : Follow α} (h : UpholdsAt E I p body) :
    UpholdsAt E I p (Flow.keepingArgs args body) :=
  (hI.leads reads_getFrame.leads).bind fun _ => h.bind fun _ =>
    hI.leads ((developing_mapFrame fun _ => ⟨_, _, _, rfl⟩).bind_pure)

lemma Following.calledName? {decide : CallForm → Follow Called}
    (h : ∀ c, UpholdsAt E I p (decide c)) :
    UpholdsAt E I p (Flow.calledName? decide c) := by
  unfold Flow.calledName?
  split
  · exact .pure
  · refine (hI.leads reads_getWorld.leads).bind fun w => .ite .pure ?_
    refine (hI.leads reads_leftOf.leads).bind fun _ => ?_
    refine (hI.leads reads_argsOf.leads).bind fun _ => ?_
    refine (hI.keepingArgs (h _)).bind fun _ => hI.leads ?_
    refine (developing_of_coins leads_callNames).bind fun _ => ?_
    split
    · exact .pure
    · exact .pure
  · exact .pure

end Deciding

lemma developing_openClosure : Developing (openClosure name) := by
  refine reads_closureOf.next fun _ => ?_
  refine (Leads.mapM fun d _ => reads_closureOf.leads).bind fun _ => ?_
  exact .when (developing_mapDefs fun _ => ⟨Definitions.Develops.refl, fun h => h⟩) .pure

lemma developing_outwardClosure (method : String) :
    Developing (outwardClosure name fuel method) := by
  induction fuel generalizing method with
  | zero => exact .pure
  | succ fuel ih =>
    refine .pure_or (developing_openClosure.bind fun _ => ?_)
    refine .pure_or ?_
    split
    · exact .pure
    · exact ih _

lemma reads_settle {onCaller : Bool} (s : Sought) : Reads (settle onCaller vs s) := by
  induction vs generalizing s with
  | nil => exact .pure
  | cons v vs ih =>
    refine reads_getWorld.bind fun w => .pure_or ?_
    exact reads_moduleAndPart.bind fun p => .pure_or (ih _)

lemma Following.promoteTainted (hI : Following D E I) :
    UpholdsAt E I p (Flow.promoteTainted method vs) := by
  induction vs with
  | nil => exact .pure
  | cons v vs ih =>
    refine (hI.leads reads_getWorld.leads).bind fun w => .ite ?_ ih
    refine (hI.leads reads_moduleAndPart.leads).bind fun p => .ite .pure ?_
    exact (hI.promote _ _).bind fun _ => ih

lemma reads_placeInSink {ns : String} (i : Nat) : Reads (placeInSink ns fuel i) := by
  induction fuel generalizing i with
  | zero => exact .pure
  | succ fuel ih =>
    refine reads_def?.bind fun r => .pure_or ?_
    exact reads_sinkIn?.bind fun s => .pure_or (ih _)

lemma leads_anyOf {R : Walk Flow → Walk Flow → Prop} {p : α → Follow Bool}
    (h : ∀ a, Leads R (p a)) :
    Leads R (anyOf p as) := by
  induction as with
  | nil => exact .pure
  | cons a as ih => exact (h a).bind fun b => .pure_or ih

lemma upholds_anyOf {q : α → Follow Bool} (h : ∀ a ∈ as, UpholdsAt E I p (q a)) :
    UpholdsAt E I p (anyOf q as) := by
  induction as with
  | nil => exact .pure
  | cons a as ih =>
    obtain ⟨ha, has⟩ := List.forall_mem_cons.mp h
    exact ha.bind fun b => .ite .pure (ih has)

lemma reads_meaningInSink {m : Meaning} : Reads (meaningInSink arg m) := by
  unfold meaningInSink
  split
  · refine leads_anyOf (fun m => ?_)
    split
    · exact reads_sinkIn?.bind_pure
    · exact .pure
  · exact reads_closureOf.bind fun _ => leads_anyOf (fun n => reads_placeInSink _)
  · exact reads_sinkIn?.bind_pure
  · exact .pure

lemma reads_importedFrom {function : String} {node : ImportNode} :
    Reads (importedFrom method function node) := by
  unfold importedFrom
  split
  · exact .pure
  · split
    · exact .pure
    · exact reads_getWorld.bind_pure

section Promoting

variable (hI : Following D E I)

include hI

lemma Following.followImport : UpholdsAt E I p (Flow.followImport method) := by
  refine (hI.leads reads_getFrame.leads).bind fun f => ?_
  refine (hI.leads reads_importNode.leads).bind fun node => ?_
  refine (hI.leads reads_currentMethod.leads).bind fun _ => ?_
  refine (hI.leads reads_importedFrom.leads).bind fun _ => ?_
  split
  · exact .pure
  · exact .pure
  · exact .pure
  · refine (hI.leads reads_getWorld.leads).bind fun w => ?_
    extract_lets rest
    have hrest (u : Unit) : UpholdsAt E I p (rest u) := by
      refine (hI.leads reads_sinkNode.leads).bind fun _ => ?_
      refine Upholds.bind (hI.leads ?_) fun _ => (hI.redeclare p _ _).bind fun _ => .pure
      exact developing_mapSinkNode (fun _ => rfl) fun _ _ hb => List.mem_of_mem_erase hb
    refine .ite (hrest ()) ((hI.leads reads_getWorld.leads).bind fun w => ?_)
    refine (hI.leads .need).bind fun _ => Upholds.bind (hI.leads ?_) fun _ => ?_
    · refine developing_onSinks ?_
      exact Sinks.leads_createNode.bind fun _ => Sinks.leads_setFilename
    · exact (hI.leads developing_addSource).bind hrest

lemma Following.promoteEnds : UpholdsAt E I p (Flow.promoteEnds method ends) := by
  refine (hI.leads reads_currentClassNs.leads).bind fun _ => .foldlM (fun _ v _ => ?_)
  refine (hI.leads reads_moduleAndPart.leads).bind fun p => ?_
  refine (hI.leads reads_inheritance.leads).bind fun g => ?_
  refine (hI.leads reads_getWorld.leads).bind fun w => .ite .pure ?_
  exact (hI.promote _ _).bind fun _ => .pure

lemma Following.argPromotes {ms : List Meaning} :
    UpholdsAt E I p (Flow.argPromotes arg method ends ms) := by
  induction ms with
  | nil => exact .pure
  | cons m ms ih =>
    unfold Flow.argPromotes
    extract_lets rest
    have hrest (leads : Bool) : UpholdsAt E I p (rest leads) := by
      refine .ite ih (.ite hI.followImport ?_)
      exact hI.promoteEnds.bind fun b => .ite .pure ih
    split
    · exact Upholds.pure.bind hrest
    · exact (hI.leads reads_meaningInSink.leads).bind hrest

end Promoting

lemma reads_knownCall {caller : Option String} : Reads (knownCall c caller method) :=
  reads_getWorld.bind fun _ => .pure_or .pure

section Visiting

variable (hI : Following D E I) (hv : ∀ n, UpholdsAt E I p (v n))

include hI hv

lemma Following.argsPromote {s : Sought} : UpholdsAt E I p (Flow.argsPromote v c s ends) := by
  refine (hI.leads reads_argsOf.leads).bind fun _ =>
    Upholds.bind (upholds_anyOf fun a _ => ?_) fun b =>
      .ite .pure (upholds_anyOf fun k _ => ?_)
  · refine (hv _).bind fun _ => (hI.leads developing_meaning).bind fun ms => ?_
    refine hI.argPromotes.bind fun leads => ?_
    exact .when hI.promoteFieldUsers .pure
  · refine (hv _).bind fun _ => (hI.leads developing_meaning).bind fun _ => ?_
    refine hI.argPromotes.bind fun _ => ?_
    exact .when hI.promoteFieldUsers .pure

lemma Following.decide {again : CallForm → Follow Called}
    (hagain : ∀ c, UpholdsAt E I p (again c)) (c : CallForm) :
    UpholdsAt E I p (Flow.decide v again c) := by
  refine (hI.calledName? hagain).bind fun _ => ?_
  split
  · exact .pure
  · refine .ite .pure ((hI.leads reads_knownCall.leads).bind fun _ => ?_)
    split
    · exact .pure
    · refine (hI.leads reads_currentMethod.leads).bind fun _ => ?_
      refine (hI.leads (developing_outwardClosure _)).bind fun _ => ?_
      refine (hI.leads (reads_settle _).leads).bind fun _ => ?_
      split
      · exact .pure
      · refine hI.promoteTainted.bind fun _ => ?_
        refine (hI.argsPromote hv).bind fun b => .ite .pure (hI.leads ?_)
        refine reads_getFrame.next fun f => ?_
        split
        · refine reads_currentModule.next fun _ => ?_
          exact .pure_or .pure
        · exact .pure

end Visiting

/-! ### Calls of nothing that is known -/

lemma developing_handOnFields : Developing (handOnFields c) := by
  refine reads_currentNs.next fun _ => ?_
  split
  · refine .or_pure (reads_currentModule.next fun _ => ?_)
    refine reads_moduleName.next fun _ => .or_pure (.forM fun k _ => ?_)
    split
    · exact .pure
    · refine .or_pure (reads_def?.next fun _ => ?_)
      refine reads_def?.next fun _ => ?_
      split
      · refine reads_definition.next fun d => developing_mapDefs fun ds => ?_
        refine (ds.enriches_addNames _).trans (Definitions.enriches_adjust _ _ fun e => ?_)
        exact e.quiet_name (NamePointer.refits_mergeArgs _)
      · exact .pure
  · exact .pure

lemma reads_lineOf : Reads (lineOf c : Follow Nat) := Leads.need.bind_pure

lemma developing_fieldCall {names : Names} : Developing (fieldCall c names) := by
  refine reads_importNode.next fun _ => .forM fun _ _ => ?_
  refine reads_getWorld.next fun w => .or_pure ?_
  refine reads_currentNs.next fun _ => developing_createCrossing.bind fun _ => ?_
  refine developing_noteModelCall.bind fun _ => reads_lineOf.next fun _ => ?_
  exact developing_noteCrossing

lemma developing_appendCall {list : Expr} : Developing (appendCall list arg) := by
  refine developing_meaning.bind fun _ => developing_meaning.bind fun _ => ?_
  refine .or_pure (.forM fun l _ => reads_closureOf.next fun _ => ?_)
  refine .forM fun n _ => .or_pure (reads_def?.next fun r => ?_)
  exact Leads.need.bind fun r => .forM fun a _ => developing_addName

lemma reads_processCall : Reads (processCall c) := by
  refine Leads.bind (.foldlM (fun args k _ => .or_pure ?_) _) fun _ => ?_
  · split
    · exact .pure
    · exact .throw
  · exact Leads.need.bind_pure

lemma Following.silentCall (hI : Following D E I) (hv : ∀ n, UpholdsAt E I p (v n))
    (hagain : ∀ c, UpholdsAt E I p (again c)) {called : Called} :
    UpholdsAt E I p (Flow.silentCall v again c called) := by
  refine (hI.leads developing_handOnFields).bind fun _ => ?_
  split
  · exact .pure
  · exact hI.leads developing_fieldCall
  · refine (hI.leads reads_getWorld.leads).bind fun w => ?_
    refine .ite_bind (hI.leads reads_argsOf.leads) .pure fun _ => ?_
    dsimp only
    split
    · exact (hI.evaluated (fun n _ => (hv n).alike)).upholds
    · refine .ite (hI.taintArgs hv _ _) ?_
      split
      · exact .forM fun e _ => hagain _
      · exact hI.leads developing_appendCall
      · refine (hI.leads .need).bind fun _ => .ite ?_ .pure
        exact (hI.leads reads_processCall.leads).bind fun c => hagain c
      · exact .pure

/-! ### Calls of known names -/

lemma developing_receiverClass : Developing (receiverClass c) := by
  unfold receiverClass
  split
  · refine developing_meaning.bind fun _ => .foldlM (fun _ m _ => ?_) _
    refine Leads.need.bind fun r => reads_kindOf.next fun k => ?_
    extract_lets rest
    have hrest (found : Option String) : Developing (rest found) := by
      simp only [rest]
      split
      · exact .pure
      · exact .pure
      · exact reads_inheritance.leads.bind_pure
    refine .ite (Leads.pure.bind hrest) (reads_sinkNode.next fun _ => ?_)
    split
    · exact Leads.pure.bind hrest
    · exact Leads.pure.bind hrest
    · exact Leads.throw.bind hrest
  · exact .pure

lemma reads_modelName? : Reads (modelName? name) := by
  refine reads_getWorld.bind fun w => ?_
  dsimp only
  split
  · exact .pure
  · exact .pure

lemma developing_modelCall : Developing (modelCall c name) := by
  refine developing_mapOwn.bind fun _ => reads_currentNs.next fun _ => ?_
  refine developing_createCrossing.bind fun _ => reads_getWorld.next fun w => ?_
  refine .or_pure (Leads.need.bind fun _ => ?_)
  refine developing_noteModelCall.bind fun _ => reads_lineOf.next fun _ => ?_
  exact developing_noteCrossing

lemma developing_linkAncestors : Developing (linkAncestors cls) := by
  refine reads_getWorld.next fun w => ?_
  split
  · exact .pure
  · refine .forM fun _ _ => reads_def?.next fun p => ?_
    split
    · exact .pure
    · refine reads_hasScope.next fun b => .or_pure ?_
      refine reads_getWorld.next fun w => Leads.need.bind fun _ => ?_
      refine .forM fun e _ => .or_pure (reads_methodsOf.next fun _ => ?_)
      refine reads_def?.next fun r => ?_
      extract_lets rest
      have hrest (r : DefRef) : Developing (rest r) :=
        (developing_mapDefs fun ds => ds.enriches_addNames r).bind fun _ => developing_addName
      split
      · exact Leads.pure.bind hrest
      · refine reads_definition.next fun d => ?_
        exact developing_create.bind hrest

section Passing

variable (hI : Following D E I) (hv : ∀ n, UpholdsAt E I p (v n))

include hI hv

lemma Following.passToFields : UpholdsAt E I p (Flow.passToFields v cls c) := by
  refine (hI.leads reads_argsOf.leads).bind fun _ =>
    Upholds.bind (.forM fun a _ => ?_) fun _ => .forM fun k _ => ?_
  · refine (hv _).bind fun _ => hI.leads (developing_meaning.bind fun ms => ?_)
    refine reads_kindOf.next fun k => .ite ?_ developing_passAt
    refine reads_paramsAt.next fun _ => ?_
    split
    · exact .pure
    · exact developing_feed
  · refine (hv _).bind fun _ => hI.leads (developing_meaning.bind fun _ => ?_)
    refine reads_kindOf.next fun _ => ?_
    split
    · refine reads_def?.next fun r => ?_
      split
      · exact .pure
      · refine .forM fun m _ => ?_
        split
        · exact developing_addName
        · exact developing_addLiteral
    · exact .forM fun m _ => developing_addArg

lemma Following.passToAll {view : CallView} (inContext : Bool) (c : CallForm)
    {names : List String} :
    UpholdsAt E I p (Flow.passToAll v view inContext c names) := by
  induction names generalizing inContext c with
  | nil => exact .pure
  | cons name names ih =>
    refine (hI.leads reads_modelName?.leads).bind fun m => ?_
    split
    · exact hI.leads developing_modelCall
    · refine (hI.leads reads_inheritance.leads).bind fun g => .ite (ih _ _) ?_
      refine (hI.leads reads_def?.leads).bind fun r => ?_
      split
      · exact ih _ _
      · refine (hI.leads reads_kindOf.leads).bind fun k => ?_
        refine .when (hI.leads developing_linkAncestors) ?_
        refine .ite_bind (hI.leads reads_def?.leads) .pure fun target => ?_
        cases target with
        | none => exact (hI.passToFields hv).bind fun _ => ih _ _
        | some target =>
          dsimp -zeta only
          extract_lets rest
          have hpass (shift : Bool) (c : CallForm) : UpholdsAt E I p (do
              passArgs v target (← argsOf c) c.keywords
              Flow.passToAll v view (inContext && !shift) c names) := by
            refine (hI.leads reads_argsOf.leads).bind fun args => Upholds.bind ?_ fun _ => ih _ _
            exact (hI.passArgs (fun a _ => (hv _).alike) fun k _ => (hv _).alike).upholds
          have hrest (shift : Bool) : UpholdsAt E I p (rest shift) := by
            refine .ite (Upholds.pure.bind (hpass shift)) ?_
            split
            · refine (hI.leads (developing_mapFrame fun _ => ⟨_, _, _, rfl⟩)).bind fun _ => ?_
              exact Upholds.pure.bind (hpass shift)
            · exact Upholds.pure.bind (hpass shift)
          refine .ite ((hI.leads reads_argsOf.leads).bind fun _ => ?_) (Upholds.pure.bind hrest)
          exact Upholds.pure.bind hrest

lemma Following.call {decide : CallForm → Follow Called} (hdecide : ∀ c, UpholdsAt E I p (decide c))
    (hagain : ∀ c, UpholdsAt E I p (again c)) (c : CallForm) :
    UpholdsAt E I p (Flow.call v decide again c) := by
  refine (hv _).bind fun _ => (hdecide c).bind fun _ => ?_
  refine (hI.leads reads_getOwn.leads).bind fun o => ?_
  extract_lets maker rest
  have hrest (u : Unit) : UpholdsAt E I p (rest u) := by
    simp only [rest]
    split
    · exact .pure
    · refine (hI.leads (developing_of_coins leads_callNames)).bind fun _ => ?_
      refine .ite (hI.silentCall hv hagain) ?_
      refine (hI.leads developing_receiverClass).bind fun _ => ?_
      refine (hI.leads (developing_mapFrame fun _ => ⟨_, _, _, rfl⟩)).bind fun _ => ?_
      exact (hI.leads reads_currentClassNs.leads).bind fun _ => hI.passToAll hv _ _
  refine .ite ((hI.leads developing_closeNames).bind fun _ => ?_) (hrest ())
  exact (hI.leads developing_mapOwn).bind hrest

end Passing

end SinkTrace.Flow
