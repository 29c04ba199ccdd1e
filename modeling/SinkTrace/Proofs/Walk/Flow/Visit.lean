import SinkTrace.Proofs.Walk.Flow.Calls

/-!
# Following values, rule by rule

The rules of the pass that follows values, statement by statement, and the walk through a file with
the modules that come to lead to a sink meanwhile. What stands the steps between the visits is kept,
so nothing is taken away from the world.
-/

namespace SinkTrace.Flow

open Act Walk

variable {D : List String → Prop} {E I : Walk Flow → Prop} {p : Place} {v w : Node → Follow Unit}
  {cls name : String} {fuel : Nat} {loc : Loc} {m : Meaning} {target : DefRef} {value : Expr}

/-! ### Assignments -/

lemma developing_taintFromOwner {element : Expr} : Developing (taintFromOwner target element) := by
  have hall (ms : List Meaning) : Developing (ms.forM fun m => do
      if m.isSome then addTaint (← need .absent m.ref?) target.ns : Follow Unit) := by
    refine .forM fun m _ => .or_pure (Leads.need.bind fun r => ?_)
    exact developing_addTaint
  unfold taintFromOwner
  split
  · split
    · exact hall _
    · exact hall _
    · exact hall _
    · exact hall _
    · exact .pure
  · split
    · exact developing_meaning.bind hall
    · exact .pure

lemma developing_taintAnswer {r : DefRef} : Developing (taintAnswer value r) := by
  refine reads_getOwn.next fun o => .or_pure ?_
  extract_lets rest
  have hrest (u : Unit) : Developing (rest u) := developing_mapOwn
  split
  · refine reads_leftOf.next fun _ => ?_
    refine Leads.bind (.forM fun a _ => developing_taintFrom a) fun _ => ?_
    exact Leads.bind (.forM fun k _ => developing_taintFrom _) hrest
  · exact Leads.throw.bind hrest
  · exact Leads.throw.bind hrest

lemma developing_hintField {r : Option DefRef} {imported : Option String} {d : Option DefRef} :
    Developing (hintField r imported d) := by
  unfold hintField
  split
  · exact .pure
  · refine Leads.need.bind fun r => developing_addName.bind fun _ => ?_
    exact reads_moduleName.next fun m => developing_mapSinkNode (fun _ => rfl) fun _ _ hb => hb

section Assigning

variable (hI : Following D E I) (hv : ∀ n, UpholdsAt E I p (v n))

include hI hv

lemma Following.taintTarget (target : Expr) :
    UpholdsAt E I p (Flow.taintTarget v value fuel target) := by
  induction fuel generalizing target with
  | zero => exact hI.fault
  | succ fuel ih =>
    refine (hI.leads developing_meaning).bind fun ms => ?_
    split
    · exact .forM fun e _ => ih e
    · refine (hI.leads developing_targetNames).bind fun _ => .forM fun _ _ => ?_
      refine (hI.leads reads_def?.leads).bind fun r => ?_
      split
      · exact .pure
      · split
        · refine (hI.leads reads_leftOf.leads).bind fun _ => .forM fun _ _ => ?_
          refine (hv _).bind fun _ => hI.leads (developing_meaning.bind fun _ => ?_)
          refine developing_addTaints.bind fun _ => ?_
          split
          · exact developing_taintFromOwner
          · exact .pure
        · exact hI.leads (developing_taintFrom _)
        · exact hI.leads (developing_taintFrom _)
        · exact hI.leads (developing_taintFrom _)
        · exact .pure

lemma Following.assignRule :
    AssignRule.Alike E I Any p (Flow.assignRule v) (Flow.assignRule v) where
  visit n _ := (hv n).alike
  noteCall _ := hI.aside (reads_callsModel.next fun _ =>
    .or_pure developing_mapOwn)
  afterwards _ _ := hI.aside developing_taintAnswer

lemma Following.assign (value : Expr) (targets : List Expr) :
    UpholdsAt E I p (Walk.assign (Flow.assignRule v) value targets) :=
  (hI.toTolerant.assign (hI.assignRule hv) hereditary_true trivial fun _ _ => trivial).upholds

lemma Following.assignment {targets : List Expr} :
    UpholdsAt E I p (Flow.assignment v targets value) :=
  Upholds.bind (.forM fun t _ => hI.taintTarget hv t) fun _ =>
    hI.assign hv value targets

lemma Following.hinted {target hint : Expr} {value : Option Expr} :
    UpholdsAt E I p (Flow.hinted v target hint value) := by
  unfold Flow.hinted
  split
  · exact hI.assign hv _ _
  · refine Upholds.bind (.forM fun e _ => hv _) fun _ => hI.leads ?_
    refine reads_currentNs.next fun _ => reads_hasScope.next fun b => ?_
    split
    · refine reads_def?.next fun r => ?_
      extract_lets given rest
      have hrest (u : Unit) : Developing (rest u) := by
        refine reads_def?.next fun _ => .or_pure ?_
        refine reads_def?.next fun owner => Leads.need.bind fun _ => ?_
        refine reads_namePointer.next fun p => Leads.bind ?_ fun _ => ?_
        · exact developing_onName Definitions.refitting_addPosArg
        · refine reads_getWorld.next fun w => reads_moduleName.next fun _ => ?_
          split
          · refine .or_pure (reads_importNode.next fun _ => ?_)
            exact reads_scopeDef?.next fun d => developing_hintField
          · exact .pure
      split
      · refine reads_def?.next fun _ => ?_
        split
        · exact developing_addName.bind hrest
        · exact hrest ()
      · exact hrest ()
    · exact .pure

lemma Following.withItem {target : Option Expr} :
    UpholdsAt E I p (Flow.withItem v value target) := by
  refine (hv _).bind fun _ => (hI.leads reads_getFrame.leads).bind fun f => ?_
  refine (hI.leads developing_meaning).bind fun ms => ?_
  extract_lets rest
  have hrest (ms : List Meaning) : UpholdsAt E I p (rest ms) := by
    simp only [rest]
    split
    · exact .pure
    · refine (hv _).bind fun _ => hI.leads (developing_targetNames.bind fun _ => ?_)
      refine .forM fun _ _ => .or_pure (developing_assignTo.bind fun r => ?_)
      exact developing_bindNs
  split
  · dsimp only
    split
    · refine (hI.leads developing_callerMeaning).bind fun _ => ?_
      exact Upholds.pure.bind hrest
    · exact Upholds.pure.bind hrest
  · exact Upholds.pure.bind hrest

end Assigning

/-! ### Loops -/

lemma developing_iterate {source : DefRef} : Developing (iterate target source) := by
  refine reads_closureOf.next fun names => .forM fun _ _ => ?_
  refine reads_def?.next fun next => ?_
  extract_lets rest
  have hrest (names : Names) : Developing (rest names) :=
    .forM fun n _ => developing_addName.bind fun _ => developing_addTaint
  split
  · exact reads_closureOf.next hrest
  · exact Leads.pure.bind hrest

lemma developing_iterateOver {ms : List Meaning} : Developing (iterateOver target ms) := by
  refine .forM fun m _ => ?_
  split
  · exact .forM fun r _ => developing_iterate
  · exact developing_iterate
  · exact .pure

lemma developing_iterateNumbered {arg : Expr} : Developing (iterateNumbered target arg) := by
  refine developing_meaning.bind fun _ => .forM fun m _ => .or_pure ?_
  refine Leads.need.bind fun r => reads_closureOf.next fun _ => ?_
  exact .forM fun n _ => developing_addName.bind fun _ => developing_addTaint

lemma developing_loopTarget {form : Option CallForm} {iter e : Expr} {pos : Nat} :
    Developing (loopTarget form iter e pos) := by
  unfold loopTarget
  split
  · exact .pure
  · refine reads_currentNs.next fun _ => reads_def?.next fun r => ?_
    split
    · exact .pure
    · refine developing_meaning.bind fun _ => developing_iterateOver.bind fun _ => ?_
      split
      · refine .or_pure (reads_argsOf.next fun _ => ?_)
        split
        · exact developing_iterateNumbered
        · exact .pure
      · exact .pure

section Looping

variable (hI : Following D E I) (hv : ∀ n, UpholdsAt E I p (v n))
variable {call : CallForm → Follow Unit} (hcall : ∀ c, UpholdsAt E I p (call c))

include hI hv hcall

lemma Following.loop (target iter : Expr) (body : List Stmt) :
    UpholdsAt E I p (Flow.loop v call target iter body) := by
  unfold Flow.loop
  extract_lets form done rest
  clear_value form
  have hdone (u : Unit) : UpholdsAt E I p (done u) := .forM fun s _ => hv _
  have hrest (atModel : Bool) : UpholdsAt E I p (rest atModel) := by
    simp only [rest]
    split
    · refine (hI.leads reads_currentNs.leads).bind fun _ => ?_
      refine (hI.leads reads_def?.leads).bind fun r => ?_
      split
      · exact hdone ()
      · refine (hI.leads developing_meaning).bind fun _ => ?_
        refine (hI.leads developing_iterateOver).bind fun _ => ?_
        split
        · refine .ite ((hI.leads reads_argsOf.leads).bind fun _ => ?_) (hdone ())
          refine Upholds.bind (hI.leads (.forM fun a _ => ?_)) hdone
          exact developing_taintFrom a
        · exact hdone ()
    · refine Upholds.bind (hI.leads (.forM fun e _ => ?_)) hdone
      exact developing_loopTarget
    · exact hdone ()
  split
  · refine (hcall _).bind fun _ => ?_
    refine (hI.leads (developing_of_coins leads_callNames)).bind fun _ => ?_
    exact .ite_bind (hI.leads reads_callsModel.leads) .pure hrest
  · exact Upholds.bind (.forM fun v _ => hv _) fun _ => Upholds.pure.bind hrest
  · exact Upholds.pure.bind hrest

lemma Following.comprehension {g : Generator Expr} :
    UpholdsAt E I p (Flow.comprehension v call g) := by
  unfold Flow.comprehension
  split
  · have hloop := hI.loop hv hcall g.target g.iter []
    refine (hI.leads reads_currentNs.leads).bind fun _ => ?_
    refine (hI.leads reads_def?.leads).bind fun r => .ite ?_ hloop
    refine (hI.leads developing_createDef).bind fun r => ?_
    exact (hI.leads developing_bindIn).bind fun _ => hloop
  · exact .pure

end Looping

/-! ### Lists and mappings -/

lemma developing_numbered {kind : Numbered} : Developing (numbered kind loc) := by
  refine reads_currentNs.next fun _ => reads_hasScope.next fun b => ?_
  extract_lets rest
  have hrest (u : Unit) : Developing (rest u) := by
    refine developing_createScope.bind fun _ => developing_ensureDef.bind fun r => ?_
    exact developing_bindIn.bind_pure
  exact .ite (hrest ()) (Leads.throw.bind hrest)

lemma developing_listElement {list place : DefRef} : Developing (listElement list place m) := by
  unfold listElement
  split
  · exact developing_addName.bind fun _ => developing_flows
  · refine developing_addLiteral.bind fun _ => .forM fun r _ => ?_
    exact developing_flows
  · refine developing_addLiteral.bind fun _ => ?_
    exact developing_mapDefs fun ds => ds.enriches_addName list

lemma developing_dictValue {targets : List DefRef} : Developing (dictValue targets m) := by
  refine .forM fun t _ => ?_
  split
  · exact developing_addName
  · exact developing_addLiteral

lemma developing_dictEntry {dict all : DefRef} {values : List Meaning} {key : Meaning} :
    Developing (dictEntry dict all values key) := by
  unfold dictEntry
  extract_lets rest
  have hrest (keys : Option Scalars) : Developing (rest keys) := by
    simp only [rest]
    split
    · exact .pure
    · exact .forM fun m _ => developing_dictValue
    · refine .forM fun k _ => developing_ensureDef.bind fun r => ?_
      refine developing_bindIn.bind fun _ => .forM fun m _ => ?_
      exact developing_dictValue
  split
  · exact reads_definition.next fun d => Leads.pure.bind hrest
  · exact Leads.pure.bind hrest
  · exact Leads.pure.bind hrest

section Collecting

variable (hI : Following D E I) (hv : ∀ name n, UpholdsAt E I (p.inBlock name) (v n))

include hI hv

lemma Following.list {elts : List Expr} : UpholdsAt E I p (Flow.list v loc elts) := by
  refine (hI.leads developing_numbered).bind fun r => (hI.inBlock (Upholds.alike ?_)).upholds
  refine .forM fun e _ => (hv _ _).bind fun _ => hI.leads ?_
  refine developing_ensureDef.bind fun _ => developing_meaning.bind fun _ => ?_
  exact .forM fun m _ => developing_listElement

lemma Following.dict {items : List (Option Expr × Expr)} :
    UpholdsAt E I p (Flow.dict v loc items) := by
  refine (hI.leads developing_numbered).bind fun r => ?_
  refine (hI.leads developing_ensureDef).bind fun _ => ?_
  refine (hI.leads developing_bindIn).bind fun _ => (hI.inBlock (Upholds.alike ?_)).upholds
  refine .forM fun e _ => Upholds.bind (.forM fun e _ => hv _ _) fun _ => hI.leads ?_
  extract_lets rest
  have hrest (keys : List Meaning) : Developing (rest keys) :=
    developing_meaning.bind fun _ => .forM fun k _ => developing_dictEntry
  split
  · exact developing_meaning.bind hrest
  · exact Leads.pure.bind hrest

end Collecting

/-! ### Functions and classes -/

lemma developing_decorate {fn : DefRef} {previous : Names} {decorator : Expr} :
    Developing (decorate meaning fn previous decorator) := by
  refine developing_meaning.bind fun _ => Leads.bind (.foldlM (fun next m _ => ?_) _)
    fun next => .when developing_addName .pure
  split
  · refine reads_closureOf.next fun _ => Leads.bind (.foldlM (fun b _ _ => ?_) _)
      fun b => .pure
    obtain ⟨d, next⟩ := b
    refine Leads.need.bind fun _ => reads_currentModule.next fun _ => ?_
    refine .ite_bind .pure reads_def?.leads fun d => ?_
    refine reads_closures.next fun c => ?_
    split
    · exact .pure
    · refine Leads.bind (.forM fun p _ => Leads.need.bind fun d => ?_) fun _ => .pure
      refine reads_paramsAt.next fun _ => .forM fun n _ => ?_
      exact reads_def?.next fun r => Leads.need.bind fun r => developing_addName
  · exact .pure

lemma developing_decorators {ds : List Expr} : Developing (decorators name ds) := by
  unfold decorators
  split
  · exact .pure
  · refine reads_currentNs.next fun _ => reads_def?.next fun fn => ?_
    refine Leads.need.bind fun fn => reads_definition.next fun d => ?_
    extract_lets rest
    have hrest (u : Unit) : Developing (rest u) := by
      refine reads_closureOf.next fun _ => ?_
      exact Leads.bind (.foldlM (fun p d _ => developing_decorate) _) fun _ => .pure
    refine .ite (developing_meaning.bind fun _ => ?_) (hrest ())
    refine Leads.bind (.forM fun m _ => ?_) hrest
    split
    · refine developing_mapDefs fun ds => ds.enriches_adjust fn fun d => ?_
      exact d.quiet_decorators
    · exact .pure

lemma developing_baseClass {inherited : Inherited} : Developing (baseClass cls inherited name) := by
  refine Leads.bind (developing_modifyClass fun _ => rfl) fun _ => ?_
  refine reads_getWorld.next fun w => ?_
  split
  · exact .pure
  · refine Leads.bind (developing_modifyClass fun _ => rfl) fun _ =>
      developing_mapOwn.bind fun _ => ?_
    refine reads_getWorld.next fun w => ?_
    split
    · exact .pure
    · exact .pure

lemma developing_addBases {child : String} {inherited : Inherited} {base : Expr} :
    Developing (addBases cls child inherited base) := by
  refine developing_meaning.bind fun _ => .foldlM (fun inherited m _ => ?_) _
  split
  · refine reads_closures.next fun c => Leads.need.bind fun _ => ?_
    refine Leads.bind (.forM fun e _ => ?_) fun _ => ?_
    · exact developing_mapSinks (fun _ _ _ hx => hx) fun _ _ _ hx => hx
    · refine reads_namePointer.next fun p => ?_
      exact .foldlM (fun _ n _ => developing_baseClass) _
  · exact .pure

lemma developing_takeInherited {cls : DefRef} (pos : Nat)
    {inherited : List (Option String × DefRef)} : Developing (takeInherited cls pos inherited) := by
  induction inherited generalizing pos with
  | nil => exact .pure
  | cons e rest ih =>
    refine reads_namePointer.next fun p => ?_
    dsimp only
    split
    · exact .pure
    · refine Leads.bind (developing_onName fun p => p.refits_eraseArg) fun _ => ?_
      refine Leads.bind ?_ fun _ => ih _
      exact developing_onName Definitions.refitting_addPosArg

section Blocks

variable (hI : Following D E I)

include hI

lemma alike_functionDef {f : Function Stmt} (hD : D (p.names ++ [f.name]))
    (h : AlikeOn E I (p.inFunction f.name) v w .stmt f.body) :
    AlikeAt E I p (functionDef v f) (functionDef w f) := by
  refine (hI.reads reads_getFrame).bind fun _ => (hI.reads reads_getWorld).bind fun world => ?_
  refine (hI.reads reads_moduleName).bind fun module => ?_
  extract_lets rest owner rest'
  have hrest (skipped : Bool) : AlikeAt E I p (rest skipped) (rest' skipped) :=
    .ite (.pure _) ((hI.aside developing_decorators).bind fun _ => hI.functionBody hD h)
  cases world.sinks.node? module with
  | none => exact .ite_bind hI.throws (.pure _) hrest
  | some node => exact (Alike.pure _).bind hrest

lemma alike_baseClasses {child : String} {bases : List Expr} (h : AlikeOn E I p v w .expr bases) :
    AlikeAt E I p (baseClasses v cls child bases) (baseClasses w cls child bases) := by
  refine .foldlM (fun inherited base hbase => (h base hbase).bind fun _ => ?_)
  exact hI.aside developing_addBases

lemma alike_inherit {child full : String} {bases : List Expr} (h : AlikeOn E I p v w .expr bases) :
    AlikeAt E I p (inherit v cls child full bases) (inherit w cls child full bases) := by
  refine (alike_baseClasses hI h).bind fun _ => hI.aside ?_
  refine Leads.bind (developing_modifyClass fun _ => rfl) fun _ => ?_
  refine reads_currentNs.next fun _ => reads_def?.next fun _ => reads_def?.next fun d => ?_
  split
  · exact reads_namePointer.next fun p => developing_takeInherited _
  · exact .pure

lemma alike_classDef {c : ClassDecl Stmt} (hD : D (p.names ++ [c.name]))
    (hbases : AlikeOn E I p v w .expr c.bases)
    (h : AlikeOn E I (p.inClass c.name) v w .stmt c.body) :
    AlikeAt E I p (classDef v c) (classDef w c) := by
  refine (hI.reads reads_getFrame).bind fun f => (hI.makeKnown p _ _).alike.bind fun r => ?_
  cases r with
  | none => exact .pure _
  | some r =>
    refine (alike_inherit hI hbases).bind fun _ => (hI.classBody hD h).bind fun _ => ?_
    refine (hI.reads reads_currentModule).bind fun _ =>
      (hI.aside developing_classOf).bind fun _ => ?_
    exact hI.promoteByFields.alike

lemma alike_lambda (hD : D p.names) {body : Expr}
    (h : ∀ name, AlikeAt E I (p.inFunction name) (v (.expr body)) (w (.expr body))) :
    AlikeAt E I p (lambda v body) (lambda w body) := by
  refine (hI.nextLambda hD).bind fun name => (hI.reads reads_currentModule).bind fun _ => ?_
  refine (hI.reads reads_moduleName).bind fun _ => Alike.bind (hI.aside ?_) fun _ => ?_
  · refine developing_mapModules fun ms => ms.expands_adjust fun _ x hx => ?_
    unfold ModuleInfo.addMember
    split_ifs <;> exact hx
  · exact hI.lambdaBody (h name)

end Blocks

/-! ### The walk -/

lemma Following.rule (hI : Following D E I) (hD : D p.names) (hmodule : Renumbers I)
    (hv : ∀ q, q = p ∨ p.Holds q → ∀ n, UpholdsAt E I q (v n)) {call : CallForm → Follow Unit}
    (hcall : ∀ c, UpholdsAt E I p (call c)) {n : Node} : UpholdsAt E I p (Flow.rule v call n) := by
  have hinner (name : String) : D (p.names ++ [name]) := hI.deeper _ name hD
  have hhere (n : Node) : UpholdsAt E I p (v n) := hv p (.inl rfl) n
  have hblock (name : String) (n : Node) : UpholdsAt E I (p.inBlock name) (v n) :=
    hv _ (.inr p.holds_inBlock) n
  have hfunction (name : String) (n : Node) : AlikeAt E I (p.inFunction name) (v n) (v n) :=
    (hv _ (.inr p.holds_inFunction) n).alike
  unfold Flow.rule
  split
  · exact (alike_functionDef hI (hinner _) fun s _ => hfunction _ _).upholds
  · refine (alike_classDef hI (hinner _) (fun b _ => (hhere _).alike) fun s _ => ?_).upholds
    exact (hv _ (.inr p.holds_inClass) _).alike
  · exact hI.assignment hhere
  · exact hI.hinted hhere
  · exact hI.loop hhere hcall _ _ _
  · exact (hI.returns (.forM fun n _ => (hhere n).alike)).upholds
  · exact (hI.returns (.forM fun n _ => (hhere n).alike)).upholds
  · exact (hI.returns (.forM fun n _ => (hhere n).alike)).upholds
  · exact hI.comprehension hhere hcall
  · exact hI.withItem hhere
  · exact hcall _
  · exact (alike_lambda hI hD fun name => hfunction name _).upholds
  · exact hI.list hblock
  · exact hI.dict hblock
  · exact Upholds.bind (.forM fun g _ => hhere _) fun _ => hI.dict hblock
  · refine (hI.visitCommon hinner (fun _ _ => hmodule) hereditary_true
      ⟨fun n _ => (hhere n).alike, fun q hq n _ => (hv q (.inr hq) n).alike⟩ trivial).upholds

lemma Following.visit (hI : Following Any E I) (hmodule : Renumbers I) (p : Place) :
    (∀ n, UpholdsAt E I p (Flow.visit fuel n)) ∧ (∀ c, UpholdsAt E I p (visitCall fuel c)) ∧
      ∀ c, UpholdsAt E I p (decideCall fuel c) := by
  induction fuel generalizing p with
  | zero => exact ⟨fun _ => hI.fault, fun _ => hI.fault, fun _ => hI.fault⟩
  | succ fuel ih =>
    obtain ⟨hvisit, hcall, hdecide⟩ := ih p
    refine ⟨fun n => ?_, hI.call hvisit hdecide hcall, hI.decide hvisit hdecide⟩
    exact hI.rule trivial hmodule (fun q _ => (ih q).1) hcall

section World

variable {E I : World → Prop}

lemma upholds_analyze (hI : Following Any (OfWorld E) (OfWorld I))
    (hcount : Recountable I) (fuel : Nat) (p : Place) :
    UpholdsAt (OfWorld E) (OfWorld I) p (analyze fuel) := by
  induction fuel generalizing p with
  | zero => exact hI.fault
  | succ fuel ih =>
    refine (hI.leads (developing_mapFrame fun _ => ⟨_, _, _, rfl⟩)).bind fun _ => ?_
    refine (hI.leads reads_fileText.leads).bind fun _ =>
      (hI.leads developing_closeNames).bind fun _ => ?_
    refine Upholds.bind (hI.leads ?_) fun _ => (hI.leads reads_program.leads).bind fun _ => ?_
    · exact developing_of_world (fun _ => rfl) fun s =>
        s.world.enriches_defs Definitions.enriches_closeTaints
    · refine ((hI.visit (renumbers_of_world hcount) p).1 _).bind fun _ => ?_
      refine (hI.leads reads_currentModule.leads).bind fun _ => ?_
      refine hI.promoteByFields.bind fun _ => (hI.leads reads_getOwn.leads).bind fun o => ?_
      refine Upholds.bind (.forM fun m _ => ?_) fun _ => hI.leads developing_mapOwn
      refine (alike_submodule hI.toTolerant (fun w _ _ => ?_) (ih {}).alike).upholds
      exact { World.Enriches.refl w with }

end World

lemma develops_analyze (fuel : Nat) (s : Walk Flow) :
    s.world.Develops (analyze fuel s).2.world := by
  refine world_of_alike (Upholds.alike ?_) (.refl _)
  exact upholds_analyze following_develops recountable_develops fuel _

end SinkTrace.Flow
