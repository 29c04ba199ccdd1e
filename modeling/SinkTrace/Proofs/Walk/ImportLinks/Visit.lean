import SinkTrace.Proofs.Walk.ImportLinks.Calls
import SinkTrace.Walk.ImportLinks.Visit

/-!
# What the second pass keeps

Between its visits the second pass takes surveys that keep the world sound. An invariant that stands
these is `Linking`; if it does not depend on the chain and on what is analysed, the whole pass keeps
it. So the pass keeps the world sound.
-/

namespace SinkTrace.ImportLinks

open Act Walk World Sinks

variable {C : Prop} {but : String → String → Prop} {w₀ : World} {p : Place}
  {base cls id m method module outer target : String} {E I : Walk ImportLinks → Prop} {a : Alias}
  {body : List Stmt} {c : ClassDecl Stmt} {callees : SetId} {f : Function Stmt} {renewed : Names}
  {statement : Import} {t : Targets} {targets : List Expr} {e value : Expr}

/-! ### Imports -/

lemma reads_currentImports : Reads currentImports :=
  reads_getWorld.bind fun _ => reads_moduleName.bind fun _ => .need

lemma noting_mapImports {f : ImportNode → ImportNode} (hf : ∀ n, (f n).filename = n.filename) :
    Noting (mapImports f) :=
  reads_moduleName.next fun _ =>
    noting_onImports fun _ => .single (Imports.extends_adjustNode hf)

lemma noting_importSink : Noting (importSink module target) := by
  refine reads_getFrame.next fun f => ?_
  refine reads_getWorld.next fun w => ?_
  split
  · exact .pure
  · refine reads_getWorld.next fun w => .or_pure ?_
    exact noting_initSinkNode.bind fun _ => noting_addSource

lemma noting_importMiddle : Noting (importMiddle module target) := by
  refine reads_getFrame.next fun f => ?_
  refine reads_getWorld.next fun w => ?_
  split
  · exact .pure
  · refine reads_getWorld.next fun w => .or_pure ?_
    refine noting_onMiddles.bind fun _ => reads_getWorld.next fun w => ?_
    exact .or_pure noting_onMiddles

lemma noting_noteImport : Noting (noteImport statement module target) := by
  refine noting_mapImports fun n => ?_
  split_ifs <;> rfl

lemma noting_noteImported : Noting (noteImported module a) := by
  refine reads_getWorld.next fun w => .bind (noting_mapImports ?_) fun _ => ?_
  · exact fun _ => rfl
  extract_lets rest
  have hrest (u : Unit) : Noting (rest u) :=
    noting_importSink.bind fun _ => noting_importMiddle
  split
  · exact (noting_mapOwn _).bind hrest
  · exact hrest ()

/-! ### Classes -/

lemma noting_addSuper {ns sup : String} : Noting (addSuper ns sup module) :=
  noting_mapModule_of_eq fun _ => rfl

lemma keeping_inheritSinks {supModule : String} : Keeping (inheritSinks cls base supModule) := by
  intro C w₀
  refine brings_read reads_currentNs fun ns => ?_
  refine brings_read reads_moduleName fun module => ?_
  refine brings_read reads_getFrame fun f => ?_
  refine brings_read reads_getWorld fun w => ?_
  refine brings_forStable fun (supMethod, links) _ => ?_
  refine brings_read reads_getWorld fun w => .ite (.pure _) ?_
  refine brings_read reads_currentModule fun m => .ite (.pure _) ?_
  refine brings_getWorld_bind fun w _ _ => ?_
  set sub := ns ++ "." ++ Text.replace supMethod (base ++ ".") ""
  extract_lets rest
  have hrest {w' : World} (hnode : C → (w'.sinks.node? module).isSome) (u : Unit) :
      Keeps C w' (rest u) := by
    refine brings_addCallee.bind_of (P := fun _ w => w.sinks.HasMethod module sub)
      (fun hC _ _ _ hrun hbase _ => hasMethod_addCallee (hbase.sinks.nodes _ (hnode hC)) hrun)
      fun _ _ _ hmethod => ?_
    refine .bind ((noting_mapSinks fun ss => settles_insertSet ss _ _).brings) fun _ => ?_
    exact (brings_spreadOutward hmethod).bind fun _ => brings_register hmethod (.inl rfl)
  refine brings_ite (fun hmodule => hrest (fun _ => ?_) ()) fun _ => ?_
  · rwa [Table.contains_eq_isSome] at hmodule
  · refine noting_initSinkNode.brings.bind_of (P := fun _ w => (w.sinks.node? module).isSome)
      (fun _ _ _ _ hrun _ _ => isSome_of_initSinkNode (run_of_onWorld hrun))
      fun u _ _ hnode => hrest hnode u

lemma reads_importedBase? : Reads (importedBase? base) := by
  refine reads_currentImports.bind fun _ => ?_
  split
  · exact .pure
  · refine reads_getWorld.bind fun w => ?_
    extract_lets found
    split
    · exact .pure
    · exact .pure

lemma keeping_baseClass : Keeping (baseClass cls base) := by
  refine keeping_read reads_currentNs fun _ => ?_
  refine keeping_read reads_moduleName fun _ => ?_
  refine keeping_read reads_currentModule fun m => .ite noting_addSuper.keeping ?_
  refine keeping_read reads_importedBase? fun _ => ?_
  split
  · exact .pure
  · refine noting_addSuper.keeping.bind fun _ => ?_
    refine (noting_onImports Imports.extends_createSinkEdge).keeping.bind fun _ => ?_
    refine .bind (Noting.keeping (noting_mapSinks fun _ => ?_)) fun _ => ?_
    · exact settles_of_nodes rfl rfl rfl rfl (fun _ _ => id) le_rfl
    refine keeping_read reads_getWorld fun w => .ite ?_ .pure
    refine keeping_read reads_getOwn fun _ => .when keeping_inheritSinks ?_
    refine keeping_read reads_getWorld fun w => ?_
    exact Noting.keeping (noting_mapSinkNode fun _ => ⟨rfl, rfl, rfl⟩)

lemma keeping_baseClasses {count : Nat} {bases : List Expr} :
    Keeping (baseClasses cls count bases) := by
  induction bases with
  | nil => exact .pure
  | cons b bs ih =>
    refine keeping_read reads_currentNs fun _ => ?_
    refine noting_touchClass.keeping.bind fun _ => .ite .pure ?_
    split
    · exact keeping_baseClass.bind fun _ => ih
    · exact ih

lemma noting_addMember {x : String} : Noting (mapModule (·.addMember x)) :=
  noting_mapModule_of_eq fun _ => ModuleInfo.callers_addMember

lemma keeping_enterClass : Keeping (enterClass c) := by
  refine (noting_mapOwn _).keeping.bind fun _ => keeping_read reads_currentNs fun _ => ?_
  refine .bind (Noting.keeping (noting_mapModule_of_eq fun m => ?_)) fun _ => ?_
  · rw [ModuleInfo.callers_addMember, ModuleInfo.callers_addMember]
    rfl
  refine keeping_baseClasses.bind fun _ => keeping_forM fun s _ => ?_
  split
  · exact noting_addMember.keeping
  · exact .pure

lemma noting_fieldsToModules : Noting (fieldsToModules cls) := by
  refine reads_moduleName.next fun _ => ?_
  refine noting_touchClass.bind fun _ => reads_getOwn.next fun _ => ?_
  refine .forM fun (field, id) _ => Leads.need.bind fun _ => ?_
  refine .forM fun _ _ => reads_getWorld.next fun w => ?_
  refine .when .throw (.bind (noting_mapSinkNode fun _ => ⟨rfl, rfl, rfl⟩) fun _ => ?_)
  exact noting_mapSinks fun _ => settles_addModuleUsers.trans (settles_addPotentModule ..)

lemma noting_baseFieldsToModules : Noting (baseFieldsToModules cls) := by
  refine reads_moduleName.next fun _ => noting_touchClass.bind fun _ => ?_
  refine .forM fun (sup, supModule) _ => reads_getWorld.next fun w => ?_
  refine .forM fun (field, mark) _ => ?_
  cases mark with
  | name _ => exact .pure
  | modules id =>
    refine .forM fun _ _ => reads_getWorld.next fun w => .ite ?_ ?_
    · exact (noting_onSinks leads_createNode).bind fun _ => Leads.throw.bind fun _ =>
        noting_mapSinks fun ss =>
          settles_addModuleUsers.trans (settles_addPotentModule ..)
    · exact noting_mapSinks fun _ => settles_addModuleUsers.trans (settles_addPotentModule ..)

lemma noting_leaveClass : Noting leaveClass :=
  reads_currentClass.next fun _ => noting_fieldsToModules.bind fun _ =>
    noting_baseFieldsToModules

/-! ### Functions -/

lemma keeping_knownSinks {params : List (Param Expr)} : Keeping (knownSinks params) := by
  refine keeping_read reads_moduleName fun _ => ?_
  refine keeping_read reads_currentNs fun _ => ?_
  refine keeping_read reads_getWorld fun w => ?_
  split
  · exact .pure
  extract_lets last rest
  have hlast (u : Unit) : Noting (last u) := by
    refine reads_getWorld.next fun w => .pure_or (.forM fun p _ => ?_)
    split
    · exact .pure
    · extract_lets vars
      have hvars (u : Unit) : Noting (vars u) :=
        reads_getWorld.next fun w => .or_pure (noting_mapOwn _)
      split
      · exact (noting_mapOwn _).bind hvars
      · exact hvars ()
  have hrest (u : Unit) : Noting (rest u) :=
    reads_getWorld.next fun w => .when noting_usesSinkModules (hlast ())
  split
  · refine Keeping.bind (fun _ _ => brings_leadsToSink _ false nofun) fun _ => ?_
    exact noting_noSuperAdd.keeping.bind fun u => (hrest u).keeping
  · exact (hrest ()).keeping

lemma noting_knownMiddles : Noting knownMiddles := by
  refine reads_currentNs.next fun _ => ?_
  refine reads_getWorld.next fun w => ?_
  refine reads_moduleName.next fun _ => ?_
  split
  · exact .pure
  · refine reads_getWorld.next fun w => .pure_or ?_
    exact noting_leadsToMiddle

lemma noting_decorators {ds : List Expr} : Noting (decorators ds) := by
  induction ds with
  | nil => exact .pure
  | cons d ds ih =>
    unfold decorators
    split
    · exact .pure
    · rename_i id rest hds
      obtain ⟨-, rfl⟩ := List.cons.inj hds
      refine reads_currentNs.next fun _ => .ite ?_ ?_
      · exact .bind (noting_mapModule_of_eq fun _ => rfl) fun _ => .pure
      · refine reads_currentModule.next fun m => ?_
        split
        · exact (noting_addCaller _ _).bind fun _ => ih
        · exact ih
    · rename_i hds
      obtain ⟨-, rfl⟩ := List.cons.inj hds
      exact ih

lemma noting_enterFunction : Noting (enterFunction outer f) := by
  refine reads_currentNs.next fun ns => ?_
  extract_lets rest
  have hrest (u : Unit) : Noting (rest u) := by
    refine .bind (noting_mapModule_of_eq fun m => ?_) fun _ => noting_decorators
    rw [ModuleInfo.callers_addMember, ModuleInfo.callers_addMember]
  refine .ite (.bind (noting_mapModule fun m x c _ => ?_) hrest)
    (.bind (noting_mapModule_of_eq fun m => ModuleInfo.callers_addModuleMethod) hrest)
  change c ∈ (m.callers.setNew ns []).getD x []
  rwa [Table.getD_setNew]

lemma keeping_takeParams : Keeping (takeParams outer f) := by
  refine keeping_knownSinks.bind fun _ => noting_knownMiddles.keeping.bind fun _ => ?_
  refine .bind (keeping_forM fun p _ => ?_) fun _ => (noting_mapOwn _).keeping
  split
  · exact .pure
  · refine keeping_read reads_getWorld fun w => .ite ?_ .pure
    refine Noting.keeping (.ite_bind .pure reads_currentMethod.leads fun _ => ?_)
    exact noting_mapModule_of_eq fun _ => rfl

/-! ### Assignments -/

lemma noting_noteTarget {cls : Option String} : Noting (noteTarget cls t e) := by
  refine reads_moduleName.next fun _ => ?_
  split
  · exact .pure_or noting_noteField.bind_pure
  · refine .ite ((noting_mapOwn _).bind_pure) ?_
    refine reads_currentNs.next fun _ => .or_pure ?_
    exact .bind (noting_mapModule_of_eq fun _ => rfl) fun _ => .pure
  · exact .pure

lemma noting_noteAlias : Noting (noteAlias t id) := by
  refine reads_currentNs.next fun _ => reads_currentImports.next fun _ => ?_
  extract_lets last
  have hlast (u : Unit) : Noting (last u) := by
    dsimp only [last]
    split
    · refine reads_currentModule.next fun m => .or_pure ?_
      exact (noting_addCaller _ _).bind fun _ => noting_addMember
    · exact .pure
  clear_value last
  split
  · exact .ite_bind reads_moduleName.leads .pure fun _ =>
      (noting_onImports Imports.extends_createSinkEdge).bind hlast
  · exact hlast ()

lemma noting_assignCall {cls : Option String} {func : Expr} :
    Noting (assignCall t targets cls func) := by
  refine reads_moduleName.next fun _ => ?_
  split
  · refine reads_getOwn.next fun _ => ?_
    refine reads_getWorld.next fun w => .ite ?_ ?_
    · exact noting_mapSinkNode fun _ => ⟨rfl, rfl, rfl⟩
    · split
      · exact noting_mapOwn _
      · exact .pure
  · refine .or_pure ?_
    split
    · exact noting_mapOwn _
    · exact .pure

lemma noting_assignClass : Noting assignClass := by
  refine reads_getFrame.next fun f => .pure_or ?_
  refine reads_currentClass.next fun cls => reads_classInNs.next fun _ => ?_
  exact noting_touchClass.bind_pure

lemma noting_hintedField {target : Expr} : Noting (hintedField target) := by
  unfold hintedField
  split
  · exact .pure
  refine reads_getFrame.next fun f => .pure_or ?_
  refine reads_currentClass.next fun _ => ?_
  refine reads_currentModule.next fun m => .forM fun _ _ => ?_
  refine reads_getWorld.next fun w => .or_pure ?_
  extract_lets used rest
  have hrest (u : Unit) : Noting (rest u) := by
    refine .bind (noting_mapSinkNode fun _ => ⟨rfl, rfl, rfl⟩) fun _ => ?_
    refine .bind (noting_mapSinks fun _ => settles_addModuleUsers) fun _ => ?_
    exact noting_usesSinkModules
  refine .ite (hrest ()) (noting_initSinkNode.bind fun _ => ?_)
  exact noting_addSource.bind hrest

/-! ### Public names -/

lemma brings_shareCallees (hsound : C → Sound but w₀)
    (h : C → ∃ N l, w₀.sinks.links? N method = some l ∧ l.callees = callees) :
    Brings C but but w₀ (mapSinks fun ss =>
      let (ss, callers) := ss.newSet []
      ss.adjustNode module fun n =>
        { n with methodUsers := n.methodUsers.set method { callees, callers } } : Link Unit) := by
  have hmethod {N : String} {l : Links} (hl : w₀.sinks.links? N method = some l) :
      w₀.sinks.HasMethod N method := by
    rw [HasMethod, hl]
    rfl
  refine brings_knownMethod_of (X := module) (x := method) (fun hC => ?_) fun hC w hw => ?_
  · obtain ⟨N, l, hl, -⟩ := h hC
    exact known_of_sharesEntry sharesEntry_self (hmethod hl)
  obtain ⟨N, l, hl, rfl⟩ := h hC
  have hnew := settles_newSet w.sinks []
  have hsize := hw.sinks.size.trans hnew.size
  refine hnew.extends.trans
    (extends_withMethod (((hsound hC).orderly.allocated _ _ l hl).trans_le hsize) ?_)
  -- the module itself keeps its callees, unless they have been those of another one before
  by_cases hN : N = module
  · subst hN
    rcases (hw.sinks.trans hnew.extends).callees N method l hl with ⟨l₁, hl₁, hid⟩ | hother
    · left
      intro l' hl'
      rw [hl₁] at hl'
      rw [← hid, Option.some.inj hl']
    · exact .inr hother
  · exact .inr ⟨N, hN, hnew.methods _ _ (hw.sinks.methods _ _ (hmethod hl))⟩

lemma links?_of_published {ss : Sinks} (hss : ss.Orderly) {imports : Names}
    {p : String × Links → Bool} {used : Option SetId}
    (h : (method, callees, used) ∈ imports.flatMap fun m =>
      match ss.node? m with
      | none => []
      | some n => (n.methodUsers.entries.filter p).map fun (method, l) =>
          (method, l.callees, n.moduleUsers.get? method)) :
    ∃ N l, ss.links? N method = some l ∧ l.callees = callees := by
  obtain ⟨N, -, hmem⟩ := List.mem_flatMap.mp h
  cases hn : ss.node? N with
  | none =>
    rw [hn] at hmem
    cases hmem
  | some n =>
    rw [hn] at hmem
    obtain ⟨⟨x, l⟩, he, heq⟩ := List.mem_map.mp hmem
    obtain ⟨rfl, hcallees, -⟩ : x = method ∧ l.callees = callees ∧ n.moduleUsers.get? x = used := by
      simpa using heq
    refine ⟨N, l, ?_, hcallees⟩
    unfold Sinks.links?
    rw [hn]
    exact Table.get?_of_mem_entries (hss.unique N n hn) (List.mem_filter.mp he).1

lemma keeping_publishSinks : Keeping publishSinks := by
  intro C w₀
  refine brings_read reads_moduleName fun _ => ?_
  refine brings_read reads_currentModule fun m => ?_
  refine brings_getWorld_bind fun w _ hsound => ?_
  refine brings_read reads_currentImports fun _ => ?_
  refine .bind (brings_forM fun (method, callees, used) hentry => ?_) fun _ =>
    brings_forM fun (method, callees, used) _ => ?_
  · have hlinks (hC : C) := links?_of_published (hsound hC).orderly (Table.mem_of_mem_ofList hentry)
    refine brings_read reads_getWorld fun w' => .ite ?_ (.pure _)
    refine (brings_shareCallees hsound hlinks).bind fun _ => ?_
    refine brings_read reads_getWorld fun w' => brings_forM fun _ _ => ?_
    refine .ite (.pure _) ?_
    split
    · refine (noting_onSinks leads_createNode).brings.bind fun _ => ?_
      refine brings_read reads_getWorld fun w' => brings_need.bind fun l => ?_
      exact (noting_mapSinks fun ss => settles_insertSet ss _ _).brings
    · exact .throw
  · cases used with
    | none => exact .pure _
    | some id =>
      refine brings_read reads_getWorld fun _ => .ite ?_ (.pure _)
      exact Noting.brings (noting_mapSinkNode fun _ => ⟨rfl, rfl, rfl⟩)

lemma noting_publishMiddles : Noting publishMiddles := by
  refine reads_moduleName.next fun _ => ?_
  refine reads_currentImports.next fun _ => .forM fun m _ => ?_
  refine reads_getWorld.next fun w => ?_
  split
  · exact .pure
  · exact .forM fun (method, l) _ => noting_mapMiddles

lemma keeping_publish : Keeping publish := by
  refine keeping_read reads_getOwn fun _ => ?_
  extract_lets last
  have hlast (u : Unit) : Noting (last u) := noting_mapOwn _
  refine .ite (keeping_read reads_moduleName fun _ => ?_) (hlast ()).keeping
  refine keeping_read reads_getWorld fun w => .when keeping_publishSinks (Noting.keeping ?_)
  exact reads_getWorld.next fun w => .when noting_publishMiddles (hlast ())

lemma noting_listClass : Noting listClass := by
  refine reads_getFrame.next fun f => .pure_or ?_
  exact reads_currentClass.next fun _ => noting_touchClass.bind_pure

lemma noting_noteElement {cls : Option String} : Noting (noteElement cls e) := by
  unfold noteElement
  split
  · exact reads_getOwn.next fun _ => .or_pure noting_addMember
  · split
    · exact noting_noteField
    · exact .pure
  · exact .pure

/-! ### Other statements -/

lemma noting_noteElementOf : Noting (noteElementOf value) := by
  unfold noteElementOf
  split
  · exact .pure
  · refine reads_currentNs.next fun _ => reads_moduleName.next fun _ => ?_
    exact noting_mapModule_of_eq fun _ => rfl

lemma noting_noteOwnField {field : String} : Noting (noteOwnField field) :=
  reads_currentClass.next fun _ => noting_touchClass.bind fun _ => noting_noteField

lemma keeping_noteReturned : Keeping (noteReturned value) := by
  intro C w₀
  refine brings_read reads_currentNs fun _ => ?_
  split
  · refine brings_read reads_getOwn fun _ => .ite ?_ (.pure _)
    split
    · exact (noting_mapOwn _).brings
    · exact .pure _
  · rename_i attr
    refine brings_read reads_currentClass fun _ => ?_
    refine brings_getWorld_bind fun w _ hsound => brings_ite (fun hrow => ?_) fun _ => .pure _
    have hknown (hC : C) := (hsound hC).known_of_row hrow (by simp)
    refine brings_read reads_moduleName fun module => ?_
    refine (brings_callsSink fun hC _ hw' _ => hw'.known (hknown hC module)).bind fun _ => ?_
    exact (brings_leadsToSink _ false nofun).bind fun _ => noting_noSuperAdd.brings
  · refine brings_read reads_currentModule fun m => ?_
    split
    · exact (noting_addCaller _ _).brings.bind fun _ => (noting_addCaller _ _).brings
    · exact .pure _
  · exact .pure _

/-! ### The walk -/

lemma noting_enterFile : Noting enterFile := by
  refine reads_getFrame.next fun f => noting_ensureImportNode.bind fun _ => ?_
  refine reads_fileText.next fun _ => reads_program.next fun _ => ?_
  refine noting_setCurrent.bind fun _ => noting_ensureModule.bind fun _ => ?_
  refine reads_getWorld.next fun w => ?_
  extract_lets last rest
  have hrest (u : Unit) : Noting (rest u) :=
    .bind (noting_mapModule_of_eq fun _ => rfl) fun _ => .pure
  refine .ite ((noting_onSinks leads_setCallers).bind hrest) ?_
  exact reads_getWorld.next fun w => .when noting_onMiddles (hrest ())

lemma noting_noteMembers : Noting (noteMembers body) := by
  refine .forM fun s _ => ?_
  split
  · exact noting_addMember
  · exact noting_addMember
  · exact .pure

lemma keeping_spreadModule : Keeping (mapWorld fun w =>
      { w with sinks := w.sinks.spreadModule (World.callersAt w.modules) module } : Link Unit) :=
  fun _ _ => brings_spreadModule

lemma visits_of_loose {v w : Node → Link Unit} (h : ∀ p n, p.loose → AlikeAt E I p (v n) (w n))
    (hp : p.loose) : Visits E I Any p v w :=
  ⟨fun n _ => h p n hp, fun q hq n _ => h q n (hq.loose_eq.trans hp)⟩

namespace Linking

variable {v w : Node → Link Unit}
  {callAgain callAgain' : CallSite → Link Unit} {follow follow' : Import → Link Unit}
  (hI : Linking E I)

include hI

lemma classDef (h : AlikeOn E I (p.inClass c.name) v w .stmt c.body) :
    AlikeAt E I p (classDef v c) (classDef w c) := by
  refine .bind (hI.inClass c.name ?_) fun _ => hI.mapOwn
  refine (hI.keeps keeping_enterClass).bind fun _ => (Alike.forM h).bind fun _ => ?_
  exact hI.aside noting_leaveClass

lemma functionBody {name : String} {params : Names}
    (h : AlikeOn E I p v w .stmt body) (hasInner : Bool) :
    AlikeAt E I p (functionBody v name params hasInner body)
      (functionBody w name params hasInner body) := by
  induction body generalizing hasInner with
  | nil => exact .pure _
  | cons s ss ih =>
    have hs := h s List.mem_cons_self
    have hss (c : Bool) := ih (fun s hs => h s (List.mem_cons_of_mem _ hs)) c
    refine .ite ?_ (hs.bind fun _ => hss _)
    refine hI.mapOwn.bind fun _ => .bind (hI.aside (noting_mapModule_of_eq fun m => ?_)) fun _ =>
      hs.bind fun _ => hss _
    rfl

lemma functionDef (h : AlikeOn E I (p.inFunction f.name) v w .stmt f.body) :
    AlikeAt E I p (functionDef v f) (functionDef w f) := by
  refine (hI.reads reads_currentNs).bind fun _ => .bind (hI.inFunction f.name ?_) fun _ =>
    hI.mapOwn
  refine (hI.aside noting_enterFunction).bind fun _ => .ite (.pure _) ?_
  refine (hI.keeps keeping_takeParams).bind fun _ => ?_
  exact (hI.functionBody h _).bind fun _ => .ite hI.mapOwn (.pure _)

lemma assignedValue (hp : p.loose) (h : Visits E I Any p v w)
    {name : Option String} :
    AlikeAt E I p (assignedValue v name value) (assignedValue w name value) := by
  have hvalue : AlikeAt E I p (v (.expr value)) (w (.expr value)) := h.here _ trivial
  unfold ImportLinks.assignedValue
  cases name with
  | none => exact hvalue
  | some name =>
    refine .look (fun _ => rfl) fun ns => ?_
    by_cases hns : ns = ""
    · rw [if_pos hns, if_pos hns]
      by_cases hempty : ∀ n ∈ p.names, n = ""
      · refine Alike.mono ?_ fun s hs => hs.1
        refine (hI.move.turn (q := p.inBlock name) (fun _ => ⟨_, _, _, rfl⟩) fun g hg => ?_).bind
          fun _ => (h.inside _ p.holds_inBlock (.expr value) nofun).bind fun _ =>
          hI.move.turn (fun _ => ⟨_, _, _, rfl⟩) fun g hg => ?_
        · exact ⟨hg.push, hg.methods, hg.classes⟩
        · exact ⟨⟨p.names.length, by simpa [hp] using hempty, by simp⟩, hg.methods, hg.classes⟩
      · -- such a place has a namespace
        rintro s ⟨⟨hat, -⟩, hdotted⟩
        exact absurd (hat.names_of_dotted (hdotted.trans hns)) hempty
    · rw [if_neg hns, if_neg hns]
      exact hvalue.mono fun s hs => hs.1

lemma assignName (h : ∀ n, AlikeAt E I p (v n) (w n)) :
    AlikeAt E I p (assignName v t value id) (assignName w t value id) := by
  refine (hI.reads reads_getOwn).bind fun _ => (hI.reads reads_getWorld).bind fun _ => ?_
  have halias : AlikeAt E I p (noteAlias t id) (noteAlias t id) := hI.aside noting_noteAlias
  split
  · exact hI.mapOwn.bind fun _ => halias
  · refine .ite ?_ (.when (h _) halias)
    split
    · exact hI.mapOwn.bind fun _ => halias
    · exact halias

lemma assign (hp : p.loose) (h : Visits E I Any p v w) :
    AlikeAt E I p (assign v value targets) (assign w value targets) := by
  have hv (n : Node) : AlikeAt E I p (v n) (w n) := h.here n trivial
  refine (hI.aside noting_assignClass).bind fun _ => ?_
  refine .bind (.foldlM (fun t e _ => ?_)) fun t => ?_
  · exact (hv _).bind fun _ => hI.aside noting_noteTarget
  refine (hI.assignedValue hp h).bind fun _ => ?_
  extract_lets last
  have hlast (u : Unit) : AlikeAt E I p (last u) (last u) := hI.mapOwn
  clear_value last
  split
  · exact (hI.assignName hv).bind hlast
  · exact (hI.aside noting_assignCall).bind hlast
  · split
    · exact hI.need.bind fun c => (hI.aside (noting_addCaller _ _)).bind hlast
    · exact hlast ()
  · exact hlast ()

lemma list (h : ∀ n, AlikeAt E I p (v n) (w n)) {elts : List Expr} :
    AlikeAt E I p (list v elts) (list w elts) := by
  refine (hI.aside noting_listClass).bind fun _ => .bind (.forM fun e _ => ?_) fun _ =>
    hI.keeps keeping_publish
  exact (h _).bind fun _ => hI.aside noting_noteElement

lemma forLoop (h : ∀ n, AlikeAt E I p (v n) (w n)) {iter : Expr} :
    AlikeAt E I p (forLoop v iter body) (forLoop w iter body) := by
  have hbody : AlikeAt E I p (body.forM fun s => v (.stmt s)) (body.forM fun s => w (.stmt s)) :=
    .forM fun s _ => h _
  unfold ImportLinks.forLoop
  split
  · exact (h _).bind fun _ => hbody
  · exact (hI.aside noting_noteOwnField).bind fun _ => hbody
  · exact (Alike.forM fun e _ => h _).bind fun _ => hbody
  · exact hbody

lemma returned (h : ∀ n, AlikeAt E I p (v n) (w n)) :
    AlikeAt E I p (returned v value) (returned w value) :=
  (h _).bind fun _ => hI.keeps keeping_noteReturned

lemma returnedValue (h : ∀ n, AlikeAt E I p (v n) (w n)) {value : Option Expr} : AlikeAt E I p
      (match value with | some e => ImportLinks.returned v e | none => pure ())
      (match value with | some e => ImportLinks.returned w e | none => pure ()) := by
  cases value with
  | none => exact .pure _
  | some e => exact hI.returned h

lemma rule (hp : p.loose) (h : Visits E I Any p v w)
    (hcall : ∀ c, AlikeAt E I p (callAgain c) (callAgain' c))
    (hfollow : ∀ i, AlikeAt E I p (follow i) (follow' i)) {n : Node} :
    AlikeAt E I p (rule v callAgain follow n) (rule w callAgain' follow' n) := by
  have hv (n : Node) : AlikeAt E I p (v n) (w n) := h.here n trivial
  unfold ImportLinks.rule
  split
  · exact hfollow _
  · exact hI.classDef fun s _ => h.inside _ p.holds_inClass _ isPart_stmt
  · exact hI.functionDef fun s _ => h.inside _ p.holds_inFunction _ isPart_stmt
  · exact hI.assign hp h
  · split
    · exact (hI.assign hp h).bind fun _ => hI.aside noting_hintedField
    · exact (Alike.forM fun e _ => hv _).bind fun _ => hI.aside noting_hintedField
  · exact hI.forLoop hv
  · exact hI.returnedValue hv
  · exact hI.returnedValue hv
  · exact hI.call hv hcall
  · exact (hv _).bind fun _ => hI.aside noting_noteElementOf
  · exact hI.list hv
  · exact .pure _
  · exact .forM fun c _ => hv c

lemma visit (hfollow : ∀ p i, AlikeAt E I p (follow i) (follow' i)) (fuel : Nat) :
    (∀ p n, p.loose → AlikeAt E I p (visit follow fuel n) (visit follow' fuel n)) ∧ ∀ p c, p.loose →
        AlikeAt E I p (visitCall follow fuel c) (visitCall follow' fuel c) := by
  induction fuel with
  | zero => exact ⟨fun _ _ _ => hI.throws, fun _ _ _ => hI.throws⟩
  | succ fuel ih =>
    obtain ⟨hvisit, hcall⟩ := ih
    refine ⟨fun p n hp => ?_, fun p c hp => ?_⟩
    · exact hI.rule hp (visits_of_loose hvisit hp) (fun c => hcall p c hp) (hfollow p)
    · exact hI.call (fun n => hvisit p n hp) (fun c => hcall p c hp)

lemma walkBody (hp : p.loose) (h : Visits E I Any p v w) :
    AlikeAt E I p (walkBody v body) (walkBody w body) := by
  refine (hI.aside noting_noteMembers).bind fun _ => ?_
  refine (Alike.forM fun s _ => h.here _ trivial).bind fun _ =>
    (hI.reads reads_getFrame).bind fun f => ?_
  refine (hI.reads reads_getOwn).bind fun own => .ite ?_ hI.mapOwn
  exact (hI.reads reads_getOwn).bind fun _ => (hI.assign hp h).bind fun _ => hI.mapOwn

end Linking

/-! ### Imported modules -/

/-- How imports are followed under the invariant `I`: to modules with `P`, where `K` is known. -/
structure Entering (E I : Walk ImportLinks → Prop) (P : String → Prop)
    (K : String → Walk ImportLinks → Prop) (renew renew' enter enter' : String → Link Unit) :
    Prop where
  found : ∀ s full level m t, I s →
    Imports.importModule full level s.world.imports = (.ok (some m), t) → P m
  known : ∀ s m, P m → I s → s.world.imports.fileOf m ≠ "" → K m s
  renews : ∀ (p : Place) m, P m →
    Alike E (fun s => p.At s.frame ∧ I s ∧ s.world.imports.fileOf m ≠ "" ∧ m ∈ s.world.chain)
      (fun s => p.At s.frame ∧ K m s) (renew m) (renew' m)
  step : ∀ m, Stable (K m) (Aside (World.Notes fun _ => False))
  fails : ∀ s m, K m s → E s
  analyzed : ∀ s m, K m s → m ∈ s.frame.analyzed.names → I s
  enters : ∀ (p : Place) m, P m → Alike E (fun s => p.At s.frame ∧ K m s ∧
    m ∉ s.frame.analyzed.names)
    (fun s => p.At s.frame ∧ I s) (enter m) (enter' m)

lemma mem_of_renews {w : World} (h : renews w renewed m) : m ∈ w.chain := by
  simp only [renews, Bool.and_eq_true, List.contains_iff_mem] at h
  exact h.1.1.1

lemma alike_renew {J : Walk ImportLinks → Prop} (hfails : ∀ s, I s → E s)
    (h : ∀ s, I s → J { s with frame := { s.frame with analyzed := s.frame.analyzed.erase m } }) :
    Alike E (Here p I) (Here p J) (renew m) (renew m) := by
  refine .look (fun _ => rfl) fun c => ?_
  cases c with
  | false => exact .throw (fun s hs => hfails s hs.1.2) _
  | true =>
    rintro s ⟨⟨hp, hs⟩, -⟩
    exact ⟨rfl, ⟨hp.names, hp.methods, hp.classes⟩, h s hs⟩

namespace Linking

variable {P : String → Prop}
  {K : String → Walk ImportLinks → Prop} {renew renew' enter enter' : String → Link Unit}
  (hI : Linking E I) (henter : Entering E I P K renew renew' enter enter')

include hI henter

lemma entering (hm : P m) : Alike E (Here p (K m)) (Here p I) (do
        noteImport statement m target
        unless ← isAnalyzed m do enter m
        noteImported m a
        return renewed)
      (do
        noteImport statement m target
        unless ← isAnalyzed m do enter' m
        noteImported m a
        return renewed) := by
  have hlast : AlikeAt E I p (noteImported m a >>= fun _ => pure renewed)
      (noteImported m a >>= fun _ => pure renewed) :=
    (hI.aside noting_noteImported).bind fun _ => .pure _
  have hnote : AlikeAt E (K m) p (noteImport statement m target)
      (noteImport statement m target) := by
    refine .of_leads noting_noteImport ?_ fun s hs => henter.fails s m hs.2
    exact fun s t hs hst => ⟨hst.at hs.1, henter.step m s t hs.2 hst⟩
  refine hnote.bind fun _ => .look (fun _ => rfl) fun c => ?_
  cases c with
  | true =>
    refine hlast.mono fun s hs => ⟨hs.1.1, henter.analyzed s m hs.1.2 ?_⟩
    simpa using hs.2
  | false =>
    refine Alike.bind ((henter.enters p m hm).mono fun s hs => ⟨hs.1.1, hs.1.2, ?_⟩) fun _ => hlast
    simpa using hs.2

lemma importName : AlikeAt E I p (importName renew enter statement renewed a)
      (importName renew' enter' statement renewed a) := by
  refine Alike.bind_of (P := fun v => ∀ m, v = some m → P m)
    (hI.aside (noting_onImports (Imports.extends_importModule _ _))) ?_ fun v hv => ?_
  · rintro s v t ⟨-, hs⟩ hrun m rfl
    exact henter.found s _ _ m _ hs (run_of_onImports hrun)
  split
  · exact hI.mapOwn.bind fun _ => .pure _
  · next m hm =>
    have hPm : P m := hv m (eq_some_of_given? hm)
    refine hI.mapOwn.bind fun _ => .look (fun _ => rfl) fun w => ?_
    by_cases hfile : w.imports.fileOf m = ""
    · rw [if_pos hfile, if_pos hfile]
      exact (Alike.pure _).mono fun s hs => hs.1
    · rw [if_neg hfile, if_neg hfile]
      cases hagain : ImportLinks.renews w renewed m with
      | false =>
        refine (hI.entering henter hPm).mono ?_
        rintro s ⟨hs, rfl⟩
        exact ⟨hs.1, henter.known s m hPm hs.2 hfile⟩
      | true =>
        refine .bind ((henter.renews p m hPm).mono ?_) fun _ => hI.entering henter hPm
        rintro s ⟨hs, rfl⟩
        exact ⟨hs.1, hs.2, hfile, mem_of_renews hagain⟩

lemma importing (i : Import) : AlikeAt E I p (importing (ImportLinks.importName renew enter) i)
      (importing (ImportLinks.importName renew' enter') i) := by
  refine (hI.reads reads_getWorld).bind fun _ => (hI.reads reads_moduleName).bind fun _ => ?_
  refine .ite (.pure _) (.bind (.foldlM (fun _ a _ => ?_)) fun _ => .pure _)
  exact hI.importName henter

end Linking

/-! ### Invariants of the world -/

section World

variable {I : World → Prop}

lemma entering_of_world (hI : Linking Any (OfWorld I)) {run : Link Unit}
    (hrun : UpholdsAt Any (OfWorld I) { loose := true } run) :
    Entering Any (OfWorld I) Any (fun _ s => I s.world) renew renew (enter run) (enter run) where
  found _ _ _ _ _ _ _ := trivial
  known _ _ _ hs _ := hs
  renews p m _ := (alike_renew (fun _ _ => trivial) fun _ hs => hs).mono fun s hs => ⟨hs.1, hs.2.1⟩
  step _ s t hs hst := hI.step s t hs hst
  fails _ _ _ := trivial
  analyzed _ _ hs _ := hs
  enters p m _ := by
    have hcurrent (w : World) (module file : String) :
        w.Notes (fun _ => False) { w with imports := w.imports.setCurrent module file } :=
      { World.Notes.refl w with imports := w.imports.extends_setCurrent module file }
    refine Alike.mono (I := fun s => p.At s.frame ∧ I s.world) ?_ fun s hs => ⟨hs.1, hs.2.1⟩
    refine (hI.reads reads_getOwn).bind fun _ => ?_
    exact alike_submodule (E := fun _ => True) hI.toTolerant hcurrent hrun.alike

/-- An invariant of the world is kept by the walk through a file and what it imports. -/
lemma upholds_analyze (hI : Linking Any (OfWorld I))
    (hchain : ∀ w chain, I w → I { w with chain }) (depth : Nat) (hp : p.loose) :
    UpholdsAt Any (OfWorld I) p (analyze depth) := by
  induction depth generalizing p with
  | zero => exact hI.fault
  | succ depth ih =>
    have hchained {f : World → List String} (q : Place) : UpholdsAt Any (OfWorld I) q
          (mapWorld fun w => { w with chain := f w } : Link Unit) :=
      fun s hs => ⟨hs.1, hchain s.world _ hs.2⟩
    have henter := entering_of_world hI (ih rfl)
    have hvisit := (hI.visit (fun q i => hI.importing henter i) depthBound).1
    refine (hI.leads noting_enterFile).bind fun _ => (hI.leads reads_getFrame.leads).bind
      fun f => ?_
    refine (hchained p).bind fun _ => ?_
    refine (hI.walkBody hp (visits_of_loose hvisit hp)).upholds.bind fun _ => ?_
    refine (hchained p).bind fun _ => (hI.leads reads_getWorld.leads).bind fun w => ?_
    refine Upholds.bind (J := fun s => p.At s.frame ∧ I s.world) (fun s hs => ?_) fun _ => ?_
    · exact ⟨⟨hs.1.names, hs.1.methods, hs.1.classes⟩, hs.2⟩
    · exact hI.keeping p keeping_spreadModule

end World

lemma linking_of_surveys (hstep : Stable I (Aside (World.Surveys fun _ => False)))
    (hfails : ∀ s, I s → E s)
    (hmove : Moves I) : Linking E I :=
  { tolerant_notes (stable_notes hstep) hfails hmove with
    keeping := fun p h => upholdsAt_of_surveying hstep hfails h.surveying p }

lemma linking_sound : Linking Any fun s => Grows w₀ s.world ∧ Sound (fun _ _ => False) s.world := by
  refine { tolerant_notes (fun s t hs hst => ?_) (fun _ _ => trivial)
    (fun s _ _ _ hs => hs) with keeping := fun {_ a} p h s hs => ?_ }
  · obtain ⟨hgrows, hsound⟩ := hs.2.settle hst.world.sinks hst.world.callers
    exact ⟨hs.1.trans hgrows, hsound⟩
  · have haside := h.surveying.step s
    rcases hrun : a s with ⟨_ | u, t⟩
    · trivial
    · rw [hrun] at haside
      obtain ⟨hgrows, hsound⟩ := (h True w₀).sound trivial s u t hrun hs.2.1 hs.2.2
      exact ⟨haside.at hs.1, hs.2.1.trans hgrows, hsound⟩

lemma sound_analyze {depth : Nat} {s t : Walk ImportLinks} {v : Unit}
    (hrun : analyze depth s = (.ok v, t)) (hs : Grows w₀ s.world ∧
      Sound (fun _ _ => False) s.world) :
    Grows w₀ t.world ∧ Sound (fun _ _ => False) t.world := by
  have hchain (w : World) (chain : List String) (hw : Grows w₀ w ∧ Sound (fun _ _ => False) w) :
      Grows w₀ { w with chain } ∧ Sound (fun _ _ => False) { w with chain } := by
    refine And.imp_left hw.1.trans ?_
    exact hw.2.settle (.refl _) .refl
  have hend := upholds_analyze (I := fun w => Grows w₀ w ∧ Sound (fun _ _ => False) w)
    linking_sound hchain depth (p := { Place.ofFrame s.frame with loose := true }) rfl s
    ⟨Place.at_of_eq rfl rfl rfl, hs⟩
  rw [hrun] at hend
  exact hend.2

end SinkTrace.ImportLinks
