import SinkTrace.Proofs.Walk.Keeping
import SinkTrace.Walk.ImportLinks.Basic

/-!
# The rules of the second pass keep the world sound

Each rule by which a method that leads to a sink brings another one brings the blocks around that
one too, or names it because of a note, an entry or a method that is there.
-/

namespace SinkTrace

namespace ModuleInfo

variable {m : ModuleInfo} {x : String}

@[simp] lemma callers_addMember : (m.addMember x).callers = m.callers := by
  unfold addMember
  split_ifs <;> rfl

@[simp] lemma callers_addModuleMethod : (m.addModuleMethod x).callers = m.callers := by
  unfold addModuleMethod
  split_ifs <;> rfl

lemma mem_callers_addCaller {callee caller : String} {c : String} (h : c ∈ m.callers.getD x []) :
    c ∈ (m.addCaller callee caller).callers.getD x [] := by
  change c ∈ (m.callers.set callee _).getD x []
  rw [Table.getD_set]
  split_ifs with hx
  · exact List.mem_append_left _ (hx ▸ h)
  · exact h

end ModuleInfo

namespace ImportLinks

open Act Walk World Sinks

variable {C : Prop} {but : String → String → Prop} {w₀ : World}
  {callee cls method module ns : String}
  {callees : Sinks → Names} {f : ModuleInfo → ModuleInfo} {fuel : Nat}

/-! ### The current module -/

lemma reads_currentClass : Reads currentClass := fun _ => .refl

lemma reads_currentModule : Reads currentModule :=
  reads_getWorld.bind fun _ => reads_moduleName.bind fun _ => .need

lemma noting_mapModule (hf : ∀ m x, ∀ c ∈ m.callers.getD x [], c ∈ (f m).callers.getD x []) :
    Noting (mapModule f) :=
  reads_currentModule.next fun _ => reads_moduleName.next fun name => noting_adjust name hf

lemma noting_mapModule_of_eq (hf : ∀ m, (f m).callers = m.callers) : Noting (mapModule f) :=
  noting_mapModule fun m x c _ => by rwa [hf m]

lemma noting_touchClass : Noting (touchClass cls) :=
  .bind (noting_mapModule_of_eq fun _ => rfl) fun _ =>
    reads_currentModule.leads.bind_pure

lemma noting_innerClass : Noting (innerClass module cls) := by
  refine reads_getWorld.next fun w => .when .throw ?_
  refine Leads.bind (noting_modifyInner fun _ _ _ hc => ?_) fun _ =>
    reads_getWorld.leads.bind_pure
  exact hc

lemma noting_addRealBase {real : String} : Noting (addRealBase module cls real) := by
  refine noting_innerClass.bind fun _ => noting_modifyInner fun _ _ _ hc => ?_
  exact hc

lemma noting_noteField {field : String} : Noting (noteField cls field) :=
  reads_currentNs.next fun _ => reads_moduleName.next fun _ =>
    noting_mapModule_of_eq fun _ => rfl

lemma noting_addCaller (callee caller : String) : Noting (addCaller callee caller) :=
  noting_mapModule fun _ _ _ hc => ModuleInfo.mem_callers_addCaller hc

lemma reads_classInNs : Reads (classInNs cls) := by
  refine reads_currentNs.bind fun _ => ?_
  split <;> exact .pure

/-! ### Sinks -/

lemma brings_addCallee_of_known (h : C → w₀.Known module method) :
    Brings C but but w₀ (addCallee module method callee) :=
  brings_knownMethod h fun ss => extends_addCallee ss module method callee

lemma brings_addCallee :
    Brings C (fun _ _ => False) (Only module method) w₀ (addCallee module method callee) :=
  brings_newMethod fun ss => extends_addCallee ss module method callee

lemma hasMethod_addCallee {s t : Walk ImportLinks} {v : Unit}
    (hmodule : (s.world.sinks.node? module).isSome)
    (hrun : addCallee module method callee s = (.ok v, t)) :
    t.world.sinks.HasMethod module method := by
  cases hrun
  exact hasMethod_ensureLinks.mpr (.inr ⟨⟨rfl, rfl⟩, hmodule⟩)

lemma noting_spreadModulesOutward (inner : String) :
    Noting (spreadModulesOutward module ns fuel inner) := by
  induction fuel generalizing inner with
  | zero => exact .pure
  | succ fuel ih =>
    unfold spreadModulesOutward
    split
    · exact .pure
    · refine reads_getWorld.next fun w => .when ?_ (ih _)
      refine noting_mapSinks fun _ => ?_
      exact (settles_addModuleUsers ..).trans
        ((settles_addPotentModule ..).trans (settles_addModuleMod ..))

lemma noting_ensureSinkNodeOf : Noting (ensureSinkNodeOf module) := by
  refine reads_getWorld.next fun w => .pure_or ?_
  refine reads_getWorld.next fun w => ?_
  refine (noting_onSinks (leads_createNode.bind fun _ => leads_setFilename)).bind fun _ => ?_
  have hcallers : Noting (onSinks (setCallers module (.ofModule module)) :
      Link Unit) := noting_onSinks leads_setCallers
  split
  · exact noting_addSource.bind fun _ => hcallers
  · exact hcallers

lemma isSome_of_ensureSinkNodeOf {s t : Walk ImportLinks} {v : Unit}
    (hrun : ensureSinkNodeOf module s = (.ok v, t)) : (t.world.sinks.node? module).isSome := by
  obtain ⟨w, s₁, hw, hrun⟩ := of_bind hrun
  cases hw
  rw [run_ite] at hrun
  split_ifs at hrun with hmodule
  · cases hrun
    rwa [Table.contains_eq_isSome] at hmodule
  · -- the node gets its callers last, which needs it to be there
    have hcallers {s : Walk ImportLinks}
        (hrun : (onSinks (setCallers module (.ofModule module)) : Link Unit) s = (.ok v, t)) :
        (t.world.sinks.node? module).isSome := isSome_of_setCallers (run_of_onSinks hrun)
    obtain ⟨_, _, -, hrun⟩ := of_bind hrun
    obtain ⟨_, _, -, hrun⟩ := of_bind hrun
    split at hrun
    · obtain ⟨_, _, -, hrun⟩ := of_bind hrun
      exact hcallers hrun
    · exact hcallers hrun

lemma noted_of_inner {ms : Modules} {caller : String}
    (h : caller ∈ (((ms.inner.get? module).map ModuleInfo.callers).getD {}).getD method []) :
    caller ∈ ms.noted module method := by
  unfold Modules.noted Modules.get?
  cases hm : ms.inner.get? module with
  | none =>
    rw [hm] at h
    cases h
  | some m =>
    rw [hm] at h
    exact h

lemma brings_linkSuperCalls {links : Links} :
    Brings C but but w₀ (linkSuperCalls module method links) := by
  refine brings_getWorld_bind fun w _ _ => brings_forM fun _ hcaller => ?_
  have hnoted := noted_of_inner hcaller
  split
  · exact .pure _
  · rename_i sub subMethod hsplit
    rw [(Text.splitOn_eq_pair rfl hsplit).1] at hnoted
    have hknown : w.Known sub subMethod := .inr (.inr (.superCaller hnoted))
    refine brings_read reads_getWorld fun _ => .ite ?_ (.pure _)
    refine (brings_addCallee_of_known (fun _ => hknown)).bind fun _ => ?_
    exact (noting_mapSinks fun ss => settles_insertSet ss _ _).brings
  · exact .throw

lemma reads_realModule : Reads (realModule module cls) :=
  reads_getWorld.bind fun _ => Leads.need.bind_pure

lemma reads_isInitialModule : Reads (isInitialModule module) :=
  reads_getWorld.bind fun _ => Leads.need.bind_pure

lemma reads_directMethod : Reads directMethod := reads_getFrame.bind fun _ => .pure_or .pure

lemma brings_liftSink (module : String) (method : Option String) (cls : String) :
    Keeps C w₀ (liftSink fuel module method cls) := by
  induction fuel generalizing w₀ module method cls with
  | zero => exact .throw
  | succ fuel ih =>
    unfold liftSink
    split
    · exact .pure _
    rename_i method _
    refine .ite (.pure _) (noting_innerClass.brings.bind fun _ => ?_)
    refine brings_forStable fun (sup, supModule) _ => .ite (.pure _) ?_
    refine brings_read reads_getWorld fun w => .when .throw ?_
    refine .bind (Noting.brings (noting_mapSinkNode fun _ => ⟨rfl, rfl, rfl⟩)) fun _ => ?_
    refine brings_read reads_getWorld fun w => .ite (ih _ _ _) ?_
    refine noting_ensureSinkNodeOf.brings.bind_of (P := fun _ w => (w.sinks.node? supModule).isSome)
      (fun _ _ _ _ hrun _ _ => isSome_of_ensureSinkNodeOf hrun) fun _ _ _ hnode => ?_
    set supMethod := Text.replace sup (supModule ++ ".") "" ++ "." ++ method
    refine brings_addCallee.bind_of (P := fun _ w => w.sinks.HasMethod supModule supMethod)
      (fun hC _ _ _ hrun hbase _ => hasMethod_addCallee (hbase.sinks.nodes _ (hnode hC)) hrun)
      fun _ w₂ _ hmethod => ?_
    refine brings_read reads_getWorld fun w => ?_
    extract_lets again rest
    have hrest (r : Unit) : Brings C (Only supModule supMethod) (fun _ _ => False) w₂ (rest r) := by
      refine (brings_register hmethod (.inl rfl)).bind fun _ => ?_
      refine brings_read reads_getWorld fun w => brings_need.bind fun _ => ?_
      refine .bind (noting_mapSinks fun ss => settles_insertSet ss _ _).brings fun _ => ?_
      refine (brings_spreadOutward hmethod).bind fun _ => ?_
      refine brings_read reads_isInitialModule fun b => .ite ?_ (ih _ _ _)
      refine brings_read reads_realModule fun _ => ?_
      split
      · exact .pure _
      · exact noting_addRealBase.brings.bind fun _ => ih _ _ _
    split
    · exact brings_linkSuperCalls.bind hrest
    · exact hrest ()

lemma extends_withCallees (module method : String) (callees : Sinks → Names) (ss : Sinks) :
    Extends (Only module method) (fun _ _ => False) ss (withCallees module method callees ss) :=
  extends_ensureSet ss module method (·.callees) fun _ _ hn => Names.mem_union.mpr (.inl hn)

lemma hasMethod_withCallees {ss : Sinks} (hmodule : (ss.node? module).isSome) :
    (withCallees module method callees ss).HasMethod module method :=
  hasMethod_ensureLinks.mpr (.inr ⟨⟨rfl, rfl⟩, hmodule⟩)

lemma mem_calleesOf_withCallees {w : World} (hw : w.sinks.Orderly)
    (hmodule : (w.sinks.node? module).isSome) (method : String)
    (hcallee : ∀ ss, callee ∈ callees ss) :
    callee ∈ (w.mapSinks (withCallees module method callees)).calleesOf module method := by
  obtain ⟨l, hl, hmem⟩ := mem_callees_ensureSet hw hmodule method
   
    fun s => Names.mem_union.mpr (.inr (hcallee _))
  change callee ∈ (((withCallees module method callees w.sinks).links? module method).map
    fun l => (withCallees module method callees w.sinks).setOf l.callees).getD []
  have hlinks : (withCallees module method callees w.sinks).links? module method = some l := hl
  rw [hlinks]
  exact hmem

lemma brings_withCallees_of_made (hmodule : C → (w₀.sinks.node? module).isSome) {name : String}
    (hcallee : ∀ ss, callee ++ ":" ++ name ∈ callees ss) (hname : C → w₀.MadeFrom name) :
    Brings C but but w₀ (mapSinks (withCallees module method callees) : Link Unit) := by
  refine brings_mapSinks fun hC w hbase hsound => ?_
  have hextends := extends_withCallees module method callees w.sinks
  have hgrows : Grows w (w.mapSinks (withCallees module method callees)) :=
    grows_of_extends hextends .refl
  refine ⟨hgrows, hsound.step hextends .refl ?_ fun _ _ => False.elim⟩
  rintro X x (hbut | ⟨rfl, rfl⟩) _
  · exact .inl hbut
  · have hmem := mem_calleesOf_withCallees hsound.orderly
      (hbase.sinks.nodes _ (hmodule hC)) x hcallee
    exact .inr (.inr (.maker hmem ((hbase.trans hgrows).madeFrom (hname hC))))

lemma brings_registerMethod (h : C → w₀.sinks.HasMethod module ns) :
    Keeps C w₀ (registerMethod module ns) := by
  refine brings_read reads_getFrame fun f => ?_
  have hk : (if f.classes.isEmpty then ns ++ "-l" else ns) = ns ∨
      (if f.classes.isEmpty then ns ++ "-l" else ns) = ns ++ "-l" := by
    split_ifs
    · exact .inr rfl
    · exact .inl rfl
  refine (brings_register h hk).bind fun _ => brings_read reads_directMethod fun _ => ?_
  exact brings_read reads_currentClass fun _ => brings_liftSink _ _ _

lemma brings_leadsToSink (callees : Sinks → Names) (keepInside : Bool)
    (hinside : keepInside → ∃ callee name,
      (∀ ss, callee ++ ":" ++ name ∈ callees ss) ∧ (C → w₀.MadeFrom name)) :
    Keeps C w₀ (leadsToSink callees keepInside) := by
  refine brings_read reads_moduleName fun module => ?_
  refine brings_getWorld_bind fun w hw _ => brings_ite (fun _ => .pure _) fun hmodule => ?_
  refine brings_read reads_currentNs fun ns => ?_
  have hnode : (w.sinks.node? module).isSome := by
    rwa [Bool.not_eq_true', Bool.not_eq_false, Table.contains_eq_isSome] at hmodule
  have hthere (_ : C) (s : Walk ImportLinks) (v : Unit) (t : Walk ImportLinks)
      (hrun : (mapSinks (withCallees module ns callees) : Link Unit) s = (.ok v, t))
      (hbase : Grows w s.world) (_ : Sound (fun _ _ => False) s.world) :
      t.world.sinks.HasMethod module ns := by
    cases hrun
    exact hasMethod_withCallees (hbase.sinks.nodes _ hnode)
  cases keepInside with
  | true =>
    obtain ⟨callee, name, hcallee, hname⟩ := hinside rfl
    exact (brings_withCallees_of_made (fun _ => hnode) hcallee
      fun hC => (hw hC).madeFrom (hname hC)).bind_of
      hthere
      fun _ _ _ hmethod => brings_registerMethod hmethod
  | false =>
    refine (brings_newMethod (extends_withCallees module ns callees)).bind_of
      (P := fun _ w => w.sinks.HasMethod module ns) hthere fun _ _ _ hmethod => ?_
    exact (brings_spreadOutward hmethod).bind fun _ => brings_registerMethod hmethod

lemma noting_usesSinkModules {modules : Sinks → Names} : Noting (usesSinkModules modules) := by
  refine reads_moduleName.next fun _ => ?_
  refine reads_getWorld.next fun w => Leads.need.bind fun _ => ?_
  refine reads_currentNs.next fun _ => .pure_or ?_
  refine .bind (noting_mapSinks fun ss => settles_addModuleUsers) fun _ => ?_
  refine (noting_spreadModulesOutward _).bind fun _ => ?_
  refine reads_getFrame.next fun f => ?_
  exact noting_mapSinks fun _ => settles_addPotentModule

lemma brings_callsSink
    (h : C → ∀ w, Grows w₀ w → (w.sinks.node? callee).isSome → w.Known callee method) :
    Brings C but but w₀ (callsSink callee method) := by
  refine brings_getWorld_bind fun w hw _ => brings_check fun hcallee => ?_
  rw [Bool.not_eq_true', Bool.not_eq_false, Table.contains_eq_isSome] at hcallee
  refine brings_read reads_moduleName fun _ => ?_
  refine brings_read reads_currentNs fun _ => brings_knownMethod
    (fun hC => h hC w (hw hC) hcallee) ?_
  exact fun ss => extends_ensureSet ss callee method (·.callers) fun _ _ hn =>
    List.mem_insertEnd_iff.mpr (.inr hn)

lemma noting_noSuperAdd : Noting noSuperAdd :=
  reads_currentNs.next fun _ =>
    noting_mapSinks fun _ => settles_of_nodes rfl rfl rfl rfl (fun _ _ => id) le_rfl

/-! ### Middles -/

lemma noting_addMiddleCallee : Noting (addMiddleCallee module method callee) := noting_mapMiddles

lemma noting_spreadMiddleOutward {isLocal : Bool} (inner : String) :
    Noting (spreadMiddleOutward module ns isLocal fuel inner) := by
  induction fuel generalizing inner with
  | zero => exact .pure
  | succ fuel ih =>
    unfold spreadMiddleOutward
    split
    · exact .pure
    · exact noting_addMiddleCallee.bind fun _ => noting_mapMiddles.bind fun _ => ih _

lemma noting_ensureMiddleNodeOf : Noting (ensureMiddleNodeOf module) := by
  refine reads_getWorld.next fun w => .pure_or ?_
  refine reads_getWorld.next fun w => noting_onMiddles.bind fun _ => ?_
  split
  · exact noting_addSource.bind fun _ => noting_onMiddles
  · exact noting_onMiddles

lemma noting_liftMiddle (module : String) (method : Option String) (cls : String) :
    Noting (liftMiddle fuel module method cls) := by
  induction fuel generalizing module method cls with
  | zero => exact .throw
  | succ fuel ih =>
    unfold liftMiddle
    split
    · exact .pure
    refine noting_innerClass.bind fun _ => .forStable fun (sup, supModule) _ => ?_
    refine reads_getWorld.next fun w => ?_
    split
    · exact ih _ _ _
    refine noting_ensureMiddleNodeOf.bind fun _ => ?_
    refine reads_getWorld.next fun w => .pure_or ?_
    refine noting_addMiddleCallee.bind fun _ => ?_
    refine reads_getWorld.next fun w => Leads.need.bind fun _ => ?_
    refine noting_mapMiddles.bind fun _ => (noting_spreadMiddleOutward _).bind fun _ => ?_
    refine reads_isInitialModule.next fun b => .ite ?_ (ih _ _ _)
    refine reads_realModule.next fun _ => ?_
    split
    · exact .pure
    · exact noting_addRealBase.bind fun _ => ih _ _ _

lemma noting_leadsToMiddle {callees : Middles → Names} : Noting (leadsToMiddle callees) := by
  refine reads_moduleName.next fun _ => ?_
  refine reads_currentNs.next fun _ => noting_onMiddles.bind fun _ => ?_
  refine noting_mapMiddles.bind fun _ => reads_getFrame.next fun f => ?_
  refine noting_mapMiddles.bind fun _ => (noting_spreadMiddleOutward _).bind fun _ => ?_
  refine reads_directMethod.next fun _ => ?_
  exact reads_currentClass.next fun _ => noting_liftMiddle _ _ _

end ImportLinks

end SinkTrace
