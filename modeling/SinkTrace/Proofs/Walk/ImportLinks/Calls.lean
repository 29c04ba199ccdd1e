import SinkTrace.Proofs.Walk.ImportLinks.Rules
import SinkTrace.Walk.ImportLinks.Call

/-!
# Calls in the second pass keep the world sound

A call is looked up in the register, so the method that it is taken for is there, or cannot be told
from one that is.
-/

namespace SinkTrace.ImportLinks

open Act Walk World Sinks

variable {C : Prop} {but : String → String → Prop} {w' w₀ : World}
  {callee caller cls entry id method shapeOf : String} {w : World} {arg : Expr} {c : CallSite}
  {found : Names} {isClass : Bool} {r : Resolved} {receiver : Option Expr}

lemma reads_oneOf {types : Names} : Reads (oneOf types) := by
  unfold oneOf
  split
  · exact .throw
  · exact .pure

/-! ### Arguments -/

lemma noting_fieldArgument {method : Option String} :
    Noting (fieldArgument cls shapeOf method arg) := by
  unfold fieldArgument
  split
  · refine noting_noteField.bind fun _ => .or_pure ?_
    exact reads_currentNs.next fun _ => noting_addCaller _ _
  · exact .pure

lemma known_of_localEntry (hsound : Sound but w) (he : callee ∈ w.sinks.entries (id ++ "-l"))
    (hw : Grows w w') (hcallee : (w'.sinks.node? callee).isSome = true) : w'.Known callee id := by
  rcases hsound.entries _ _ he with ⟨other, hother, hmethod⟩ | ⟨mod, name, rfl, -, -⟩
  · exact hw.known (known_of_sharesEntry ⟨id ++ "-l", by simp [lookups], hother⟩ hmethod)
  · exact .inr (.inr (.marked hcallee (.inr rfl)))

lemma keeping_namedArgument : Keeping (namedArgument id) := by
  intro C w₀
  refine brings_getWorld_bind fun w _ hsound => ?_
  split
  · rename_i modules hmodules
    refine brings_forStable fun callee _ => ?_
    have he : callee ∈ w.sinks.entries (id ++ "-l") := by
      rwa [Sinks.entries, Table.getD_of_get? hmodules]
    refine (brings_callsSink fun hC _ hw' => known_of_localEntry (hsound hC) he hw').bind
      fun _ => ?_
    exact (brings_leadsToSink _ false fun h => absurd h Bool.false_ne_true).bind
      fun _ => noting_noSuperAdd.brings
  · refine brings_read reads_currentModule fun m => .ite ?_ (.pure _)
    exact brings_read reads_currentNs fun _ => (noting_addCaller _ _).brings

/-! ### Sinks -/

lemma gives_sinkCallee (r : Resolved) (isClass : Bool) (method entry : String) :
    Gives (fun next => next = method ∨ ∃ m, Text.splitOn entry "@" = [m, next])
      (sinkCallee r isClass method entry) := by
  unfold sinkCallee
  extract_lets rest
  have hrest (callee next : String) : Gives (· = next) (rest (callee, next)) := by
    refine gives_bind _ fun _ => gives_bind _ fun w => .ite (.pure rfl) ?_
    refine gives_when (gives_bind _ fun _ => ?_)
    extract_lets last
    have hlast (u : Unit) : Gives (· = next) (last u) :=
      gives_bind _ fun _ => gives_bind _ fun _ => gives_bind _ fun _ => .pure rfl
    refine .ite (gives_bind _ fun _ => .ite ?_ (hlast ())) (hlast ())
    exact gives_bind _ fun w => gives_bind _ fun l => gives_bind _ hlast
  split
  · exact fun s v t hrun => .inl (hrest entry method s v t hrun)
  · rename_i m f hmf
    exact fun s v t hrun => .inr ⟨m, by rw [hmf, hrest m f s v t hrun]⟩
  · exact fun _ _ _ hrun => nomatch hrun

/-- What an entry of the register stands for, when a call of the method is looked up. -/
def Answers (w : World) (method entry : String) : Prop :=
  ((∃ x, Text.splitOn entry "@" = [x]) → ∀ X, w.Known X method) ∧
    ∀ m f, Text.splitOn entry "@" = [m, f] → w.MadeFrom f ∧ ∀ X, w.Known X f

lemma answers_of_entry (hsound : Sound but w) {k : String} (hk : k ∈ lookups method)
    (he : entry ∈ w.sinks.entries k) : Answers w method entry := by
  refine ⟨fun ⟨x, hx⟩ => ?_, fun m f hmf => ?_⟩
  · exact hsound.known_of_entry hk he (Text.splitOn_eq_singleton rfl hx).1
  · obtain ⟨rfl, hm, hf⟩ := Text.splitOn_eq_pair rfl hmf
    exact ⟨.inr ⟨m, k, he⟩, hsound.known_of_fullName he hm hf⟩

lemma brings_sinkCallee (hentry : C → Answers w₀ method entry)
    (hmade : C → isClass = true → w₀.MadeFrom method) :
    Keeps C w₀ (sinkCallee r isClass method entry) := by
  unfold sinkCallee
  extract_lets rest
  have hrest (callee next : String) (hknown : C → w₀.Known callee next)
      (hmade : C → isClass = true → w₀.MadeFrom next) : Keeps C w₀ (rest (callee, next)) := by
    refine brings_read reads_moduleName fun _ => ?_
    refine brings_read reads_getWorld fun w => .ite (.pure _) ?_
    refine brings_check fun _ => ?_
    refine .bind (brings_knownMethod hknown fun ss => extends_ensureLinks ss callee next)
      fun _ => ?_
    extract_lets last
    have hlast (u : Unit) : Keeps C w₀ (last u) := by
      refine (brings_callsSink fun hC w hw _ => hw.known (hknown hC)).bind fun _ => ?_
      refine (brings_leadsToSink _ isClass fun h => ?_).bind fun _ =>
        noting_noSuperAdd.brings.bind fun _ => .pure _
      exact ⟨callee, next, fun _ => List.mem_singleton_self _, (hmade · h)⟩
    refine .ite ((brings_addCallee_of_known hknown).bind fun _ => .ite ?_ (hlast ())) (hlast ())
    refine brings_read reads_getWorld fun w => brings_need.bind fun l => ?_
    exact .bind ((noting_mapSinks fun ss => settles_insertSet ss _ _).brings) hlast
  split
  · rename_i x hx
    exact hrest entry method (fun hC => (hentry hC).1 ⟨x, hx⟩ entry) hmade
  · rename_i m f hmf
    exact hrest m f (fun hC => ((hentry hC).2 m f hmf).2 m) fun hC _ => ((hentry hC).2 m f hmf).1
  · exact brings_throw_bind

lemma calleeModules_entries {s t : Walk ImportLinks}
    (hrun : calleeModules r method s = (.ok found, t)) :
    t = s ∧ ∀ e ∈ found, ∃ k ∈ lookups method, e ∈ s.world.sinks.entries k := by
  have hneed {k : String} (hk : k ∈ lookups method)
      (hrun : need .absent (s.world.sinks.potentMethods.get? k) s = (.ok found, t)) :
      t = s ∧ ∀ e ∈ found, ∃ k ∈ lookups method, e ∈ s.world.sinks.entries k := by
    cases hget : s.world.sinks.potentMethods.get? k with
    | none =>
      rw [hget] at hrun
      cases hrun
    | some v =>
      rw [hget] at hrun
      cases hrun
      exact ⟨rfl, fun e he => ⟨k, hk, by rwa [Sinks.entries, Table.getD_of_get? hget]⟩⟩
  obtain ⟨w, s', hw, hrun⟩ := of_bind hrun
  cases hw
  dsimp only at hrun
  split_ifs at hrun
  · cases hrun
    exact ⟨rfl, fun e he => ⟨method, by simp [lookups], he⟩⟩
  · exact hneed (by simp [lookups]) hrun
  · cases hrun
    exact ⟨rfl, fun e he => ⟨method ++ "-l", by simp [lookups], he⟩⟩
  · exact hneed (by simp [lookups]) hrun

lemma reads_calleeModules : Reads (calleeModules r method) := by
  refine reads_getWorld.bind fun w => .pure_or (.ite .need ?_)
  exact .pure_or .need

lemma Answers.mono (hw : Grows w w') (h : Answers w method entry) : Answers w' method entry :=
  ⟨fun hx X => hw.known (h.1 hx X), fun m f hmf =>
    ⟨hw.madeFrom (h.2 m f hmf).1, fun X => hw.known ((h.2 m f hmf).2 X)⟩⟩

lemma Answers.of_known {next : String} (h : Answers w method entry) (hnext : ∀ X, w.Known X next) :
    Answers w next entry := ⟨fun _ => hnext, h.2⟩

lemma brings_sinkCallees (hfound : C → ∀ entry ∈ found, Answers w₀ method entry)
    (hmade : C → isClass = true → w₀.MadeFrom method) :
    Keeps C w₀ (found.foldlM (sinkCallee r isClass) method) := by
  have hanswers (hC : C) {next : String} {w : World} (hw : Grows w₀ w)
      (hnext : next = method ∨ ∀ X, w.Known X next) : ∀ entry ∈ found, Answers w next entry := by
    intro entry hentry
    rcases hnext with rfl | hknown
    · exact (hfound hC entry hentry).mono hw
    · exact ((hfound hC entry hentry).mono hw).of_known hknown
  refine brings_foldlM_of (P := fun next w =>
    (next = method ∨ ∀ X, w.Known X next) ∧ (isClass = true → w.MadeFrom next)) ?_ ?_ fun hC =>
    ⟨.inl rfl, hmade hC⟩
  · rintro hC next w hw ⟨hnext, hmade⟩ entry hentry s c t hrun hs hsound
    have hsteps := (brings_sinkCallee (fun _ => hanswers hC hw hnext entry hentry)
      fun _ => hmade).sound hC s c t hrun hs hsound
    have ht : Grows w t.world := hs.trans hsteps.1
    rcases gives_sinkCallee r isClass next entry s c t hrun with rfl | ⟨m, hm⟩
    · exact ⟨hnext.imp_right fun h X => ht.known (h X), fun h => ht.madeFrom (hmade h)⟩
    · obtain ⟨hc, hknown⟩ := ((hfound hC entry hentry).mono (hw.trans ht)).2 m c hm
      exact ⟨.inr hknown, fun _ => hc⟩
  · exact fun _ w hw hnext entry hentry => brings_sinkCallee
      (fun hC => hanswers hC (hw hC) (hnext hC).1 entry hentry) fun hC => (hnext hC).2

lemma keeping_sinkCall : Keeping (sinkCall r) := by
  intro C w₀
  refine brings_read reads_getWorld fun w => .ite (.pure _) ?_
  refine brings_read reads_moduleName fun _ => ?_
  extract_lets rest
  have hrest (u : Unit) : Keeps C w₀ (rest u) := by
    refine Brings.bind_of
      (brings_of_reads reads_calleeModules) (fun _ s found t hrun _ hsound entry hentry => ?_)
      fun _ w _ hfound => brings_sinkCallees hfound fun _ hcls => ?_
    · obtain ⟨rfl, hentries⟩ := calleeModules_entries hrun
      obtain ⟨k, hk, he⟩ := hentries entry hentry
      exact answers_of_entry hsound hk he
    · rw [if_pos (of_decide_eq_true hcls), show r.cls ++ ".__init__" = r.cls ++ "." ++ "__init__" by
        rw [String.append_assoc]; rfl]
      exact .inl Text.endsWith_append
  refine .ite (brings_read reads_getWorld fun w => .ite ?_ (hrest ())) (hrest ())
  refine brings_read reads_currentNs fun _ => ?_
  exact .bind ((noting_mapSinks fun _ => settles_addModuleUsers).brings) hrest

lemma noting_sinkModuleCall {tree : Names} : Noting (sinkModuleCall r tree) := by
  refine reads_getWorld.next fun w => .or_pure ?_
  extract_lets method
  split
  · exact .throw
  · exact .or_pure noting_usesSinkModules

lemma noting_middleCall : Noting (middleCall r) := by
  refine reads_getWorld.next fun w => ?_
  extract_lets _ _ _ entry
  clear_value entry
  cases entry with
  | none => exact .pure
  | some entry =>
    refine reads_moduleName.next fun _ => ?_
    refine reads_currentNs.next fun _ => .forM fun _ _ => ?_
    refine reads_getWorld.next fun w => .when .throw ?_
    exact noting_mapMiddles.bind fun _ => noting_leadsToMiddle

/-! ### Callers -/

lemma noting_callerOf {module : String} :
    Noting (mapModules (·.adjust module (·.addCaller callee caller)) : Link Unit) :=
  noting_adjust module fun _ _ _ hc => ModuleInfo.mem_callers_addCaller hc

lemma noting_tryBases {further : String → String → Link Unit}
    (hfurther : ∀ m c, Noting (further m c))
    {supers : List (String × String)} : Noting (tryBases caller method cls further supers) := by
  induction supers with
  | nil => exact .pure
  | cons sup rest ih =>
    obtain ⟨sup, supModule⟩ := sup
    refine .ite ih (reads_getWorld.next fun w => Leads.need.bind fun _ => ?_)
    refine .ite ?_ ((hfurther _ _).bind fun _ => ih)
    extract_lets last
    have hlast (u : Unit) : Noting (last u) := by
      refine noting_adjust supModule fun m x c _ => ?_
      rwa [Table.getD_setNew]
    exact .ite (hlast ()) (noting_callerOf.bind hlast)

lemma noting_callInherited {fuel : Nat} (module cls : String) :
    Noting (callInherited caller method fuel module cls) := by
  induction fuel generalizing module cls with
  | zero => exact .throw
  | succ fuel ih =>
    refine reads_getWorld.next fun w => .when .throw ?_
    refine (noting_adjust (f := (·.withClass cls)) module fun _ _ _ hc => hc).bind fun _ => ?_
    exact reads_getWorld.next fun w => noting_tryBases ih

lemma noting_callSuper : Noting (callSuper cls method) := by
  refine noting_touchClass.bind fun _ => reads_moduleName.next fun _ => ?_
  refine reads_currentNs.next fun _ => .forM fun (sup, supModule) _ => ?_
  refine reads_getWorld.next fun w => Leads.need.bind fun _ => ?_
  exact .or_pure noting_callerOf

lemma noting_noteCaller : Noting (noteCaller r receiver cls) := by
  refine reads_currentNs.next fun ns => ?_
  refine reads_currentModule.next fun m => ?_
  extract_lets own isSuper asFunction
  have hnote (callee : String) : Noting (do addCaller callee ns; return true : Link Bool) :=
    (noting_addCaller callee ns).bind_pure
  refine .ite noting_callSuper.bind_pure (.ite ?_ (.ite ?_ (.ite ?_ ?_)))
  · exact .pure_or (hnote _)
  · exact .or_pure (hnote _)
  · refine .ite ?_ (hnote _)
    refine reads_moduleName.next fun _ => ?_
    refine reads_moduleName.next fun _ => ?_
    exact (noting_callInherited _ _).bind fun _ => hnote _
  · exact .or_pure (hnote _)

lemma noting_noteImportUse {node : ImportNode} : Noting (noteImportUse r receiver node) := by
  refine reads_getWorld.next fun w => ?_
  extract_lets viaOwner part?
  split
  · exact .pure
  · refine reads_currentNs.next fun _ => ?_
    exact .ite_bind reads_moduleName.leads .pure fun _ =>
      noting_onImports Imports.extends_createSinkEdge

/-! ### The call -/

lemma reads_fieldOwner {node : SinkNode} : Reads (fieldOwner c node) := by
  unfold fieldOwner
  extract_lets value _ name rest
  have hrest (name : Option String) : Reads (rest name) := by
    refine reads_getOwn.bind fun _ => ?_
    exact .pure_or .pure
  clear_value name
  split
  · exact hrest _
  · exact Leads.throw.bind hrest
  · exact hrest _

lemma noting_receiverOwner {owner : Option String} :
    Noting (receiverOwner c owner method cls shapeOf) := by
  unfold receiverOwner
  refine reads_currentModule.next fun m => ?_
  split
  · exact .pure
  · refine .ite ?_ (.ite ?_ ?_)
    · split
      · exact .pure
      · refine noting_noteField.bind fun _ => ?_
        split
        · exact reads_oneOf.leads.bind_pure
        · exact .pure
      · exact .throw
    · exact noting_noteField.bind_pure
    · refine reads_currentMethod.next fun _ => ?_
      split
      · exact reads_oneOf.leads.bind_pure
      · split
        · refine reads_getOwn.next fun _ => ?_
          exact .when noting_noteField .pure
        · exact .pure

lemma noting_callClasses : Noting callClasses := by
  refine reads_currentClass.next fun cls => reads_classInNs.next fun _ => ?_
  refine reads_getFrame.next fun f => reads_getOwn.next fun _ => ?_
  exact noting_touchClass.bind_pure

lemma keeping_resolvedCall {isSinkNode : Bool} : Keeping (resolvedCall c r isSinkNode) := by
  refine keeping_read reads_moduleName fun _ => ?_
  refine keeping_read reads_getWorld fun w => ?_
  refine (keeping_of_reads .need).bind fun _ => ?_
  refine keeping_read reads_getOwn fun _ => ?_
  extract_lets _ again last rest
  have hlast (r : Resolved) : Noting (last r) := by
    refine reads_getWorld.next fun w => .when noting_middleCall ?_
    refine reads_currentNs.next fun _ => .bind (noting_mapModule_of_eq ?_) fun _ => ?_
    · exact fun _ => rfl
    · refine noting_noteCaller.bind fun b => .pure_or ?_
      exact reads_getWorld.next fun w => noting_noteImportUse
  have hrest (u : Unit) : Keeping (rest u) := by
    refine .ite (keeping_sinkCall.bind fun _ => ?_) (hlast r).keeping
    exact noting_sinkModuleCall.keeping.bind fun _ => (hlast _).keeping
  exact .ite (hrest ()) ((noting_mapOwn _).keeping.bind hrest)

lemma keeping_noteCall : Keeping (noteCall c cls shapeOf) := by
  unfold noteCall
  extract_lets owner
  split
  · exact .pure
  refine keeping_read reads_getWorld fun w => ?_
  refine keeping_read reads_moduleName fun _ => ?_
  extract_lets sinkNode viaField rest
  have hrest (owner : Option (Option String)) : Keeping (rest owner) := by
    cases owner with
    | none => exact .pure
    | some owner =>
      refine keeping_read reads_getOwn fun _ => ?_
      refine noting_receiverOwner.keeping.bind fun _ => ?_
      split
      · exact .pure
      · exact (keeping_of_reads .need).bind fun _ => keeping_resolvedCall
  clear_value rest viaField sinkNode
  split
  · exact (keeping_of_reads reads_fieldOwner).bind hrest
  · exact Keeping.pure.bind hrest

/-! ### Calls -/

/-- The invariant stands what the second pass does between its visits. -/
structure Linking (E I : Walk ImportLinks → Prop) : Prop
    extends Tolerant (World.Notes fun _ => False) (fun _ => False) E I where
  keeping : ∀ {α : Type} {a : Link α} (p : Place), Keeping a → UpholdsAt E I p a

namespace Linking

variable {E I : Walk ImportLinks → Prop} {p : Place} {v w : Node → Link Unit}
  {callAgain callAgain' : CallSite → Link Unit} (hI : Linking E I)

include hI

lemma keeps {α : Type} {a : Link α} (ha : Keeping a) : AlikeAt E I p a a := (hI.keeping p ha).alike

lemma functionArgument (hcall : ∀ c, AlikeAt E I p (callAgain c) (callAgain' c))
    {owner method : Option String} :
    AlikeAt E I p (functionArgument callAgain owner method arg)
      (functionArgument callAgain' owner method arg) := by
  unfold ImportLinks.functionArgument
  split
  · exact hI.keeps keeping_namedArgument
  · exact .ite (hcall _) (.pure _)
  · exact .pure _

lemma call (h : ∀ n, AlikeAt E I p (v n) (w n))
    (hcall : ∀ c, AlikeAt E I p (callAgain c) (callAgain' c)) :
    AlikeAt E I p (call v callAgain c) (call w callAgain' c) := by
  refine (h _).bind fun _ => (hI.aside noting_callClasses).bind fun (cls, shapeOf) => ?_
  refine .bind (.forM fun a _ => ?_) fun _ => .bind (.forM fun k _ => ?_) fun _ => ?_
  · refine (h _).bind fun _ => (hI.aside noting_fieldArgument).bind fun _ => ?_
    refine (hI.functionArgument hcall).bind fun _ => ?_
    split
    · exact hI.evaluated (fun n _ => h n)
    · exact .pure _
  · refine (h _).bind fun _ => (hI.aside noting_fieldArgument).bind fun _ => ?_
    exact hI.functionArgument hcall
  · exact hI.keeps keeping_noteCall

end Linking

end SinkTrace.ImportLinks
