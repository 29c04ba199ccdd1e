import SinkTrace.Proofs.Analysis.Steps
import SinkTrace.Proofs.Graph.CallGraph
import SinkTrace.Proofs.Walk.Development

/-!
# Drawing the call graph

Whatever the walk that draws the call graph meets, it changes the graph by the steps of
`CallGraph.Step` only. So the graph that a whole pass leaves has every property that the empty graph
has and that the steps keep. The two directions of the graph agree in this way up to the special
forms of methods. Nothing else of the world is taken away, no class is new, and no block is noted as
declared.
-/

namespace SinkTrace

open Definitions Node World CallGraph

variable {c : CallForm} {name : String}

/-- The call graph is drawn further, and nothing of the world is missing afterwards. -/
structure World.Draws (w w' : World) : Prop extends World.Develops w w' where
  graph : CallGraph.Drawn w.graph w'.graph
  counts : ∀ ns, w'.scopes.lambdas ns = w.scopes.lambdas ns
  same : w'.classes = w.classes
  lists : ∀ m x, w.modules.Lists m x → w'.modules.Lists m x
  analyzed : ∀ X x, w'.sinks.Analyzed X x → w.sinks.Analyzed X x

lemma World.Draws.refl (w : World) : Draws w w :=
  { Develops.refl w with
    graph := .refl, counts := fun _ => rfl, same := rfl, lists := fun _ _ h => h
    analyzed := fun _ _ h => h }

lemma World.draws_create (w : World) (ns : String) (parent : Option String) :
    Draws w { w with scopes := w.scopes.create ns parent } :=
  { Draws.refl w with
    scopes := w.scopes.adds_create.keeps
    counts := w.scopes.adds_create.counts }

lemma CallForm.shortName?_of_name? (h : c.name? = some name) : c.func.shortName? = some name :=
  eq_some_of_given? h

namespace CallEdges

open Relation Act Walk

variable {D : List String → Prop} {E I : Walk CallEdges → Prop} {p : Place} {P : Node → Prop}
  {α : Type}
  {J : Walk CallEdges → Prop} {v w : Node → Draw Unit} {a : Draw α} {callee method : String}
  {cls owner : Option String} {e : Expr} {fuel line : Nat} {r : DefRef} {site : Site}

abbrev Drawing {α : Type} (a : Draw α) : Prop := Leads (Aside World.Draws) a

lemma drawing_of_world (hframe : ∀ s : Walk CallEdges, (a s).2.frame = s.frame)
    (h : ∀ s : Walk CallEdges, s.world.Draws (a s).2.world) : Drawing a :=
  fun s => .single (aside_of_world (hframe s) (h s))

lemma drawing_mapOwn {f : CallEdges → CallEdges} : Drawing (mapOwn f) :=
  drawing_of_world (fun _ => rfl) fun s => .refl s.world

lemma drawing_mapFrame {f : Frame → Frame}
    (h : ∀ g, ∃ lastCalled closes lost, f g = { g with lastCalled, closes, lost }) :
    Drawing (mapFrame f) := fun s => .single ⟨h s.frame, .refl s.world⟩

lemma drawing_mapDefs {f : Definitions → Definitions} (h : ∀ ds, Develops ds (f ds)) :
    Drawing (mapDefs f) :=
  drawing_of_world (fun _ => rfl) fun s => { Draws.refl s.world with defs := h _ }

lemma drawing_mapInheritance {f : Inheritance → Inheritance} : Drawing (mapInheritance f) :=
  drawing_of_world (fun _ => rfl) fun s =>
    { Draws.refl s.world with methods := fun _ _ h => h, analyzed := fun _ _ h => h }

lemma drawing_of_coins (h : Leads Coins a) : Drawing a := by
  refine h.mono fun s t hst => ?_
  cases hst with
  | coin ns =>
    have hcreate := leads_create ns DefKind.name.tag (some s.frame.module) s.world.defs
    exact aside_of_world rfl { Draws.refl s.world with
      defs := Edits.develops hcreate }

lemma drawing_meaning : Drawing (meaning e) := drawing_of_coins leads_meaning

/-! ### Nodes and edges -/

lemma drawing_onGraph {a : Act CallGraph α} (h : Leads CallGraph.Step a) : Drawing (onGraph a) :=
  drawing_of_world (fun _ => rfl) fun s => { Draws.refl s.world with graph := h s.world.graph }

lemma run_of_onGraph {a : Act CallGraph α} {s t : Walk CallEdges} {r : Except Fault α}
    (h : onGraph a s = (r, t)) : a s.world.graph = (r, t.world.graph) := by
  cases h
  rfl

lemma drawing_mapGraph {f : CallGraph → CallGraph} (h : ∀ g, CallGraph.Step g (f g)) :
    Drawing (mapGraph f) := drawing_onGraph (.modify fun g => .single (h g))

lemma drawing_edgeTo (target : String) : Drawing (edgeTo target) :=
  reads_currentMethod.next fun _ => drawing_onGraph (leads_addEdge _ _)

lemma drawing_callAt : Drawing (callAt line method) :=
  reads_currentNs.next fun _ => drawing_mapGraph fun _ => .call _ _ _

lemma drawing_callTo (line : Nat) (method : String) : Drawing (callTo line method) :=
  drawing_callAt.bind fun _ => drawing_edgeTo method

lemma drawing_noteOutside : Drawing (noteOutside name) := by
  have hadd (module : String) : Drawing (mapModules
      (·.adjust module (·.addMethod name { first := none, last := none }))) := by
    refine drawing_of_world (fun _ => rfl) fun s => { Draws.refl s.world with lists := ?_ }
    exact (s.world.modules.expands_adjust fun info _ hx =>
      info.contains_addMethod name _ (.inr hx)).lists
  intro s
  unfold noteOutside
  generalize (Text.components name).headD "" = module
  simp only [getWorld, run_bind, run_get, run_pure]
  cases hmodule : s.world.modules.get? module with
  | some info => exact hadd module s
  | none =>
    let ms := (s.world.modules.create module none true).adjust module
      (·.addMethod module { first := none, last := none })
    let made : Walk CallEdges := { s with world := { s.world with modules := ms } }
    have hmade : Aside Draws s made := by
      refine aside_of_world rfl { Draws.refl s.world with lists := fun m x hx => ?_ }
      refine (Modules.expands_adjust _ fun info _ hx => ?_).lists m x
        (Modules.lists_create (Modules.inner_of_get?_none hmodule) hx)
      exact info.contains_addMethod _ _ (.inr hx)
    exact .head hmade (hadd module made)

lemma drawing_callOutside (line : Nat) (name module : String) :
    Drawing (callOutside line name module) := by
  refine drawing_noteOutside.bind fun _ => ?_
  refine (drawing_onGraph leads_addNode).bind fun _ => ?_
  exact .or_pure (drawing_callTo line name)

lemma reads_inheritance : Reads inheritance := fun _ => .refl

/-! ### Taints -/

lemma reads_isTainted {ns : String} : Reads (isTainted ns) := fun _ => .refl

lemma drawing_called : Drawing site.called := by
  unfold Site.called
  split
  · exact drawing_of_coins leads_callNames
  · exact .pure

lemma drawing_noteTaint : Drawing (noteTaint site r) := by
  refine reads_isTainted.next fun b => .or_pure ?_
  refine reads_currentNs.next fun _ => Leads.need.bind fun _ => ?_
  refine drawing_called.bind fun _ => reads_getWorld.next fun w => .when ?_ ?_
  · exact drawing_onGraph leads_addNode
  · exact drawing_mapGraph fun _ => .statement _ _ _

lemma drawing_noteMeanings {ms : List Meaning} : Drawing (noteMeanings site ms) := by
  refine .forM fun m _ => ?_
  split
  · exact .forM fun r _ => drawing_noteTaint
  · exact drawing_noteTaint
  · exact .pure

lemma drawing_noteTaints : Drawing (noteTaints site e) := by
  refine drawing_meaning.bind fun _ => ?_
  split
  · exact drawing_meaning.bind fun _ => drawing_noteMeanings
  · exact drawing_noteMeanings

/-! ### Blocks -/

section Blocks

variable (hI : Tolerant World.Draws D E I) {loc : Loc}

include hI

lemma alike_forLoop {target iter : Expr} {body : List Stmt}
    (hiter : AlikeAt E I p (v (.expr iter)) (w (.expr iter)))
    (htarget : AlikeAt E I p (v (.expr target)) (w (.expr target)))
    (hbody : Alike E (Here p I) J (body.forM fun s => v (.stmt s))
      (body.forM fun s => w (.stmt s))) :
    Alike E (Here p I) J (forLoop v loc target iter body) (forLoop w loc target iter body) := by
  refine hiter.bind fun _ => htarget.bind fun _ => (hI.aside drawing_meaning).bind fun _ => ?_
  refine (hI.aside (.forM fun r _ => ?_)).bind fun _ => hbody
  refine reads_closureOf.next fun _ => .forM fun n _ => .forM fun _ _ => ?_
  exact reads_def?.next fun d => .or_pure (drawing_callTo _ _)

lemma alike_raising {exc : Expr} (h : Alike E J (Here p I) (v (.expr exc)) (w (.expr exc))) :
    Alike E J (Here p I) (raising v loc exc) (raising w loc exc) := by
  refine h.bind fun _ => hI.aside (drawing_meaning.bind fun ms => .forM fun r _ => ?_)
  refine reads_closureOf.next fun _ => .forM fun n _ => ?_
  refine reads_getWorld.next fun w => Leads.need.bind fun d => ?_
  have hexternal : Drawing (if d.isExternal then callTo loc.line n else pure ()) :=
    .or_pure (drawing_callTo _ _)
  refine .ite (reads_methodsOf.next fun _ => ?_) hexternal
  exact (Leads.forM fun _ _ => drawing_callTo _ _).bind fun _ => hexternal

lemma alike_functionDef {f : Function Stmt} (hD : D (p.names ++ [f.name]))
    (hdecorators : AlikeOn E I p v w .expr f.decorators)
    (hbody : AlikeOn E I (p.inFunction f.name) v w .stmt f.body) :
    AlikeAt E I p (functionDef v f) (functionDef w f) := by
  refine (hI.reads reads_moduleName).bind fun _ => (hI.reads reads_getFrame).bind fun _ => ?_
  refine (hI.reads reads_getWorld).bind fun _ => .ite (.pure _) ?_
  refine (Alike.forM fun d hd => (hdecorators d hd).bind fun _ => hI.aside ?_).bind fun _ => ?_
  · refine drawing_meaning.bind fun _ => Leads.forM fun r _ => ?_
    exact reads_closureOf.next fun ns => .forM fun n _ => drawing_callTo _ _
  refine (hI.reads reads_currentMethod).bind fun _ => ?_
  refine (hI.aside (.forM fun p _ => ?_)).bind fun _ => ?_
  · split
    · exact reads_getWorld.next fun w => .or_pure drawing_mapOwn
    · exact .pure
  refine (hI.reads reads_currentNs).bind fun _ => ?_
  refine (hI.aside (drawing_onGraph leads_addNode)).bind fun _ => ?_
  exact hI.functionBody hD hbody

lemma alike_returned {value : Option Expr}
    (h : Alike E J (Here p I) ((opt value).forM v) ((opt value).forM w)) :
    Alike E J (Here p I) (returned v site value) (returned w site value) :=
  hI.visitValue (fun _ => drawing_noteTaints) h

end Blocks

/-! ### What a call is made on -/

lemma reads_receiver_with {seen : Receiver} : Reads (seen.with r) := by
  refine reads_kindOf.bind fun k => reads_inheritance.bind fun g => .pure_or ?_
  refine reads_getWorld.bind fun w => reads_moduleName.bind fun _ => ?_
  split
  · exact .pure
  · exact .pure
  · exact reads_getWorld.bind fun w => Leads.throw.when .pure

lemma drawing_receiver {func : Expr} : Drawing (receiver func) := by
  unfold receiver
  split
  · refine reads_currentNs.next fun ns => drawing_meaning.bind fun _ => ?_
    refine .foldlM (fun seen r _ => ?_) _
    refine reads_receiver_with.next fun _ => ?_
    refine reads_closureOf.next fun _ => (Leads.forM fun n _ => ?_).bind fun _ =>
      .pure
    refine reads_getWorld.next fun w => Leads.need.bind fun d => ?_
    exact .or_pure drawing_mapInheritance
  · exact .pure

lemma reads_onHintedVar {func : Expr} : Reads (onHintedVar func) := by
  refine reads_getOwn.bind fun o => ?_
  split
  · split
    · exact .pure
    · exact reads_getFrame.bind_pure
    · exact reads_currentMethod.bind_pure
    · exact .pure
  · exact .pure

lemma reads_hasMethod {name : Option String} : Reads (hasMethod cls name) := by
  unfold hasMethod
  split
  · exact .pure
  · split
    · exact .throw
    · exact reads_getWorld.bind_pure

/-! ### Calls of nothing that is known -/

lemma reads_fullNames {path : List String} : Reads (outsideAttr?.fullNames e path) := by
  fun_induction outsideAttr?.fullNames e path with
  | case1 => assumption
  | case2 =>
    refine reads_scopeDef?.bind fun r => ?_
    split
    · exact .pure
    · exact reads_closureOf.bind_pure
  | case3 => exact .pure

lemma drawing_outsideAttr? {func : Expr} (e : Expr) : Drawing (outsideAttr? func fuel e) := by
  induction fuel generalizing e with
  | zero => exact .pure
  | succ fuel ih =>
    unfold outsideAttr?
    split
    · refine reads_getWorld.next fun w => drawing_meaning.bind fun _ => ?_
      refine reads_ownerNames.next fun _ => ?_
      refine (Leads.mapM fun o _ => reads_closureOf.leads).bind fun _ => .ite ?_ (ih _)
      exact reads_fullNames.leads.bind_pure
    · exact .pure

lemma reads_sinkModule? {node : SinkNode} : Reads (sinkModule? method name node) := by
  refine reads_getWorld.bind fun w => ?_
  split
  · exact .pure
  · exact .pure
  · exact .pure

lemma reads_onOtherImport {m : String} : Reads (onOtherImport owner m) := by
  refine .pure_or (reads_moduleName.bind fun _ => reads_getWorld.bind fun w => ?_)
  exact Leads.need.bind_pure

lemma drawing_createRoot {module : String} : Drawing (onSinks (Sinks.createRoot module)) := by
  have hnodes : Leads (fun ss ss' => ss'.nodes = ss.nodes) (Sinks.createRoot module) := by
    refine Leads.get.bind fun ss => .pure_or (.when .throw ?_)
    exact .modify fun _ => .single rfl
  have hrun := hnodes.run (fun _ => rfl) fun _ _ _ h h' => h'.trans h
  have hsame (s : Walk CallEdges) :
      (onSinks (Sinks.createRoot module) s).2.world.sinks.nodes = s.world.sinks.nodes :=
    hrun s.world.sinks
  refine drawing_of_world (fun _ => rfl) fun s =>
    { Draws.refl s.world with methods := fun X x hx => ?_, analyzed := fun X x hx => ?_ }
  · rwa [Sinks.HasMethod, Sinks.links?_eq_of_nodes (hsame s)]
  · rwa [Sinks.Analyzed, Sinks.node?_eq_of_nodes (hsame s)] at hx

lemma drawing_rootCall {m : String} : Drawing (rootCall line method name m) := by
  refine reads_moduleName.next fun _ => ?_
  refine Leads.bind drawing_createRoot fun _ => reads_getWorld.next fun w => ?_
  refine Leads.need.bind fun _ => ?_
  exact .or_pure (drawing_callOutside _ _ _)

lemma drawing_sinkCall : Drawing (sinkCall line name owner) := by
  refine reads_moduleName.next fun _ => reads_currentMethod.next fun _ => ?_
  refine reads_getWorld.next fun w => ?_
  split
  · exact .pure
  · refine reads_sinkModule?.next fun _ => ?_
    split
    · exact .pure
    · refine reads_getWorld.next fun w => reads_currentNs.next fun _ => ?_
      refine .pure_or (reads_onOtherImport.next fun b => ?_)
      exact .pure_or drawing_rootCall

lemma reads_excluded {caller : String} : Reads (excluded callee caller cls owner) :=
  reads_inheritance.bind_pure

lemma reads_harmlessMember {module : Option String} : Reads (harmlessMember module name) := by
  unfold harmlessMember
  split
  · exact .pure
  · refine reads_getWorld.bind fun w => .pure_or (reads_getWorld.bind fun w => ?_)
    exact Leads.need.bind_pure

lemma drawing_longNameCall : Drawing (longNameCall name cls owner) := by
  refine reads_getFrame.next fun f => reads_getWorld.next fun w => ?_
  refine .forM fun _ _ => ?_
  split
  · exact .pure
  · refine .pure_or (reads_excluded.next fun b => .pure_or ?_)
    refine reads_harmlessMember.next fun b => .pure_or ?_
    exact drawing_edgeTo _
  · exact .throw

section Calls

variable (hI : Tolerant World.Draws D E I)

include hI

lemma alike_silentCall {again again' : CallForm → Draw Unit}
    (h : ∀ c', processCall? c = some c' → AlikeAt E I p (again c') (again' c')) :
    AlikeAt E I p (silentCall again c line cls) (silentCall again' c line cls) := by
  refine (hI.reads reads_getWorld).bind fun _ => ?_
  refine (hI.aside (drawing_outsideAttr? _)).bind fun names => ?_
  cases names with
  | some names => exact hI.aside (.forM fun n _ => drawing_callOutside _ _ _)
  | none =>
    cases c.name? with
    | none => exact .pure _
    | some name =>
      refine .ite (hI.aside (.ite (drawing_callOutside _ _ _) (.or_pure ?_))) ?_
      · refine reads_argsOf.next fun _ => ?_
        split
        · exact .throw
        · refine drawing_meaning.bind fun _ => .forM fun m _ => .or_pure ?_
          exact Leads.need.bind fun r => drawing_edgeTo _
      refine .ite (hI.aside drawing_sinkCall) ?_
      refine .ite (hI.aside drawing_longNameCall) (.ite ?_ (.pure _))
      refine hI.need.bind fun e => ?_
      split
      · exact h _ ‹_›
      · exact .pure _

end Calls

/-! ### Calls of known names -/

lemma reads_withSubclasses {name : Option String} {names : Names} :
    Reads (withSubclasses name names) := by
  unfold withSubclasses
  split
  · refine reads_getWorld.bind fun w => .foldlM (fun _ _ _ => ?_) _
    exact Leads.need.bind fun _ => Leads.need.bind_pure
  · exact .pure

lemma drawing_moveCallee {c : String} : Drawing (moveCallee (c ++ ":" ++ name) name callee) := by
  intro s
  have hadd := drawing_onGraph (leads_addEdge (c ++ ":" ++ name) callee) s
  unfold moveCallee
  rw [run_bind]
  rcases hr : onGraph (addEdge (c ++ ":" ++ name) callee) s with ⟨e | v, t⟩ <;> rw [hr] at hadd
  · exact hadd
  · have hthere := mem_callees_addEdge (run_of_onGraph hr)
    exact hadd.tail (aside_of_world rfl { Draws.refl t.world with graph := .single (.drop hthere) })

lemma drawing_specialize {recClass : String} : Drawing (specialize recClass name) := by
  refine reads_currentNs.next fun ns => reads_getWorld.next fun w => ?_
  refine .foldlM_of (P := fun special => CallGraph.IsForm special name) ?_ ?_ (.inl rfl)
  · intro special hspecial callee _ s c t hrun
    unfold splitStep at hrun
    split_ifs at hrun
    · obtain ⟨_, _, -, hc⟩ := of_bind hrun
      cases hc
      exact CallGraph.IsForm.trans (.inr ⟨ns, rfl⟩) hspecial
    · cases hrun
      exact hspecial
  · intro special hspecial callee _
    obtain ⟨c, hc⟩ : ∃ c, ns ++ ":" ++ special = c ++ ":" ++ name := by
      rcases hspecial with rfl | ⟨d, rfl⟩
      · exact ⟨ns, rfl⟩
      · exact ⟨ns ++ ":" ++ d, by simp only [String.append_assoc]⟩
    refine .or_pure ?_
    rw [hc]
    exact drawing_moveCallee.bind_pure

lemma leads_callDefined {R : Walk CallEdges → Walk CallEdges → Prop}
    (houtside : ∀ line callee module, Leads R (callOutside line callee module))
    (hcall : ∀ line method, Leads R (callTo line method))
    (hedge : ∀ target, Leads R (edgeTo target))
    {v : CallView} {d : Definition} : Leads R (callDefined v callee d) := by
  refine Leads.need.bind fun _ => reads_getWorld.next fun w => ?_
  refine .pure_or (Leads.need.bind fun _ => .pure_or ?_)
  refine .ite (houtside _ _ _) (.when (hcall _ _) (.or_pure ?_))
  refine reads_methodsOf.next fun _ => (hedge _).bind fun _ => ?_
  exact .forM fun _ _ => hcall _ _

lemma drawing_nameOn? {v : CallView} : Drawing (nameOn? v name) := by
  unfold nameOn?
  split
  · exact .pure
  · refine reads_inheritance.next fun g => .pure_or ?_
    refine reads_currentNs.next fun _ => Leads.bind ?_ fun _ => ?_
    · exact drawing_of_world (fun _ => rfl) fun s => { Draws.refl s.world with }
    · exact drawing_specialize.bind_pure

lemma drawing_meetsOwner {v : CallView} : Drawing (meetsOwner v name) := by
  unfold meetsOwner
  split
  · refine .pure_or (.or_pure ?_)
    refine reads_currentMethod.next fun _ => ?_
    exact drawing_mapInheritance.bind_pure
  · exact .pure

lemma drawing_callName {v : CallView} : Drawing (callName v name) := by
  refine drawing_nameOn?.bind fun _ => ?_
  split
  · exact .pure
  · refine drawing_meetsOwner.bind fun b => .pure_or ?_
    refine reads_getWorld.next fun w => .when (drawing_callTo _ _) ?_
    split
    · exact .or_pure (drawing_edgeTo _)
    · exact leads_callDefined drawing_callOutside drawing_callTo drawing_edgeTo

/-! ### The walk -/

/-- All parts of the call are nodes with `P`. -/
structure Parts (P : Node → Prop) (c : CallForm) : Prop where
  func : P (.expr c.func)
  args : ∀ a ∈ c.args.getD [], P (.expr a)
  keywords : ∀ k ∈ c.keywords, P (.expr k.value)

lemma gives_argsOf :
    Gives (fun args => ∀ a ∈ args, a ∈ c.args.getD []) (argsOf c : Draw (List Expr)) := by
  intro s v t hrun
  obtain ⟨args, _, hneed, hrest⟩ := of_bind hrun
  cases hargs : c.args with
  | none =>
    rw [hargs] at hneed
    cases hneed
  | some as =>
    rw [hargs] at hneed
    cases hneed
    cases hloc : c.loc with
    | none =>
      rw [hloc] at hrest
      cases hrest
      exact fun a ha => ha
    | some l =>
      rw [hloc] at hrest
      cases hrest
      exact fun a ha => List.mem_of_mem_drop ha

lemma Parts.processCall (hP : Hereditary P) {c' : CallForm} (h : Parts P c)
    (hc : processCall? c = some c') : Parts P c' := by
  simp only [processCall?, Option.bind_eq_bind, Option.bind_eq_some_iff,
    Option.map_eq_some_iff] at hc
  obtain ⟨func, ⟨k, hk, rfl⟩, args, hargs, hc⟩ := hc
  split_ifs at hc
  cases hc
  refine ⟨?_, fun a ha => ?_, nofun⟩
  · exact h.keywords k (List.mem_of_mem_filter (List.mem_of_getLast? hk))
  · obtain ⟨k, hk, htuple⟩ := List.mem_filterMap.mp (List.mem_of_getLast? hargs)
    split at htuple
    · next loc es _ hvalue =>
      cases htuple
      have hvalues := h.keywords k hk
      rw [hvalue] at hvalues
      exact hP _ hvalues _ (by simpa [children, ofExpr, exprs] using ha)
    · cases htuple

section Calling

variable (hI : Tolerant World.Draws D E I) (hP : Hereditary P)
  (h : ∀ n, P n → AlikeAt E I p (v n) (w n))
  (heval : ∀ e, P (.expr e) → e.shortName? = some "eval" →
    ∀ n, IsPart n → AlikeAt E I p (v n) (w n))
  {again again' : CallForm → Draw Unit}
  (hagain : ∀ c, Parts P c → AlikeAt E I p (again c) (again' c))

include hI hP h heval hagain

lemma alike_call (hc : Parts P c) {text : Option String} :
    AlikeAt E I p (call v again c text) (call w again' c text) := by
  refine .ite (.pure _) ?_
  refine (hI.reads reads_argsOf).bind_of (fun s args t _ => gives_argsOf s args t)
    fun args hargs => ?_
  refine (Alike.forM fun arg harg => ?_).bind fun _ => (Alike.forM fun k hk => ?_).bind fun _ => ?_
  · refine (hI.aside drawing_noteTaints).bind fun _ => ?_
    refine (h _ (hc.args arg (hargs arg harg))).bind fun _ => ?_
    split
    · next hname => exact hI.evaluated (heval _ hc.func (CallForm.shortName?_of_name? hname))
    · exact .pure _
  · refine (hI.aside drawing_meaning).bind fun _ => ?_
    exact (hI.aside drawing_noteMeanings).bind fun _ => h _ (hc.keywords k hk)
  refine (h _ hc.func).bind fun _ => (hI.reads reads_onHintedVar).bind fun _ => ?_
  refine (hI.aside drawing_receiver).bind fun _ => ?_
  refine (hI.reads reads_hasMethod).bind fun _ => ?_
  refine (hI.aside (drawing_of_coins leads_callNames)).bind fun names => .ite ?_ (hI.aside ?_)
  · exact alike_silentCall hI (fun c' hc' => hagain c' (hc.processCall hP hc'))
  · refine .ite_bind reads_withSubclasses.leads .pure fun _ => ?_
    refine reads_getFrame.next fun f => ?_
    refine (drawing_mapFrame fun _ => ⟨_, _, _, rfl⟩).bind fun _ => ?_
    exact .forM fun n _ => drawing_callName

end Calling

lemma alike_lambda (hI : Tolerant Draws D E I)
    (hnext : Alike E J (Here p I) nextLambda nextLambda) {body : Expr}
    (hbody : ∀ name, AlikeAt E I (p.inFunction name) (v (.expr body)) (w (.expr body)))
    (again again' : CallForm → Draw Unit) (loc : Loc) (params : Params Expr) :
    Alike E J (Here p I) (rule v again (.expr (.lambda loc params body)))
      (rule w again' (.expr (.lambda loc params body))) := by
  refine hnext.bind fun name => (hI.reads reads_currentNs).bind fun _ => ?_
  refine (hI.reads reads_moduleName).bind fun _ => ?_
  refine (hI.aside (drawing_onGraph leads_addNode)).bind fun _ => ?_
  exact hI.lambdaBody (hbody name)

lemma alike_rule (hI : Tolerant Draws D E I) (hD : ∀ name, D (p.names ++ [name]))
    (hlambda : ∀ loc params body, P (.expr (.lambda loc params body)) → D p.names)
    (hmodule : ∀ body, P (.program body) → Renumbers I) (hP : Hereditary P) (h : Visits E I P p v w)
    {again again' : CallForm → Draw Unit}
    (hagain : ∀ c, Parts P c → AlikeAt E I p (again c) (again' c)) {n : Node} (hn : P n) :
    AlikeAt E I p (rule v again n) (rule w again' n) := by
  have hpart {c : Node} (hc : c ∈ n.children) : P c := hP n hn c hc
  have hbody (name : String) (n : Node) (hn : IsPart n) :
      AlikeAt E I (p.inFunction name) (v n) (w n) :=
    h.inside _ p.holds_inFunction n hn
  unfold rule
  split
  · refine (hI.reads reads_moduleName).bind fun _ => ?_
    refine (hI.aside (drawing_onGraph leads_addNode)).bind fun _ => ?_
    exact hI.visitCommon hD hmodule hP h hn
  · refine alike_functionDef hI (hD _) (fun d hd => h.here _ (hpart ?_)) fun s _ =>
      hbody _ _ isPart_stmt
    simp [children, ofStmt, exprs, hd]
  · refine hI.mapOwn.bind fun _ => hI.classBody (hD _) fun s _ => ?_
    exact h.inside _ p.holds_inClass _ isPart_stmt
  · refine alike_forLoop hI (h.here _ (hpart ?_)) (h.here _ (hpart ?_))
      (.forM fun s hs => h.here _ (hpart ?_))
    · simp [children, ofStmt]
    · simp [children, ofStmt]
    · simp [children, ofStmt, stmts, hs]
  · refine alike_raising hI (h.here _ (hpart ?_))
    simp [children, ofStmt, opt]
  · exact .pure _
  · split
    · exact .pure _
    · refine (h.here _ (hpart ?_)).bind fun _ => hI.aside (.forM fun t _ => ?_)
      · simp [children, ofStmt]
      · exact drawing_noteTaints
  · exact alike_returned hI (.forM fun m hm => h.here m (hpart hm))
  · exact alike_returned hI (.forM fun m hm => h.here m (hpart hm))
  · refine hagain _ ⟨hpart ?_, fun a ha => hP.call_arg hn ha, fun k hk => hP.call_keyword hn hk⟩
    simp [children, ofExpr]
  · next loc params body =>
    exact alike_lambda hI (hI.nextLambda (hlambda _ _ _ hn))
      (fun name => hbody name _ (isPart_expr body)) again again' loc params
  · exact hI.visitCommon hD hmodule hP h hn

lemma alike_visit (hI : Tolerant Draws Any E I) (hmodule : Renumbers I) (p : Place) :
    (∀ n, AlikeAt E I p (visit fuel n) (visit fuel n)) ∧
      ∀ c, AlikeAt E I p (visitCall fuel c) (visitCall fuel c) := by
  induction fuel generalizing p with
  | zero => exact ⟨fun _ => hI.throws, fun _ => hI.throws⟩
  | succ fuel ih =>
    obtain ⟨hvisit, hcall⟩ := ih p
    refine ⟨fun n => ?_, fun c => ?_⟩
    · exact alike_rule hI (fun _ => trivial) (fun _ _ _ _ => trivial)
        (fun _ _ => hmodule) hereditary_true ⟨fun n _ => hvisit n, fun q _ n _ => (ih q).1 n⟩
        (fun c _ => hcall c) trivial
    · exact alike_call hI hereditary_true (fun n _ => hvisit n)
        (fun _ _ _ n _ => hvisit n) (fun c _ => hcall c)
        ⟨trivial, fun _ _ => trivial, fun _ _ => trivial⟩

/-! ### The pass -/

section World

variable {E I : World → Prop}

lemma alike_analyze (hI : Tolerant (ρ := CallEdges) Draws Any (OfWorld E) (OfWorld I))
    (hcount : Recountable I) (fuel : Nat) (p : Place) :
    AlikeAt (OfWorld E) (OfWorld I) p (analyze fuel) (analyze fuel) := by
  induction fuel generalizing p with
  | zero => exact hI.throws
  | succ fuel ih =>
    refine (hI.aside (drawing_mapFrame fun _ => ⟨_, _, _, rfl⟩)).bind fun _ => ?_
    refine (hI.reads reads_fileText).bind fun _ => ?_
    refine (hI.aside (drawing_mapDefs develops_closeNames)).bind fun _ => ?_
    refine Alike.bind (hI.aside ?_) fun _ => (hI.reads reads_program).bind fun _ => ?_
    · exact drawing_of_world (fun _ => rfl) fun s =>
        { Draws.refl s.world with defs := develops_closeTaints _ }
    · refine ((alike_visit hI (renumbers_of_world hcount) p).1 _).bind fun _ => ?_
      refine (hI.reads reads_getWorld).bind fun _ => .forM fun _ _ => ?_
      exact alike_submodule hI (fun w _ _ => { Draws.refl w with }) (ih {})

end World

lemma drawn_analyze (s : Walk CallEdges) :
    CallGraph.Drawn s.world.graph (analyze fuel s).2.world.graph := by
  let drawn (w : World) : Prop := CallGraph.Drawn s.world.graph w.graph
  have hcount : Recountable drawn := fun _ _ _ _ hw => hw
  have hI : Tolerant Draws Any (fun s : Walk CallEdges => drawn s.world) (fun s => drawn s.world) :=
    tolerant_of_world .refl draws_create (fun w _ hw hstep => hw.trans hstep.graph) hcount
      fun _ hw => hw
  exact world_of_alike (alike_analyze hI hcount fuel _) .refl

lemma leads_passOver (n : Nat) (files : World → List String) (fuel place : Nat) (done : Names) :
    Leads (fun w w' => CallGraph.Drawn w.graph w'.graph)
      (Analysis.passOver false {} (analyze n) files fuel place done) :=
  Analysis.leads_passOver (R := fun w w' => CallGraph.Drawn w.graph w'.graph) drawn_analyze
    (fun _ => .refl) false {} files fuel place done

lemma agrees_of_steps {w w' : World}
    (h : ReflTransGen (fun w w' : World => CallGraph.Drawn w.graph w'.graph) w w')
    (hw : w.graph.Agrees) : w'.graph.Agrees := by
  induction h with
  | refl => exact hw
  | tail _ hlast ih => exact CallGraph.Drawn.agrees hlast ih

/-- In the call graph that a pass leaves, the forward edges are reverse edges, and the reverse edges
are forward edges of the same caller or of a special form of it. -/
theorem pass_directions_agree (w : World) (files : World → List String) (n fuel place : Nat)
    (done : Names) (src dst : String) :
    let g := (Analysis.passOver false {} (analyze n) files fuel place done
      { w with graph := {} }).2.graph
    (dst ∈ g.callees.getD src [] → src ∈ g.callers.getD dst []) ∧ (src ∈ g.callers.getD dst [] →
        ∃ s, (s = src ∨ ∃ c, s = c ++ ":" ++ src) ∧ dst ∈ g.callees.getD s []) := by
  have hsteps := leads_passOver n files fuel place done { w with graph := {} }
  have hagrees := agrees_of_steps hsteps agrees_empty
  exact ⟨hagrees.forward src dst, hagrees.backward src dst⟩

def twoCallsText : String := "class A:\n def go():\n  pass\n def run():\n  A.go()\nA.run()\n"

def twoCalls : World where
  files := ⟨Table.ofList [("m.py", twoCallsText.toList.map (·.toNat.toUInt8))]⟩
  sources := ["m.py"]
  sinks :=
    { nodes := Table.ofList
        [("m", { methodUsers := Table.ofList [("A.go", ⟨0, 0⟩), ("A.run", ⟨0, 0⟩)] })] }
  scopes := Table.ofList
    [("m", { parent := none, defs := Table.ofList [("A", { ns := "m.A" })] }),
      ("m.A.run", { parent := some "m" })]
  defs :=
    { current := Table.ofList [("m.A", { ns := "m.A", kind := .cls, module := some "m" }),
          ("m.A.go", { ns := "m.A.go", kind := .function, module := some "m" }),
          ("m.A.run", { ns := "m.A.run", kind := .function, module := some "m" })] }
  classes := Table.ofList [("m.A", .new "m.A" "m")]
  modules :=
    { inner := Table.ofList
        [("m", { name := "m", filename := some "m.py", members := ["A.go", "A.run"] })] }

def twoCallsPass : Except Fault Unit × World :=
  Analysis.passOver false {} (analyze 2) (·.sources) 2 0 [] twoCalls

lemma twoCallsPass_spec : twoCallsPass.1.toOption = some () ∧
      "m.A.run" ∈ twoCallsPass.2.graph.callers.getD "m.A.go" [] ∧
      "m.A.go" ∉ twoCallsPass.2.graph.callees.getD "m.A.run" [] := by decide +kernel

/-- The callee `go` of `run` goes to the special form of `run`, which is still among its callers. -/
theorem caller_stays_behind :
    ∃ w, Analysis.passOver false {} (analyze 2) (·.sources) 2 0 [] twoCalls = (.ok (), w) ∧
      "m.A.run" ∈ w.graph.callers.getD "m.A.go" [] ∧
      "m.A.go" ∉ w.graph.callees.getD "m.A.run" [] := by
  obtain ⟨hok, hcaller, hcallee⟩ := twoCallsPass_spec
  exact ⟨twoCallsPass.2, eq_of_toOption hok, hcaller, hcallee⟩

end CallEdges

end SinkTrace
