import SinkTrace.Proofs.Sink.Roots
import SinkTrace.Proofs.Walk.Survey
import SinkTrace.Walk.SinkSites

/-!
# The first pass finds root methods

Between its visits the first pass takes notes, and where it has visited a call it may find a sink.
An invariant that stands this is `Locating`, and the whole pass keeps it. One of them is that the
methods of the nodes are the root methods, whatever the pass walks through. Another one is what the
table of imports says of a name that is bound nowhere.
-/

namespace SinkTrace

open Node

namespace Node

/-- The name that a node gives an entry in the import table: that of an import, or of the target of
an item. -/
def boundName? : Node → Option String
  | .importName a => some ((given? a.asname).getD a.name)
  | .withItem item => item.target.bind Expr.text?
  | _ => none

/-- The names that are bound in a node, down to a depth. -/
def boundNames : Nat → Node → List String
  | 0, n => n.boundName?.toList
  | depth + 1, n => n.boundName?.toList ++ n.children.flatMap (boundNames depth)

/-- All names that are bound in a node are told. -/
def Within (told : String → Prop) (n : Node) : Prop := ∀ depth, ∀ x ∈ n.boundNames depth, told x

variable {told : String → Prop} {n c : Node} {x : String}

lemma Within.here (h : n.Within told) (hx : n.boundName? = some x) : told x :=
  h 0 x (by simp [boundNames, hx])

lemma Within.part (h : n.Within told) (hc : c ∈ n.children) : c.Within told :=
  fun depth x hx => h (depth + 1) x (List.mem_append_right _ (List.mem_flatMap.mpr ⟨c, hc, hx⟩))

end Node

namespace SinkSites

open Act Walk World Sinks

variable {α : Type} {resources : Resources} {v : Unit} {s t : Walk SinkSites} {told : String → Prop}
  {args : List Expr} {field method name : String} {modules types : Names} {target : Expr}

/-! ### What is found -/

lemma reads_comesIn {e : Expr} : Reads (comesIn e) := by
  refine reads_getOwn.bind fun _ => ?_
  split
  · exact .pure
  · exact .throw

lemma reads_currentClass : Reads currentClass := fun _ => .refl

lemma reads_importMessages : Reads importMessages := fun _ => .refl

lemma reads_isSinkModule : Reads (isSinkModule name) := fun _ => .refl

lemma noting_taint : Noting (taint name) := noting_mapOwn _

lemma ne_of_told {k : String} (h : told name) (hk : ¬told k) : k ≠ name := by
  rintro rfl
  exact hk h

lemma telling_addImportMessage (h : told name) (source : String) :
    Telling told (addImportMessage name source) :=
  telling_mapMessages fun _ _ hk => Table.get?_set_of_ne (ne_of_told h hk) _

lemma noting_ensureSinkNode : Noting ensureSinkNode :=
  reads_getFrame.next fun _ => reads_getWorld.next fun _ =>
    .pure_or noting_initSinkNode

lemma noting_noteSinkModule {sinkModule : String} {method : Option String} :
    Noting (noteSinkModule sinkModule method) := by
  refine noting_ensureSinkNode.bind fun _ => ?_
  split
  · exact .pure
  · refine reads_moduleName.next fun _ => ?_
    exact noting_mapSinks fun _ => settles_addModuleUsers

lemma noting_noteMiddle {callee : String} : Noting (noteMiddle callee) :=
  reads_getFrame.next fun _ => reads_currentNs.next fun _ =>
    noting_onMiddles.bind fun _ => noting_mapMiddles

lemma noting_noteUse {name : Option String} : Noting (noteUse name) := by
  unfold noteUse
  split
  · exact .pure
  · refine reads_getWorld.next fun w => reads_moduleName.next fun _ => ?_
    refine .or_pure (reads_currentNs.next fun _ => ?_)
    refine reads_importMessages.next fun _ => ?_
    exact .forM fun m _ => noting_noteSinkModule

lemma surveying_noteSink : Surveying (noteSink method) := by
  refine noting_ensureSinkNode.surveying.bind fun _ => reads_getFrame.next fun f => ?_
  refine noting_addSource.surveying.bind fun _ => surveying_onSinks.bind fun _ => ?_
  refine reads_currentNs.next fun _ => reads_getWorld.next fun w => ?_
  exact .forM fun m _ => surveying_mapSinks

/-! ### Receivers -/

lemma reads_fromSinkModule : Reads (fromSinkModule types) := fun _ => .refl

lemma reads_fieldFromSinkModule : Reads (fieldFromSinkModule types) := fun _ => .refl

lemma noting_plainCallFiltered {isName : Bool} :
    Noting (plainCallFiltered method modules isName) := by
  refine reads_importMessages.next fun _ => ?_
  extract_lets sources found rest
  have hrest (u : Unit) : Noting (rest u) := .pure
  clear_value rest found
  split
  · exact reads_currentNs.next fun _ => noting_noteSinkModule.bind hrest
  · exact hrest ()

lemma reads_receiverFiltered {receiver : String} {callObject : Option String} :
    Reads (receiverFiltered receiver callObject modules method) := by
  refine reads_getWorld.bind fun w => .pure_or (.pure_or ?_)
  refine reads_currentClass.bind fun _ => reads_getOwn.bind fun _ => ?_
  refine reads_moduleName.bind fun _ => Leads.need.bind fun m => ?_
  refine .ite reads_fieldFromSinkModule.bind_pure ?_
  refine reads_importMessages.bind fun _ => reads_isSinkModule.bind fun _ => ?_
  refine .pure_or (.ite reads_fromSinkModule.bind_pure ?_)
  split
  · exact .or_pure reads_fromSinkModule.bind_pure
  · exact .pure

lemma reads_argumentTainted {positions : List Int} : Reads (argumentTainted args positions) := by
  induction positions with
  | nil => exact .pure
  | cons i is ih =>
    refine .ite ih ?_
    extract_lets j rest
    have hrest (u : Unit) : Reads (rest u) := by
      simp only [rest]
      split
      · exact .throw
      · exact reads_comesIn.bind fun _ => .pure_or ih
    exact .ite .throw (hrest ())

/-! ### Notes -/

lemma telling_importName {source : Option String} {level : Nat} {a : Alias}
    (h : ∀ x, (Node.importName a).boundName? = some x → told x) :
    Telling told (importName source level a) := by
  unfold importName
  extract_lets full target first rest
  have htold (source : String) : Telling told (addImportMessage target source) :=
    telling_addImportMessage (h target rfl) source
  have hrest (u : Unit) : Telling told (rest u) := htold _
  refine (noting_onImports (Imports.extends_importModule _ _)).telling.bind fun _ => ?_
  split
  · refine reads_isSinkModule.next fun _ => ?_
    refine .ite (noting_noteSinkModule.telling.bind hrest) ?_
    refine reads_isSinkModule.next fun _ => .ite ?_ (hrest ())
    refine .ite ?_ (noting_noteSinkModule.telling.bind hrest)
    exact noting_noteSinkModule.telling.bind fun _ => (htold _).bind hrest
  · refine noting_taint.telling.bind fun _ => reads_getWorld.next fun w => ?_
    exact .or_pure (htold _)

lemma noting_addFieldClasses {module : String} :
    Noting (mapModules (·.adjust module (·.addFieldClasses field types)) : Site Unit) :=
  noting_adjust module fun _ _ _ hc => hc

lemma noting_baseClass {cls : String} {base : Expr} : Noting (baseClass cls base) := by
  unfold baseClass
  extract_lets superName note rest
  have hnote (names : Names) : Noting (note names) := telling_mapMessages fun _ _ _ => rfl
  have hrest (u : Unit) : Noting (rest u) := by
    simp only [rest]
    split
    · exact .pure
    · refine reads_moduleName.next fun _ => reads_getOwn.next fun _ => ?_
      refine .forM fun e _ => ?_
      obtain ⟨field, types⟩ := e
      refine .or_pure ?_
      exact reads_getWorld.next fun w => .when .throw noting_addFieldClasses
  clear_value superName note rest
  split
  · exact (hnote _).bind hrest
  · exact hrest ()
  · exact (hnote _).bind hrest

lemma noting_giveTypes : Noting (giveTypes types target) := by
  unfold giveTypes
  split
  · exact noting_mapOwn _
  · refine reads_currentClass.next fun _ => reads_moduleName.next fun _ => ?_
    refine reads_getWorld.next fun w => .when .throw ?_
    exact noting_addFieldClasses.bind fun _ => noting_mapOwn _
  · exact .pure

lemma noting_hintTypes {fuel : Nat} (e : Expr) : Noting (hintTypes field fuel e) := by
  induction fuel generalizing e with
  | zero => exact .throw
  | succ fuel ih =>
    unfold hintTypes
    split
    · exact (ih _).bind fun _ => ih _
    · exact .forM fun e _ => ih e
    · exact ih _
    · refine .or_pure (reads_moduleName.next fun _ => ?_)
      refine reads_getWorld.next fun w => .when .throw ?_
      exact noting_addFieldClasses.bind fun _ => noting_mapOwn _
    · exact .pure

lemma noting_fieldHint {hint : Expr} : Noting (fieldHint target hint) := by
  unfold fieldHint
  split
  · refine reads_getFrame.next fun f => .or_pure ?_
    exact reads_currentClass.next fun _ => noting_hintTypes _
  · exact .pure

lemma noting_takeParams {params : Params Expr} : Noting (takeParams params) := by
  refine .bind (.forM fun p _ => .when noting_taint ?_) fun _ => ?_
  · dsimp only
    split
    · exact noting_mapOwn _
    · exact .pure
  · exact .or_pure noting_taint

lemma noting_leaveFunction : Noting leaveFunction := by
  refine reads_moduleName.next fun _ => reads_getOwn.next fun _ => ?_
  extract_lets rest
  have hrest (u : Unit) : Noting (rest u) := noting_mapOwn _
  refine .ite (reads_currentNs.next fun _ => ?_) (hrest ())
  exact .bind (noting_mapSinkNode fun _ => ⟨rfl, rfl, rfl⟩) hrest

section Hiding

variable {hidden : Option String}

lemma hands_withTarget {item : WithItem} (hitem : ∀ x, (Node.withItem item).boundName? =
    some x → told x)
    (h : ∀ x, hidden = some x → told x) :
    Hands (Aside (World.Notes told)) (fun hidden => ∀ x, hidden = some x → told x)
      (withTarget hidden item) := by
  refine Leads.need.hands fun text => ?_
  split
  · exact .pure h
  · next t ht =>
    refine reads_importMessages.leads.hands fun _ => ?_
    refine reads_isSinkModule.leads.hands fun _ => ?_
    extract_lets hides opened
    have hopened {hidden : Option String} (h : ∀ x, hidden = some x → told x) :
        Hands (Aside (World.Notes told)) (fun hidden => ∀ x, hidden = some x → told x)
          (opened hidden) := by
      refine .ite (reads_comesIn.leads.hands fun _ => .ite ?_ (.pure h)) (.pure h)
      exact Leads.need.hands fun _ => (noting_mapOwn _).telling.hands fun _ => .pure h
    refine .ite ?_ (hopened h)
    rw [textOf]
    cases hname : t.text? with
    | none => exact ⟨fun _ => .refl, fun _ _ _ hrun => nomatch hrun⟩
    | some name =>
      have hbound : (Node.withItem item).boundName? = some name :=
        by simp [Node.boundName?, ht, hname]
      rw [need, pure_bind]
      refine (telling_mapMessages fun m k hk => ?_).hands fun _ => hopened fun x hx => hitem x ?_
      · exact Table.get?_set_of_ne (ne_of_told (hitem name hbound) hk) _
      · rw [hbound, hx]

lemma telling_forgetHidden (h : ∀ x, hidden = some x → told x) :
    Telling told (forgetHidden hidden) := by
  unfold forgetHidden
  split
  · exact .pure
  · next name hname =>
    have htold := h name (eq_some_of_given? hname)
    refine reads_importMessages.next fun _ => .when .throw ?_
    refine telling_mapMessages fun m k hk => ?_
    rw [Table.get?_erase, if_neg (ne_of_told htold hk)]

end Hiding

lemma noting_noteAssigned {value : Expr} {targets : List Expr} :
    Noting (noteAssigned value targets) := by
  refine noting_noteUse.bind fun _ => reads_comesIn.next fun _ => ?_
  extract_lets rest
  have hrest (u : Unit) : Noting (rest u) := by
    refine reads_currentClass.next fun _ => ?_
    extract_lets viaField
    have hviaField : Noting viaField := by
      simp only [viaField]
      split
      · refine .or_pure (reads_getWorld.next fun w => ?_)
        refine reads_moduleName.next fun _ => Leads.need.bind fun m => ?_
        refine .or_pure (.forM fun t _ => ?_)
        split
        · exact noting_mapOwn _
        · exact .pure
      · exact .pure
    clear_value viaField
    split
    · refine reads_getOwn.next fun _ => ?_
      split
      · exact .forM fun t _ => noting_giveTypes
      · exact .pure
    · refine reads_importMessages.next fun _ => ?_
      split
      · exact .forM fun t _ => noting_giveTypes
      · exact .pure
    · exact hviaField
  refine .ite (.bind (.forM fun t _ => ?_) hrest) (hrest ())
  exact Leads.need.bind fun _ => noting_taint

/-- A call notes only what it may, and a sink if it is one that is searched for. `J` says what
actions may do. -/
lemma noteCall_of {J : ∀ {α : Type}, Site α → Prop} {K : World → Prop}
    (hbind : ∀ {α β : Type} {a : Site α} {f : α → Site β}, J a → (∀ v, J (f v)) → J (a >>= f))
    (hnoting : ∀ {α : Type} {a : Site α}, Noting a → J a)
    (hlook : ∀ {f : World → Site Unit}, (∀ w, K w → J (f w)) → J (getWorld >>= f))
    (hsink : ∀ {w method}, K w → w.sinks.resources.modulesOf.getD method [] ≠ [] →
      J (noteSink method))
    (func : Expr) (args : List Expr) : J (noteCall func args) := by
  have hpure : J (pure () : Site Unit) := hnoting .pure
  unfold noteCall
  split
  · exact hpure
  · extract_lets owner receiver callObject
    refine hbind (hnoting noting_noteUse) fun _ => hbind (hnoting reads_currentNs.leads) fun _ => ?_
    refine hbind (hnoting reads_importMessages.leads) fun _ => ?_
    refine hbind (hnoting (.forM fun _ _ => ?_)) fun _ => hlook fun w hw => ?_
    · exact reads_isSinkModule.next fun _ => .or_pure noting_noteSinkModule
    refine hbind (hnoting reads_getFrame.leads) fun f => ?_
    extract_lets modules found rest
    have hfound (hmodules : modules ≠ []) (filtered : Bool) : J (found filtered) := by
      simp only [found]
      split_ifs
      · exact hpure
      · refine hbind (hnoting reads_argumentTainted.leads) fun _ => ?_
        split_ifs
        · exact hsink hw hmodules
        · exact hpure
    have hrest (u : Unit) : J (rest u) := by
      simp only [rest]
      split_ifs with hempty
      · exact hpure
      have hmodules : modules ≠ [] := fun hnil => hempty (List.isEmpty_iff.mpr hnil)
      clear_value receiver found
      split
      · exact hbind (hnoting noting_plainCallFiltered) (hfound hmodules)
      · exact hbind (hnoting reads_receiverFiltered.leads) (hfound hmodules)
    split_ifs
    · exact hbind (hnoting noting_noteMiddle) hrest
    · exact hrest ()

lemma surveying_noteCall (func : Expr) (args : List Expr) : Surveying (noteCall func args) :=
  noteCall_of Leads.bind (·.surveying)
    (fun h => reads_getWorld.next fun w => h w trivial) (fun _ _ => surveying_noteSink) func args

/-! ### Root methods -/

/-- The methods of the nodes are the root methods, and the sinks that are searched for are given. -/
def Grounded (resources : Resources) (w : World) : Prop :=
  w.sinks.resources = resources ∧ Founded (fun _ => False) w.sinks

abbrev Grounding {α : Type} (resources : Resources) (a : Site α) : Prop :=
  Yields (fun s t => Grounded resources s.world → Grounded resources t.world) a

lemma Grounding.run {a : Site α} (h : Grounding resources a) {v : α} (hrun : a s = (.ok v, t))
    (hs : Grounded resources s.world) : Grounded resources t.world :=
  Yields.keeps (P := fun s => Grounded resources s.world) h hrun hs

lemma Grounded.settle {w w' : World} (h : Grounded resources w) (hw : Settles w.sinks w'.sinks) :
    Grounded resources w' := ⟨hw.resources.trans h.1, h.2.settle hw⟩

lemma grounding_of_noting {a : Site α} (h : Noting a) : Grounding resources a := by
  refine fun s v t hrun => .single fun hs => hs.settle ?_
  have hstep := h.step s
  rw [hrun] at hstep
  exact hstep.world.sinks

lemma grounding_getWorld_bind {f : World → Site α}
    (h : ∀ w, w.sinks.resources = resources → Grounding resources (f w)) :
    Grounding resources (getWorld >>= f) :=
  fun s _ _ hrun => .single fun hs => (h s.world hs.1).run hrun hs

lemma isSome_of_ensureSinkNode (hrun : ensureSinkNode s = (.ok v, t)) :
    (t.world.sinks.node? t.frame.module).isSome := by
  obtain ⟨f, s₁, hf, hrun⟩ := of_bind hrun
  cases hf
  obtain ⟨w, s₂, hw, hrun⟩ := of_bind hrun
  cases hw
  rw [run_ite] at hrun
  split_ifs at hrun with hmodule
  · cases hrun
    rwa [Table.contains_eq_isSome] at hmodule
  · have hframe : t.frame = s.frame := by
      have h := congrArg (·.2.frame) hrun
      exact h.symm
    rw [hframe]
    exact isSome_of_initSinkNode (run_of_onWorld hrun)

lemma grounded_moreSites {mod ns : String} {sinkModules : Names} (h : Grounded resources s.world)
    (hnode : (s.world.sinks.node? mod).isSome)
    (hroot : s.world.sinks.roots.contains mod)
    (hrun : sinkModules.forM (fun m => mapSinks (addSite mod ns m (m ++ ":" ++ method))) s =
      (.ok v, t)) :
    Grounded resources t.world := by
  induction sinkModules generalizing s with
  | nil =>
    cases hrun
    exact h
  | cons m ms ih =>
    obtain ⟨_, s₁, hsite, hrun⟩ := of_bind hrun
    cases hsite
    have hlate : Founded (· = mod) s.world.sinks :=
      { h.2 with inhabited := fun e he => .inr ((h.2.inhabited e he).resolve_left id) }
    obtain ⟨hnode', hroot', hres'⟩ := addSite_keeps ns m (m ++ ":" ++ method) hnode hroot
    exact ih ⟨hres'.trans h.1, founded_addSite hlate hnode hroot⟩ hnode' hroot' hrun

lemma grounding_noteSink (hmethod : resources.modulesOf.getD method [] ≠ []) :
    Grounding resources (noteSink method) := by
  intro s v t hrun
  refine .single fun hs => ?_
  obtain ⟨_, s₁, hensure, hrun⟩ := of_bind hrun
  have hnode := isSome_of_ensureSinkNode hensure
  have hs₁ := (grounding_of_noting noting_ensureSinkNode).run hensure hs
  obtain ⟨f, _, hf, hrun⟩ := of_bind hrun
  cases hf
  obtain ⟨_, _, hsource, hrun⟩ := of_bind hrun
  cases hsource
  obtain ⟨_, s₂, hcreate, hrun⟩ := of_bind hrun
  have hcreate : createRoot s₁.frame.module (addSource s₁.frame.file s₁.world).sinks = _ :=
    run_of_onSinks hcreate
  rw [sinks_addSource] at hcreate
  obtain ⟨hfounded, hroot, hnodes, hres⟩ := founded_createRoot hs₁.2 hcreate
  obtain ⟨ns, _, hns, hrun⟩ := of_bind hrun
  cases hns
  obtain ⟨w, _, hw, hrun⟩ := of_bind hrun
  cases hw
  have hres₂ : s₂.world.sinks.resources = resources := hres.trans hs₁.1
  rw [hres₂] at hrun
  obtain ⟨m, ms, hms⟩ := List.exists_cons_of_ne_nil hmethod
  rw [hms] at hrun
  obtain ⟨_, _, hsite, hrun⟩ := of_bind hrun
  cases hsite
  have hnode₂ : (s₂.world.sinks.node? s₁.frame.module).isSome := by
    rw [node?, hnodes]
    exact hnode
  obtain ⟨hnode₃, hroot₃, hres₃⟩ := addSite_keeps _ m (m ++ ":" ++ method) hnode₂ hroot
  exact grounded_moreSites ⟨hres₃.trans hres₂, founded_addSite hfounded hnode₂ hroot⟩
    hnode₃ hroot₃ hrun

lemma grounding_noteCall {func : Expr} : Grounding resources (noteCall func args) :=
  noteCall_of Yields.bind
    grounding_of_noting grounding_getWorld_bind
    (fun hw hmethod => grounding_noteSink (by rwa [hw] at hmethod)) func args

/-! ### The walk -/

/-- The invariant stands what the first pass notes, and what it finds at calls. -/
structure Locating (told : String → Prop) (E I : Walk SinkSites → Prop) : Prop
    extends Tolerant (World.Notes told) (fun _ => False) E I where
  noteCall : ∀ p func args, UpholdsAt E I p (noteCall func args)

namespace Locating

variable {E I : Walk SinkSites → Prop} {p : Place} {v w : Node → Site Unit} (hI : Locating told E I)
  {body : List Stmt}

include hI

lemma notes {a : Site α} (ha : Noting a) : AlikeAt E I p a a := hI.aside ha.telling

lemma classDef {c : ClassDecl Stmt} (h : AlikeOn E I (p.inClass c.name) v w .stmt c.body) :
    AlikeAt E I p (classDef v c) (classDef w c) := by
  refine hI.inClass c.name ?_
  refine (hI.notes (.forM fun b _ => noting_baseClass)).bind fun _ => ?_
  refine (hI.reads reads_getWorld).bind fun _ => (hI.reads reads_moduleName).bind fun _ => ?_
  exact .ite (.pure _) (.forM h)

lemma functionDef {f : Function Stmt} (h : AlikeOn E I (p.inFunction f.name) v w .stmt f.body) :
    AlikeAt E I p (functionDef v f) (functionDef w f) := by
  refine hI.inFunction f.name (hI.mapOwn.bind fun _ => ?_)
  refine (hI.notes noting_takeParams).bind fun _ => (Alike.forM h).bind fun _ => ?_
  exact hI.notes noting_leaveFunction

lemma forLoop {iter : Expr} (h : AlikeOn E I p v w .stmt body) :
    AlikeAt E I p (forLoop v target iter body) (forLoop w target iter body) := by
  unfold SinkSites.forLoop
  split
  · refine (hI.reads reads_getOwn).bind fun _ => ?_
    exact .when (hI.notes noting_taint) (.forM h)
  · exact .pure _

lemma withBlock {items : List WithItem} (h : ∀ c, c.Within told → AlikeAt E I p (v c) (w c))
    (hitems : ∀ item ∈ items, (Node.withItem item).Within told)
    (hbody : ∀ s ∈ body, (stmt s).Within told) :
    AlikeAt E I p (withBlock v items body) (withBlock w items body) := by
  obtain ⟨hsame, hhidden⟩ : AlikeAt E I p (items.foldlM (withItem v) none)
        (items.foldlM (withItem w) none) ∧
      Gives (fun hidden => ∀ x, hidden = some x → told x) (items.foldlM (withItem v) none) := by
    refine Alike.foldlM_of (fun hidden hhidden item hitem => ?_) nofun
    have hin := hitems item hitem
    obtain ⟨htarget, hhanded⟩ := hands_withTarget (fun x => hin.here) hhidden
    refine ⟨(hI.aside htarget).bind fun hidden => ?_, hhanded.bind fun hidden hh => ?_⟩
    · split
      · exact (h _ (hin.part (by simp [children]))).bind fun _ => .pure _
      · exact .pure _
    · split
      · exact gives_bind _ fun _ => .pure hh
      · exact .pure hh
  refine hsame.bind_of (fun s v t _ => hhidden s v t) fun _ hh => ?_
  exact (Alike.forM fun s hs => h _ (hbody s hs)).bind fun _ => hI.aside (telling_forgetHidden hh)

lemma rule {n : Node} (hn : n.Within told)
    (h : ∀ q c, c.Within told → AlikeAt E I q (v c) (w c)) :
    AlikeAt E I p (rule v n) (rule w n) := by
  have hpart {q : Place} {c : Node} (hc : c ∈ n.children) : AlikeAt E I q (v c) (w c) :=
    h q c (hn.part hc)
  unfold SinkSites.rule
  split
  · refine hI.aside (.forM fun a ha => telling_importName fun x => (hn.part ?_).here)
    simp [Node.children, Node.ofStmt, Import.names, ha]
  · refine hI.aside (.forM fun a ha => telling_importName fun x => (hn.part ?_).here)
    simp [Node.children, Node.ofStmt, Import.names, ha]
  · exact hI.classDef fun s hs => hpart (by simp [children, ofStmt, stmts, hs])
  · exact hI.functionDef fun s hs => hpart (by simp [children, ofStmt, stmts, hs])
  · exact hI.forLoop fun s hs => hpart (by simp [children, ofStmt, stmts, hs])
  · refine hI.withBlock (h p) (fun _ hitem => hn.part ?_) fun s hs => hn.part ?_
    · simp [Node.children, Node.ofStmt, hitem]
    · simp [Node.children, Node.ofStmt, Node.stmts, hs]
  · exact (hpart (by simp [children, ofStmt])).bind fun _ => hI.notes noting_noteAssigned
  · exact hI.notes noting_fieldHint
  · refine hI.mapOwn.bind fun _ => (hI.notes noting_noteUse).bind fun _ => hpart ?_
    simp [children, ofStmt, opt]
  · exact (hpart (by simp [children, ofExpr])).bind fun _ => (hI.noteCall p _ _).alike
  · exact .pure _
  · exact .pure _
  · exact .pure _
  · exact .pure _
  · exact .forM fun c hc => hpart hc

lemma visit (fuel : Nat) {n : Node} (hn : n.Within told) : UpholdsAt E I p (visit fuel n) := by
  induction fuel generalizing p n with
  | zero => exact hI.fault
  | succ fuel ih => exact (hI.rule hn fun _ _ hc => (ih hc).alike).upholds

lemma analyze (htold : ∀ x, told x) : UpholdsAt E I p analyze := by
  refine (hI.leads reads_getFrame.leads).bind fun f => ?_
  refine (hI.notes noting_ensureImportNode).upholds.bind fun _ => ?_
  refine (hI.leads reads_program.leads).bind fun _ => ?_
  refine (hI.notes noting_setCurrent).upholds.bind fun _ => ?_
  exact (hI.notes noting_ensureModule).upholds.bind fun _ => hI.visit _ fun _ x _ => htold x

end Locating

lemma locating_of_surveys {E I : Walk SinkSites → Prop}
    (hstep : Stable I (Aside (World.Surveys told))) (hfails : ∀ s, I s → E s) (hmove : Moves I) :
    Locating told E I :=
  { tolerant_notes (stable_notes hstep) hfails hmove with
    noteCall := fun p func args =>
      upholdsAt_of_surveying hstep hfails (surveying_noteCall func args) p }

lemma locating_grounded :
    Locating Any Any fun s : Walk SinkSites => Grounded resources s.world := by
  refine { tolerant_notes (fun s t hs hst => hs.settle hst.world.sinks)
    (fun _ _ => trivial) fun s _ _ _ hs => hs with noteCall := fun p func args s hs => ?_ }
  have haside := (surveying_noteCall func args).step s
  rcases hrun : noteCall func args s with ⟨_ | u, t⟩
  · trivial
  · rw [hrun] at haside
    exact ⟨haside.at hs.1, grounding_noteCall.run hrun hs.2⟩

/-- However the visit to a node ends, the entries of the import table stay as they are, but those of
names that are imported or are targets of items inside the node. -/
theorem visit_keeps_import (fuel : Nat) {n : Node} {k : String}
    (hk : ∀ depth, k ∉ n.boundNames depth)
    (s : Walk SinkSites) :
    (visit fuel n s).2.world.messages.imports.get? k = s.world.messages.imports.get? k := by
  have hI : Locating (· ≠ k)
      (fun t => t.world.messages.imports.get? k = s.world.messages.imports.get? k)
      (fun t => t.world.messages.imports.get? k = s.world.messages.imports.get? k) :=
    locating_of_surveys (fun _ _ hs hst => (hst.world.messages k (· rfl)).trans hs) (fun _ => id)
      fun _ _ _ _ => id
  have hn : n.Within (· ≠ k) := fun depth x hx heq => hk depth (heq ▸ hx)
  exact world_of_alike (I := fun w => w.messages.imports.get? k = s.world.messages.imports.get? k)
    (hI.visit fuel hn).alike rfl

def twoItems : Stmt :=
  .withBlock {} false [⟨.name {} "a", some (.name {} "x")⟩, ⟨.name {} "b", some (.name {} "y")⟩]
  [.pass {}]

def withImports : Walk SinkSites :=
  { world := { messages := { imports := ⟨[("a", ["a"]), ("b", ["b"])]⟩ } }
    frame := { file := "m.py", module := "m" }
    own := {} }

theorem visit_keeps_import_twoItems : (∀ depth, "a" ∉ (Node.stmt twoItems).boundNames depth) ∧
    (visit 2 (.stmt twoItems) withImports).2.world.messages.imports.get? "a" =
      withImports.world.messages.imports.get? "a" := by
  have hk (depth : Nat) : "a" ∉ (Node.stmt twoItems).boundNames depth := by
    have hx : (Expr.name {} "x").text? = some "x" := by decide
    have hy : (Expr.name {} "y").text? = some "y" := by decide
    rcases depth with _ | _ | _ | depth <;>
      simp [twoItems, Node.boundNames, Node.boundName?, Node.children, Node.ofStmt, Node.stmts,
        Node.opt, Node.ofExpr, hx, hy]
  exact ⟨hk, visit_keeps_import 2 hk withImports⟩

/-- Both targets get an entry, and only that of the last one is removed at the end. -/
theorem target_left_over : (visit 2 (.stmt twoItems) withImports).1.toOption = some () ∧
      withImports.world.messages.imports.keys = ["a", "b"] ∧
      (visit 2 (.stmt twoItems) withImports).2.world.messages.imports.keys = ["a", "b", "x"] := by
  decide +kernel

lemma grounded_analyze (hrun : analyze s = (.ok v, t)) (hs : Grounded resources s.world) :
    Grounded resources t.world := by
  have hend := locating_grounded.analyze (fun _ => trivial) (p := .ofFrame s.frame) s
    ⟨Place.at_of_eq rfl rfl rfl, hs⟩
  rw [hrun] at hend
  exact hend.2

end SinkSites

end SinkTrace
