import SinkTrace.Proofs.Definition.Persistence
import SinkTrace.Proofs.Module
import SinkTrace.Proofs.Sink.Growth
import SinkTrace.Proofs.Walk.Blocks

/-!
# Worlds that only grow

A walk that declares things or follows values takes nothing away from the world: no definition with
what it points to, no scope with the names that are bound in it, no class, and no method that leads
to a sink. What it does between its visits also leaves alone which classes there are, what the
scopes number and which module imports which, notes no block as declared and keeps the definitions
at their own namespaces; `Developing` says so of an action, whether it ends well or not.
-/

namespace SinkTrace

open Definitions World

/-- Nothing of `w` is missing in `w'`. -/
structure World.Develops (w w' : World) : Prop where
  defs : w.defs.Develops w'.defs
  scopes : w.scopes.Keeps w'.scopes
  classes : ∀ c, w.classes.contains c = true → w'.classes.contains c = true
  methods : ∀ X x, w.sinks.HasMethod X x → w'.sinks.HasMethod X x

namespace World

variable {w w' w'' : World} {ds : Definitions} {ss : Scopes}

lemma Develops.refl (w : World) : Develops w w := ⟨.refl, .refl _, fun _ h => h, fun _ _ h => h⟩

lemma Develops.trans (h : Develops w w') (h' : Develops w' w'') : Develops w w'' where
  defs := h.defs.trans h'.defs
  scopes := h.scopes.trans h'.scopes
  classes c hc := h'.classes c (h.classes c hc)
  methods X x hx := h'.methods X x (h.methods X x hx)

lemma develops_defs (w : World) (h : w.defs.Develops ds) : Develops w { w with defs := ds } :=
  { Develops.refl w with defs := h }

lemma develops_scopes (w : World) (h : w.scopes.Keeps ss) : Develops w { w with scopes := ss } :=
  { Develops.refl w with scopes := h }

lemma develops_sinks (w : World) {ss : Sinks} (h : ∀ X x, w.sinks.HasMethod X x →
    ss.HasMethod X x) :
    Develops w { w with sinks := ss } := { Develops.refl w with methods := h }

/-- Nothing of `w` is missing in `w'`, which has the same classes and import graph. -/
structure Enriches (w w' : World) : Prop extends World.Develops w w' where
  counts : ∀ ns, w'.scopes.lambdas ns = w.scopes.lambdas ns
  owners : ∀ c, (w'.classes.get? c).map (·.module) = (w.classes.get? c).map (·.module)
  graph : w'.imports.graph = w.imports.graph
  modules : w.modules.Expands w'.modules
  analyzed : ∀ X x, w'.sinks.Analyzed X x → w.sinks.Analyzed X x
  keyed : w.defs.Keyed → w'.defs.Keyed

lemma Enriches.refl (w : World) : Enriches w w :=
  { Develops.refl w with
    counts := fun _ => rfl, owners := fun _ => rfl, graph := rfl, modules := .refl
    analyzed := fun _ _ h => h, keyed := fun h => h }

lemma enriches_defs (w : World) (h : w.defs.Enriches ds) : Enriches w { w with defs := ds } :=
  { Enriches.refl w with defs := h.develops, keyed := h.keyed }

lemma enriches_scopes (w : World) (h : w.scopes.Adds ss) : Enriches w { w with scopes := ss } :=
  { Enriches.refl w with scopes := h.keeps, counts := h.counts }

end World

namespace Walk

open Act

variable {ρ α β : Type} {a : Roam ρ α} {file module name ns : String} {kind : DefKind}
  {r : DefRef}

abbrev Developing (a : Roam ρ α) : Prop := Leads (Aside World.Enriches) a

lemma developing_of_world (hframe : ∀ s : Walk ρ, (a s).2.frame = s.frame)
    (h : ∀ s : Walk ρ, s.world.Enriches (a s).2.world) : Developing a :=
  fun s => .single (aside_of_world (hframe s) (h s))

/-! ### Parts of the world -/

lemma developing_mapFrame {f : Frame → Frame}
    (h : ∀ g, ∃ lastCalled closes lost, f g = { g with lastCalled, closes, lost }) :
    Developing (mapFrame f : Roam ρ Unit) := fun s => .single ⟨h s.frame, .refl s.world⟩

lemma developing_mapOwn {f : ρ → ρ} : Developing (mapOwn f) :=
  developing_of_world (fun _ => rfl) fun s => .refl s.world

lemma reads_onImports {a : Act Imports α} (h : Reads a) : Reads (onImports a : Roam ρ α) := by
  intro s
  have hstate : (onImports a s).2 =
      { s with world := { s.world with imports := (a s.world.imports).2 } } := rfl
  rw [hstate, h.state_eq]

lemma developing_setCurrent :
    Developing (onImports (modify (·.setCurrent module file)) : Roam ρ Unit) :=
  developing_of_world (fun _ => rfl) fun s => { Enriches.refl s.world with }

lemma developing_mapModules {f : Modules → Modules} (h : ∀ ms : Modules, ms.Expands (f ms)) :
    Developing (mapModules f : Roam ρ Unit) :=
  developing_of_world (fun _ => rfl) fun s =>
    { Enriches.refl s.world with modules := h s.world.modules }

lemma developing_withClass {cls : String} :
    Developing (mapModules (·.adjust module (·.withClass cls)) : Roam ρ Unit) :=
  developing_mapModules fun ms => ms.expands_adjust fun _ _ hx => hx

lemma developing_addSource : Developing (mapWorld (addSource file) : Roam ρ Unit) := by
  refine developing_of_world (fun _ => rfl) fun s => ?_
  simp only [mapWorld, run_modify, addSource]
  split_ifs
  · exact .refl s.world
  · exact { Enriches.refl s.world with }

lemma developing_mapScopes {f : Scopes → Scopes} (h : ∀ ss : Scopes, ss.Adds (f ss)) :
    Developing (mapWorld (mapScopes f) : Roam ρ Unit) :=
  developing_of_world (fun _ => rfl) fun s => s.world.enriches_scopes (h _)

lemma developing_bind (r : DefRef) :
    Developing (mapWorld (mapScopes (Scopes.bind · ns name r)) : Roam ρ Unit) :=
  developing_mapScopes fun ss => ss.adds_bind

lemma developing_createScope {parent : Option String} :
    Developing (mapWorld (mapScopes (·.create ns parent)) : Roam ρ Unit) :=
  developing_mapScopes fun ss => ss.adds_create

lemma developing_onScopes {a : Act Scopes α} (h : Leads Scopes.Adds a) :
    Developing (onScopes a : Roam ρ α) :=
  developing_of_world (fun _ => rfl) fun s =>
    s.world.enriches_scopes (h.run .refl (fun _ _ _ => .trans) _)

lemma developing_bindIn : Developing (bindIn ns name r : Roam ρ Unit) := by
  refine reads_hasScope.next fun b => ?_
  exact .ite (developing_bind r) (Leads.throw.bind fun _ => developing_bind r)

lemma developing_modifyClass {f : ClassInfo → ClassInfo} (h : ∀ c, (f c).module = c.module) :
    Developing (mapWorld (mapClasses (·.modify name f)) : Roam ρ Unit) := by
  refine developing_of_world (fun _ => rfl) fun s =>
    { Enriches.refl s.world with classes := fun c hc => ?_, owners := fun c => ?_ }
  · simpa [mapWorld, run_modify, mapClasses] using hc
  · simp only [mapWorld, run_modify, mapClasses, Table.get?_modify]
    split_ifs
    · rw [Option.map_map]
      exact congrArg (Option.map · (s.world.classes.get? c)) (funext h)
    · rfl

lemma developing_mapSinks {f : Sinks → Sinks}
    (h : ∀ ss : Sinks, ∀ X x, ss.HasMethod X x → (f ss).HasMethod X x)
    (hnoted : ∀ ss : Sinks, ∀ X x, (f ss).Analyzed X x → ss.Analyzed X x) :
    Developing (mapSinks f : Roam ρ Unit) :=
  developing_of_world (fun _ => rfl) fun s =>
    { Enriches.refl s.world with methods := h _, analyzed := hnoted _ }

lemma developing_mapSinkNode {f : SinkNode → SinkNode} (h : ∀ n, (f n).methodUsers = n.methodUsers)
    (hnoted : ∀ n, ∀ b ∈ (f n).analyzed, b ∈ n.analyzed) :
    Developing (mapSinkNode module f : Roam ρ Unit) :=
  developing_mapSinks (fun _ _ _ hx => Sinks.hasMethod_of_adjustNode h hx)
    fun _ _ _ => Sinks.analyzed_of_adjustNode hnoted

lemma developing_onSinks {a : Act Sinks α} (h : Leads Sinks.Settles a) :
    Developing (onSinks a : Roam ρ α) := by
  have hrun := h.run .refl (fun _ _ _ => .trans)
  exact developing_of_world (fun _ => rfl) fun s =>
    { Enriches.refl s.world with
      methods := (hrun s.world.sinks).methods, analyzed := (hrun s.world.sinks).analyzed }

/-! ### Definitions -/

lemma developing_mapDefs {f : Definitions → Definitions} (h : ∀ ds, Enriches ds (f ds)) :
    Developing (mapDefs f : Roam ρ Unit) :=
  developing_of_world (fun _ => rfl) fun s => s.world.enriches_defs (h _)

lemma developing_onDefs {replace : Bool} {a : Act Definitions α}
    (h : Leads (Edit replace) a) : Developing (onDefs a : Roam ρ α) :=
  developing_of_world (fun _ => rfl) fun s => s.world.enriches_defs (Edits.enriches (h _))

lemma developing_onName {a : Act NamePointer α} (h : Refitting a) :
    Developing (onDefs (onName r a) : Roam ρ α) := developing_onDefs (leads_onName h)

lemma developing_create {tag : String} {module : Option String} :
    Developing (onDefs (create ns tag module) : Roam ρ DefRef) :=
  developing_onDefs (leads_create ns tag module)

lemma developing_createDef : Developing (createDef ns kind : Roam ρ DefRef) :=
  reads_moduleName.next fun _ => developing_create

lemma developing_ensureDef : Developing (ensureDef ns kind : Roam ρ DefRef) := by
  refine reads_def?.next fun r => ?_
  split
  · exact .pure
  · exact developing_createDef

lemma developing_addName : Developing (addName r name : Roam ρ Unit) :=
  developing_mapDefs fun ds => ds.enriches_addName r

lemma developing_addTaint : Developing (addTaint r name : Roam ρ Unit) :=
  developing_mapDefs fun ds => ds.enriches_addTaint r

lemma developing_addLiteral {l : Literal} : Developing (addLiteral r l : Roam ρ Unit) :=
  developing_mapDefs fun ds => ds.enriches_addLiteral r

lemma developing_flows {source target : DefRef} : Developing (flows source target : Roam ρ Unit) :=
  developing_addName.bind fun _ => developing_addTaint

lemma developing_of_coins (h : Leads Coins a) : Developing a := by
  refine h.mono fun s t hst => ?_
  cases hst with
  | coin ns =>
    have hcreate := leads_create ns DefKind.name.tag (some s.frame.module) s.world.defs
    exact aside_of_world rfl (s.world.enriches_defs (Edits.enriches hcreate))

lemma developing_meaning {e : Expr} : Developing (meaning e : Roam ρ (List Meaning)) :=
  developing_of_coins leads_meaning

/-! ### Worlds that have come from one -/

lemma recountable_develops {w₀ : World} : Recountable w₀.Develops := by
  intro w ns f hf hw
  refine hw.trans (w.develops_scopes (w.scopes.keeps_modify fun s hs _ _ => ?_))
  rwa [(hf s hs).2]

lemma tolerant_develops (w₀ : World) : Tolerant Enriches Any (fun s : Walk ρ => w₀.Develops s.world)
      (fun s => w₀.Develops s.world) :=
  tolerant_of_world .refl (fun w _ _ => w.enriches_scopes w.scopes.adds_create)
    (fun _ _ hw hstep => hw.trans hstep.toDevelops) recountable_develops fun _ hw => hw

end Walk

end SinkTrace
