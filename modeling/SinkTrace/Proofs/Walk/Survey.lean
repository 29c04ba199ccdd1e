import SinkTrace.Proofs.Import
import SinkTrace.Proofs.Module
import SinkTrace.Proofs.Walk.Blocks
import SinkTrace.Proofs.Walk.Enclosure

/-!
# What the first passes leave as it is

The first two passes find what leads to a sink. They know no class of objects and no module outside
the package yet, and a module keeps the file that it was found in. `Surveying` says so of an action.
It is `Noting` if it also brings no method that leads to a sink and forgets no caller, and `Telling`
if besides it may change what is known of some names in the import table.
-/

namespace SinkTrace

open World

namespace World

/-- No definition, class or outer module is new, and only names that are told change in the import
table. -/
structure Surveys (told : String → Prop) (w w' : World) : Prop where
  chain : w'.chain = w.chain
  package : w'.package = w.package
  defs : w'.defs = w.defs
  classes : w'.classes = w.classes
  outer : ∀ m, w'.modules.outer.contains m = true → w.modules.outer.contains m = true
  imports : w.imports.Extends w'.imports
  messages : ∀ k, ¬told k → w'.messages.imports.get? k = w.messages.imports.get? k

/-- Nor is a method that leads to a sink, and no caller is forgotten. -/
structure Notes (told : String → Prop) (w w' : World) : Prop extends World.Surveys told w w' where
  sinks : w.sinks.Settles w'.sinks
  callers : w.modules.Remembers w'.modules

variable {told : String → Prop} {w w' w'' : World}

lemma Surveys.refl (w : World) : Surveys (fun _ => False) w w :=
  ⟨rfl, rfl, rfl, rfl, fun _ h => h, .refl _, fun _ _ => rfl⟩

lemma Surveys.tells (h : Surveys (fun _ => False) w w') : Surveys told w w' :=
  { h with messages := fun k _ => h.messages k id }

lemma Surveys.trans (h : Surveys told w w') (h' : Surveys told w' w'') : Surveys told w w'' where
  chain := h'.chain.trans h.chain
  package := h'.package.trans h.package
  defs := h'.defs.trans h.defs
  classes := h'.classes.trans h.classes
  outer m hm := h.outer m (h'.outer m hm)
  imports := h.imports.trans h'.imports
  messages k hk := (h'.messages k hk).trans (h.messages k hk)

lemma Notes.refl (w : World) : Notes (fun _ => False) w w :=
  { Surveys.refl w with sinks := .refl _, callers := .refl }

lemma Notes.tells (h : Notes (fun _ => False) w w') : Notes told w w' :=
  { h with messages := fun k _ => h.messages k id }

lemma Notes.trans (h : Notes told w w') (h' : Notes told w' w'') : Notes told w w'' :=
  { h.toSurveys.trans h'.toSurveys with
    sinks := h.sinks.trans h'.sinks, callers := h.callers.trans h'.callers }

end World

namespace Walk

open Act Sinks

variable {ρ α : Type} {f : Sinks → Sinks} {file module : String} {v : α}

abbrev Surveying (a : Roam ρ α) : Prop := Leads (Aside (World.Surveys fun _ => False)) a

abbrev Telling (told : String → Prop) (a : Roam ρ α) : Prop := Leads (Aside (World.Notes told)) a

abbrev Noting (a : Roam ρ α) : Prop := Telling (fun _ => False) a

variable {a : Roam ρ α} {told : String → Prop}

lemma Noting.telling (h : Noting a) : Telling told a :=
  h.mono fun _ _ hst => ⟨hst.frame, hst.world.tells⟩

lemma Noting.surveying (h : Noting a) : Surveying a :=
  h.mono fun _ _ hst => ⟨hst.frame, hst.world.toSurveys⟩

lemma Surveying.step (h : Surveying a) (s : Walk ρ) : Aside (Surveys fun _ => False) s (a s).2 :=
  h.run (fun s => aside_of_world rfl (.refl s.world)) (fun _ _ _ => .trans fun _ _ _ => .trans) s

lemma Telling.step (h : Telling told a) (s : Walk ρ) : Aside (Notes told) s (a s).2 :=
  h.run (fun s => aside_of_world rfl (Notes.refl s.world).tells)
    (fun _ _ _ => .trans fun _ _ _ => .trans) s

lemma telling_of_world (hframe : ∀ s : Walk ρ, (a s).2.frame = s.frame)
    (h : ∀ s : Walk ρ, Notes told s.world (a s).2.world) : Telling told a :=
  fun s => .single (aside_of_world (hframe s) (h s))

/-! ### Parts of the world -/

lemma noting_mapOwn (f : ρ → ρ) : Noting (mapOwn f) :=
  telling_of_world (fun _ => rfl) fun s => .refl s.world

lemma noting_mapMiddles {f : Middles → Middles} : Noting (mapMiddles f : Roam ρ Unit) :=
  telling_of_world (fun _ => rfl) fun s => { Notes.refl s.world with }

lemma noting_onMiddles {a : Act Middles α} : Noting (onMiddles a : Roam ρ α) :=
  telling_of_world (fun _ => rfl) fun s => { Notes.refl s.world with }

lemma telling_mapMessages {f : Messages → Messages}
    (h : ∀ m k, ¬told k → (f m).imports.get? k = m.imports.get? k) :
    Telling told (mapWorld (mapMessages f) : Roam ρ Unit) :=
  telling_of_world (fun _ => rfl) fun s =>
    { Notes.refl s.world with messages := h s.world.messages }

lemma noting_addSource : Noting (mapWorld (addSource file) : Roam ρ Unit) := by
  refine telling_of_world (fun _ => rfl) fun s => ?_
  simp only [mapWorld, run_modify, addSource]
  split_ifs
  · exact .refl s.world
  · exact { Notes.refl s.world with }

lemma noting_onWorld {a : Act World α} (h : Leads (Notes fun _ => False) a) :
    Noting (onWorld a : Roam ρ α) := by
  have hrun := h.run .refl (fun _ _ _ => .trans)
  exact telling_of_world (fun _ => rfl) fun s => hrun s.world

lemma noting_onImports {a : Act Imports α} (h : Leads Imports.Extends a) :
    Noting (onImports a : Roam ρ α) := by
  have hrun := h.run .refl (fun _ _ _ => .trans)
  exact telling_of_world (fun _ => rfl) fun s =>
    { Notes.refl s.world with imports := hrun s.world.imports }

lemma noting_setCurrent : Noting (onImports (modify (·.setCurrent module file)) : Roam ρ Unit) :=
  noting_onImports fun is => .single (is.extends_setCurrent module file)

lemma noting_ensureImportNode : Noting (onWorld (ensureImportNode module file) : Roam ρ Unit) :=
  noting_onImports (Imports.extends_unlessKnown fun _ hmodule =>
    .single (Imports.extends_addNode file hmodule))

/-! ### Sinks -/

lemma surveying_mapSinks : Surveying (mapSinks f : Roam ρ Unit) :=
  fun s => .single (aside_of_world rfl { Surveys.refl s.world with })

lemma surveying_onSinks {a : Act Sinks α} : Surveying (onSinks a : Roam ρ α) :=
  fun s => .single (aside_of_world rfl { Surveys.refl s.world with })

lemma noting_mapSinks (h : ∀ ss, Settles ss (f ss)) : Noting (mapSinks f : Roam ρ Unit) :=
  telling_of_world (fun _ => rfl) fun s =>
    { Notes.refl s.world with sinks := h s.world.sinks }

lemma noting_mapSinkNode {mod : String} {f : SinkNode → SinkNode}
    (h : ∀ n, (f n).methodUsers = n.methodUsers ∧ (f n).callers = n.callers ∧
      (f n).analyzed = n.analyzed) :
    Noting (mapSinkNode mod f : Roam ρ Unit) :=
  noting_mapSinks fun ss => settles_adjustNode ss mod fun n => ⟨(h n).1, .inl (h n).2.1, (h n).2.2⟩

lemma notes_onSinks {a : Act Sinks α} (h : Leads Settles a) :
    Leads (World.Notes fun _ => False) (World.onSinks a) := by
  have hrun := h.run .refl (fun _ _ _ => .trans)
  exact fun w => .single { World.Notes.refl w with sinks := hrun w.sinks }

lemma noting_onSinks {a : Act Sinks α} (h : Leads Settles a) : Noting (onSinks a : Roam ρ α) :=
  noting_onWorld (notes_onSinks h)

lemma notes_initSinkNode : Leads (World.Notes fun _ => False) (World.initSinkNode module file) := by
  refine (notes_onSinks (leads_createNode.bind fun _ => leads_setFilename)).bind fun _ => ?_
  exact Leads.get.bind fun w => .or_pure (notes_onSinks leads_setCallers)

lemma noting_initSinkNode : Noting (onWorld (initSinkNode module file) : Roam ρ Unit) :=
  noting_onWorld notes_initSinkNode

lemma run_of_onWorld {a : Act World α} {s t : Walk ρ} (h : onWorld a s = (.ok v, t)) :
    a s.world = (.ok v, t.world) := by
  have hvalue := congrArg Prod.fst h
  have hworld := congrArg (·.2.world) h
  exact Prod.ext hvalue hworld

lemma run_of_onSinks {a : Act Sinks α} {s t : Walk ρ} (h : onSinks a s = (.ok v, t)) :
    a s.world.sinks = (.ok v, t.world.sinks) := by
  have hvalue := congrArg Prod.fst h
  have hsinks := congrArg (·.2.world.sinks) h
  exact Prod.ext hvalue hsinks

lemma run_of_onImports {a : Act Imports α} {s t : Walk ρ} (h : onImports a s = (.ok v, t)) :
    a s.world.imports = (.ok v, t.world.imports) := by
  have hvalue := congrArg Prod.fst h
  have himports := congrArg (·.2.world.imports) h
  exact Prod.ext hvalue himports

lemma sinks_addSource (file : String) (w : World) : (addSource file w).sinks = w.sinks := by
  unfold addSource
  split_ifs <;> rfl

lemma isSome_of_initSinkNode {w w' : World} {v : Unit}
    (hrun : World.initSinkNode module file w = (.ok v, w')) :
    (w'.sinks.node? module).isSome := by
  obtain ⟨u, w₁, hnode, hrest⟩ := of_bind hrun
  have hthere : (w₁.sinks.node? module).isSome := by
    have hfirst := congrArg Prod.fst hnode
    have hsecond := congrArg (·.2.sinks) hnode
    obtain ⟨_, ss, -, hset⟩ := of_bind (Prod.ext hfirst hsecond :
      (do createNode module; setFilename module (some file)) w.sinks
        = (.ok u, w₁.sinks))
    exact isSome_of_setFilename hset
  have hnotes : World.Notes (fun _ => False) w₁ w' := by
    have hleads : Leads (World.Notes fun _ => False) (do
        if ((← get).modules.get? module).isSome then
          World.onSinks (setCallers module (.ofModule module))) :=
      Leads.get.bind fun w => .or_pure (notes_onSinks leads_setCallers)
    have hsteps := hleads.run .refl (fun _ _ _ => .trans) w₁
    rwa [hrest] at hsteps
  exact hnotes.sinks.nodes module hthere

/-! ### Modules -/

lemma noting_mapModules {f : Modules → Modules} (h : ∀ ms : Modules, ms.Remembers (f ms))
    (houter : ∀ ms m, (f ms).outer.contains m → ms.outer.contains m) :
    Noting (mapModules f : Roam ρ Unit) :=
  telling_of_world (fun _ => rfl) fun s =>
    { Notes.refl s.world with
      outer := houter s.world.modules, callers := h s.world.modules }

lemma noting_adjust (module : String) {f : ModuleInfo → ModuleInfo}
    (hf : ∀ m x, ∀ c ∈ m.callers.getD x [], c ∈ (f m).callers.getD x []) :
    Noting (mapModules (·.adjust module f) : Roam ρ Unit) :=
  noting_mapModules (fun ms => Modules.remembers_adjust hf) fun _ m hm => by simpa using hm

lemma noting_modifyInner {f : ModuleInfo → ModuleInfo}
    (hf : ∀ m x, ∀ c ∈ m.callers.getD x [], c ∈ (f m).callers.getD x []) :
    Noting (mapModules fun ms => { ms with inner := ms.inner.modify module f } : Roam ρ Unit) :=
  noting_mapModules (fun _ => Modules.remembers_modifyInner hf) fun _ _ hm => hm

lemma noting_ensureModule : Noting (ensureModule : Roam ρ Unit) := by
  refine reads_getFrame.next fun f => ?_
  intro s
  change Relation.ReflTransGen _ s ((if (s.world.modules.get? f.module).isSome then pure ()
    else mapModules (·.create f.module (some f.file) false) : Roam ρ Unit) s).2
  split_ifs with hmodule
  · exact .refl
  · have hnone : s.world.modules.get? f.module = none := by simpa using hmodule
    exact .single (aside_of_world rfl { Notes.refl s.world with
        outer := (Modules.expands_create hnone).outer
        callers := Modules.remembers_create hnone })

/-! ### Invariants -/

variable {E I : Walk ρ → Prop}

lemma tolerant_notes (hstep : Stable I (Aside (Notes told))) (hfails : ∀ s, I s → E s)
    (hmove : Moves I) : Tolerant (Notes told) (fun _ => False) E I where
  refl w := (Notes.refl w).tells
  create w _ _ := { Notes.refl w with messages := fun _ _ => rfl }
  step := hstep
  fails := hfails
  move := hmove
  deeper _ _ := id
  renumber _ _ _ := False.elim

lemma stable_notes (h : Stable I (Aside (Surveys told))) : Stable I (Aside (Notes told)) :=
  fun s t hs hst => h s t hs ⟨hst.frame, hst.world.toSurveys⟩

lemma upholdsAt_of_surveying (hstep : Stable I (Aside (Surveys told))) (hfails : ∀ s, I s → E s)
    (ha : Surveying a) (p : Place) : UpholdsAt E I p a := by
  refine (Alike.of_leads ha ?_ fun s hs => hfails s hs.2).upholds
  rintro s t ⟨hat, hs⟩ hst
  exact ⟨hst.at hat, hstep s t hs ⟨hst.frame, hst.world.tells⟩⟩

end Walk

end SinkTrace
