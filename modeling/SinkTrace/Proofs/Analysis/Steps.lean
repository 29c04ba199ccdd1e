import SinkTrace.Analysis.Basic
import SinkTrace.Proofs.Act

/-!
# Passes and steps

A pass walks through files, one after the other. What a walk through any file does to the world, the
pass does step by step. The analysis is a sequence of such passes; between them it changes the world
and notes down where it is.
-/

namespace SinkTrace

def FileTree.ofTexts (texts : List (String × String)) : FileTree :=
  ⟨Table.ofList (texts.map fun (path, text) => (path, text.toList.map (·.toNat.toUInt8)))⟩

namespace Analysis

open Act

variable {P : World → Prop}

/-! ### Passes -/

section Passes

variable {ρ : Type} {run : Roam ρ Unit} {own : ρ}

lemma leads_passOver {R : World → World → Prop} (hrun : ∀ s : Walk ρ, R s.world (run s).2.world)
    (hunload : ∀ w : World, R w { w with imports := w.imports.unload }) (searches : Bool) (own : ρ)
    (files : World → List String) (fuel place : Nat) (done : Names) :
    Leads R (passOver searches own run files fuel place done) := by
  have hunloads : Leads R (unload searches) := by
    unfold unload
    exact .ite (fun w => .single (hunload w)) .pure
  have hfile (file module : String) (done : Names) :
      Leads R (passFile own run file module done) := by
    intro w
    let analyzed : Analyzed := { names := done.insertEnd module }
    exact .single (hrun { world := w, frame := { file, module, analyzed }, own })
  induction fuel generalizing place done with
  | zero => exact .throw
  | succ fuel ih =>
    refine Leads.get.bind fun w => ?_
    split
    · exact .pure
    · refine Leads.get.bind fun w => .ite (ih _ _) (hunloads.bind fun _ => ?_)
      exact (hfile _ _ _).bind fun _ => hunloads.bind fun _ => ih _ _

lemma yields_passOver_of (hrun : ∀ world file module analyzed v t,
      run { world, frame := { file, module, analyzed }, own } = (.ok v, t) → P world → P t.world)
    (hunload : ∀ w : World, P w → P { w with imports := w.imports.unload }) (searches : Bool)
    (files : World → List String) (fuel place : Nat) (done : Names) :
    Yields (fun w w' => P w → P w') (passOver searches own run files fuel place done) := by
  have hunloads : Yields (fun w w' => P w → P w') (unload searches) := by
    unfold unload
    exact .ite (fun w _ _ h => by cases h; exact .single (hunload w)) Leads.pure.yields
  have hfile (file module : String) (done : Names) :
      Yields (fun w w' => P w → P w') (passFile own run file module done) := by
    intro w v w' h
    unfold passFile at h
    extract_lets analyzed at h
    rcases hr : run { world := w, frame := { file, module, analyzed }, own } with ⟨_ | u, t⟩
    · rw [hr] at h
      cases h
    · rw [hr] at h
      cases h
      exact .single (hrun _ _ _ _ u t hr)
  induction fuel generalizing place done with
  | zero => exact Leads.throw.yields
  | succ fuel ih =>
    refine Leads.get.yields.bind fun w => ?_
    split
    · exact Leads.pure.yields
    · refine Leads.get.yields.bind fun w => .ite (ih _ _) (hunloads.bind fun _ => ?_)
      exact (hfile _ _ _).bind fun _ => hunloads.bind fun _ => ih _ _

lemma yields_passOver (hrun : ∀ s v t, run s = (.ok v, t) → P s.world → P t.world)
    (hunload : ∀ w : World, P w → P { w with imports := w.imports.unload }) {searches : Bool}
    {files : World → List String} {fuel place : Nat} {done : Names} :
    Yields (fun w w' => P w → P w') (passOver searches own run files fuel place done) :=
  yields_passOver_of (fun _ _ _ _ => hrun _) hunload searches files fuel place done

lemma alike_passOver {E W : World → Prop} {run' : Roam ρ Unit} {files : List String}
    (hfile : ∀ file ∈ files, ∀ w, W w → ∀ done, Alike E W W
      (passFile own run file (Path.moduleIn file w.package) done)
      (passFile own run' file (Path.moduleIn file w.package) done))
    (hunload : ∀ w : World, W w → W { w with imports := w.imports.unload })
    (hfails : ∀ w, W w → E w)
    (searches : Bool) (fuel place : Nat) (done : Names) :
    Alike E W W (passOver searches own run (fun _ => files) fuel place done)
      (passOver searches own run' (fun _ => files) fuel place done) := by
  have hunloads : Alike E W W (unload searches) (unload searches) := by
    unfold unload
    exact .ite (fun w hw => ⟨rfl, hunload w hw⟩) (.pure _)
  induction fuel generalizing place done with
  | zero => exact .throw hfails _
  | succ fuel ih =>
    refine Alike.bind (fun w hw => ⟨rfl, hw⟩) fun _ => ?_
    cases hplace : files[place]? with
    | none => exact .pure _
    | some file =>
      refine .look (fun w => (run_get : _ = (Except.ok (id w), w))) fun w => ?_
      intro w' hw'
      have hw : W w := hw'.2 ▸ hw'.1
      refine Alike.ite (ih _ _) (hunloads.bind fun _ => ?_) w' hw'.1
      exact (hfile file (List.mem_of_getElem? hplace) w hw done).bind fun _ =>
        hunloads.bind fun _ => ih _ _

end Passes

/-! ### Steps -/

variable {α : Type} {settings : Settings} {s t : State}

variable {a : Act World α}

lemma run_of_onWorld {v : α} (h : onWorld a s = (.ok v, t)) : a s.world = (.ok v, t.world) := by
  obtain ⟨w, hw, rfl⟩ := exists_of_zoom h
  exact hw

lemma leads_onWorld {R : World → World → Prop} (h : ∀ w, R w (a w).2) :
    Leads (fun s t : State => R s.world t.world) (onWorld a) := fun s => .single (h s.world)

lemma yields_onWorld (h : Yields (fun w w' => P w → P w') a) :
    Yields (fun s t : State => P s.world → P t.world) (onWorld a) :=
  fun _ _ _ hrun => .single (h.keeps (run_of_onWorld hrun))

lemma alike_onWorld {E I J : World → Prop} {b : Act World α} (h : Alike E I J a b) :
    Alike (fun s : State => E s.world) (fun s => I s.world) (fun s => J s.world) (onWorld a)
      (onWorld b) := by
  intro s hs
  obtain ⟨hsame, hend⟩ := h s.world hs
  unfold onWorld zoom
  rw [← hsame]
  refine ⟨rfl, ?_⟩
  rcases hrun : a s.world with ⟨_ | _, w⟩
  · rw [hrun] at hend
    exact hend
  · rw [hrun] at hend
    exact hend

/-- The analysis until the imports have been followed, given how that is done in a file. -/
def throughImportsBy (follow : Roam ImportLinks Unit) (settings : Settings) : Run Unit := do
  let found ← start settings
  reached (.files found)
  findSites found
  pass true ({ complete := settings.complete } : ImportLinks) follow fun _ => found.entry

def throughImports (settings : Settings) : Run Unit :=
  throughImportsBy (ImportLinks.analyze Walk.depthBound) settings

/-- The relation holds when the world is changed, or a stage other than `links` is reached. -/
structure Advances (R : State → State → Prop) : Prop where
  world : ∀ s w, R s { s with world := w }
  stage : ∀ s stage, Stage.links ≠ stage → R s { s with steps := (stage, s.world) :: s.steps }

section Advances

variable {R : State → State → Prop} (h : Advances R)

include h

lemma Advances.onWorld (a : Act World α) : Leads R (onWorld a) := fun s => .single (h.world s _)

lemma Advances.reached (stage : Stage) (hstage : Stage.links ≠ stage) : Leads R (reached stage) :=
  fun s => .single (h.stage s stage hstage)

lemma Advances.start : Leads R (start settings) := by
  refine (h.onWorld _).bind fun _ => (h.onWorld _).bind fun _ => Leads.get.bind fun s => ?_
  exact (h.onWorld _).bind fun _ => (h.onWorld _).bind_pure

lemma Advances.findSites (found : FoundFiles) : Leads R (findSites found) :=
  (h.onWorld _).bind fun _ => (h.reached .sites nofun).bind fun _ => h.onWorld _

lemma Advances.filterNodes : Leads R filterNodes := by
  refine (h.onWorld _).bind fun _ => (h.onWorld _).bind fun _ => ?_
  exact (h.onWorld _).bind fun _ => (h.onWorld _).bind fun _ => h.reached .filter nofun

lemma Advances.declare : Leads R declare :=
  (h.onWorld _).bind fun _ => h.reached .declarations nofun

lemma Advances.flowRound : Leads R flowRound := by
  refine (h.onWorld _).bind fun _ => (h.onWorld _).bind fun _ => ?_
  refine (h.reached .flow nofun).bind fun _ => (h.onWorld _).bind fun _ => ?_
  exact Leads.get.bind fun _ => h.onWorld _

lemma Advances.throughImports (settings : Settings) : Leads R (throughImports settings) := by
  refine h.start.bind fun found => (h.reached (.files found) nofun).bind fun _ => ?_
  exact (h.findSites found).bind fun _ => h.onWorld _

end Advances

end Analysis

end SinkTrace
