import SinkTrace.Proofs.Analysis.Steps
import SinkTrace.Proofs.Walk.ImportLinks.Chain
import SinkTrace.Proofs.Walk.SinkSites

/-!
# The imports are followed to their end

Before the imports are followed, the analysis finds the files of the package and takes surveys. So
each file that it starts from is a file of the tree, and no module is on the chain. From there the
walk through the imports is as deep as there are modules, and one more.
-/

namespace SinkTrace.Analysis

open Act World ImportLinks

variable {settings : Settings} {files : FileTree} {s t : State} {found : FoundFiles}
  {content package path : String}

/-! ### Found files -/

def AreFiles (files : FileTree) (found : FoundFiles) : Prop :=
  ∀ f, f ∈ found.entry ∨ f ∈ found.matching ∨ f ∈ found.middle → files.isFile f = true

lemma areFiles_addFile (h : AreFiles files found) (hpath : files.isFile path)
    {sinkLines middleLines : List String} :
    AreFiles files (FoundFiles.addFile sinkLines middleLines found path content) := by
  have hadded {fs : List String} (hfs : ∀ f ∈ fs, files.isFile f) (n : Nat) :
      ∀ f ∈ fs ++ List.replicate n path, files.isFile f := by
    intro f hf
    rcases List.mem_append.mp hf with hf | hf
    · exact hfs f hf
    · exact List.eq_of_mem_replicate hf ▸ hpath
  have hentry (f : String) (hf : f ∈ found.entry) := h f (.inl hf)
  have hmatching (f : String) (hf : f ∈ found.matching) := h f (.inr (.inl hf))
  have hmiddle (f : String) (hf : f ∈ found.middle) := h f (.inr (.inr hf))
  rintro f (hf | hf | hf)
  · dsimp only [FoundFiles.addFile] at hf
    split_ifs at hf
    · exact hadded hentry 1 f hf
    · exact hentry f hf
  · exact hadded hmatching _ f hf
  · dsimp only [FoundFiles.addFile] at hf
    split_ifs at hf
    · exact hadded hmiddle 1 f hf
    · exact hmiddle f hf

lemma isFile_of_textStrict? (h : files.textStrict? path = some content) : files.isFile path := by
  obtain ⟨bs, hbs, -⟩ := Option.bind_eq_some_iff.mp h
  rw [FileTree.isFile, Table.contains_eq_isSome, hbs]
  rfl

lemma areFiles_ofTree {sinkLines middleLines : List String} :
    AreFiles files (FoundFiles.ofTree files package sinkLines middleLines) := by
  unfold FoundFiles.ofTree
  extract_lets dirs paths found
  have hfound : AreFiles files found := by
    refine List.foldlRecOn paths _ ?_ fun _ hfound _ _ => ?_
    · rintro f (hf | hf | hf) <;> cases hf
    · split
      · next content hcontent =>
        exact areFiles_addFile hfound (isFile_of_textStrict? hcontent)
      · exact hfound
  rintro f (hf | hf | hf)
  · simp only [List.mem_append] at hf
    exact hfound f (by tauto)
  · exact hfound f (.inr (.inl hf))
  · exact hfound f (.inr (.inr hf))

lemma areFiles_start (h : start settings s = (.ok found, t)) : AreFiles s.world.files found := by
  obtain ⟨_, s₁, hsinks, h⟩ := of_bind h
  obtain ⟨_, s₂, hmiddles, h⟩ := of_bind h
  obtain ⟨_, s₃, hget, h⟩ := of_bind h
  cases hget
  obtain ⟨_, s₄, -, h⟩ := of_bind h
  obtain ⟨_, s₅, -, h⟩ := of_bind h
  cases h
  have hfiles₁ : s₁.world.files = s.world.files := congrArg (·.2.world.files) hsinks.symm
  have hfiles₂ : s₂.world.files = s₁.world.files := congrArg (·.2.world.files) hmiddles.symm
  rw [← hfiles₁, ← hfiles₂]
  exact areFiles_ofTree

/-! ### Surveys before the imports -/

lemma surveys_unload (w : World) : w.Surveys Any { w with imports := w.imports.unload } :=
  { World.Surveys.refl w with imports := w.imports.extends_unload, messages := fun _ _ => rfl }

section Surveys

variable {W : World → Prop} (hW : ∀ w w', W w → w.Surveys Any w' → W w')

include hW

lemma yields_start_of_surveys :
    Yields (fun s t : State => W s.world → W t.world) (start settings) := by
  have hworld {α : Type} {a : Act World α} (ha : ∀ w, World.Surveys Any w (a w).2) :
      Yields (fun s t : State => W s.world → W t.world) (onWorld a) :=
    (leads_onWorld (R := fun w w' => W w → W w') fun w hw => hW _ _ hw (ha w)).yields
  have hsame (w w' : World) (hchain : w'.chain = w.chain) (hpackage : w'.package = w.package)
      (hdefs : w'.defs = w.defs) (hclasses : w'.classes = w.classes)
      (hmodules : w'.modules = w.modules)
      (himports : w'.imports = w.imports) : w.Surveys Any w' :=
    ⟨hchain, hpackage, hdefs, hclasses, hmodules ▸ fun _ h => h, himports ▸ .refl _, by simp⟩
  refine Yields.bind (hworld fun w => hsame _ _ rfl rfl rfl rfl rfl rfl) fun _ => ?_
  refine Yields.bind (hworld fun w => hsame _ _ rfl rfl rfl rfl rfl rfl) fun _ => ?_
  refine Leads.get.yields.bind fun s => ?_
  refine Yields.bind (hworld fun w => hsame _ _ rfl rfl rfl rfl rfl rfl) fun _ => ?_
  refine Yields.bind (hworld fun w => hsame _ _ rfl rfl rfl rfl rfl rfl) fun _ => Leads.pure.yields

lemma yields_findSites_of_surveys (found : FoundFiles) :
    Yields (fun s t : State => W s.world → W t.world) (findSites found) := by
  have hI : SinkSites.Locating Any Any fun s => W s.world :=
    SinkSites.locating_of_surveys (fun s t hs hst => hW _ _ hs hst.world) (fun _ _ => trivial)
      fun _ _ _ _ hs => hs
  refine .bind (yields_onWorld (yields_passOver (fun s v t hrun hs => ?_)
    (fun w hw => hW _ _ hw (surveys_unload w)))) fun _ => ?_
  · have hend := hI.analyze (fun _ => trivial) (p := .ofFrame s.frame) s
      ⟨Place.at_of_eq rfl rfl rfl, hs⟩
    rw [hrun] at hend
    exact hend.2
  · refine .bind (Leads.yields fun _ => .single id) fun _ => Leads.yields fun s =>
      .single fun hs => ?_
    exact hW _ _ hs ⟨rfl, rfl, rfl, rfl, fun _ h => h, .refl _, fun _ _ => rfl⟩

lemma yields_throughImports_of_surveys (hchain : ∀ w chain, W w → W { w with chain }) :
    Yields (fun s t : State => W s.world → W t.world) (throughImports settings) := by
  have hI : Linking Any fun s => W s.world :=
    linking_of_surveys (fun s t hs hst => hW _ _ hs hst.world.tells) (fun _ _ => trivial)
      fun _ _ _ _ hs => hs
  refine (yields_start_of_surveys hW).bind fun found => ?_
  refine Yields.bind (Leads.yields fun _ => .single id) fun _ => ?_
  refine (yields_findSites_of_surveys hW found).bind fun _ => ?_
  refine yields_onWorld (yields_passOver (fun s v t hrun hs => ?_)
    (fun w hw => hW _ _ hw (surveys_unload w)))
  have hend := upholds_analyze hI hchain Walk.depthBound
    (p := { Place.ofFrame s.frame with loose := true }) rfl s ⟨Place.at_of_eq rfl rfl rfl, hs⟩
  rw [hrun] at hend
  exact hend.2

end Surveys

/-! ### The walk through the imports -/

lemma searches_start : Searches files package (Imports.start files package) := by
  refine ⟨rfl, rfl, fun e he f hf => ?_⟩
  obtain ⟨m, -, rfl⟩ := List.mem_map.mp he
  cases hf

variable {alarm : Fault} {beyond : Roam ImportLinks Unit} {depth : Nat}

lemma alike_passFile_watched {file : String} (hfile : files.isFile file)
    (hdepth : (moduleNames files package).length < depth) (own : ImportLinks) (done : Names) :
    Alike Any (Scene (Imports.start files package) package [])
      (Scene (Imports.start files package) package [])
      (passFile own (ImportLinks.analyze depth) file (Path.moduleIn file package) done)
      (passFile own (analyzeWatched alarm beyond depth) file
        (Path.moduleIn file package) done) := by
  intro w hw
  let module := Path.moduleIn file package
  let start : Walk ImportLinks :=
    { world := w, frame := { file, module, analyzed := { names := done.insertEnd module } }, own }
  have hsettled (x : String) (hx : x ∈ [] ++ [module]) :
      settled w.imports (done.insertEnd module) x :=
    settled_of_mem (List.mem_insertEnd_iff.mpr (.inl (List.mem_singleton.mp hx)))
  have halike : Alike _ _ _ (ImportLinks.analyze depth) (analyzeWatched alarm beyond depth) :=
    alike_analyzeWatched searches_start List.nodup_nil (fun _ h => by cases h)
      (moduleIn_mem hfile) (by simpa using hdepth)
  obtain ⟨hsame, hend⟩ := halike start ⟨Place.at_of_eq rfl rfl rfl, hw, rfl, hsettled, hsettled⟩
  unfold passFile
  dsimp only
  rw [← hsame]
  refine ⟨rfl, ?_⟩
  rcases hrun : ImportLinks.analyze depth start with ⟨_ | _, t⟩
  · trivial
  · rw [hrun] at hend
    exact hend.2.scene

def initial (settings : Settings) (files : FileTree) : State :=
  { world :=
      { files, package := settings.package, imports := Imports.start files settings.package } }

/-- The walk through the imports ends on every package: with a depth beyond the number of modules it
does not matter what would be done deeper down. No module but the last is on the chain twice, and
those on it have been analysed unless they are known by files that are no programs. -/
theorem imports_end (settings : Settings) (files : FileTree) (depth : Nat)
    (hdepth : (moduleNames files settings.package).length < depth) (alarm : Fault)
    (beyond : Roam ImportLinks Unit) :
    throughImportsBy (analyzeWatched alarm beyond depth) settings (initial settings files) =
      throughImportsBy (ImportLinks.analyze depth) settings (initial settings files) := by
  let W := Scene (Imports.start files settings.package) settings.package []
  have hW (w w' : World) (hw : W w) (hsurvey : w.Surveys Any w') : W w' :=
    hw.survey hsurvey
  have hstart : W (initial settings files).world := ⟨.refl _, rfl, rfl⟩
  suffices h : Alike Any (fun s : State => W s.world ∧ s.world.files = files)
      (fun s : State => W s.world) (throughImportsBy (ImportLinks.analyze depth) settings)
      (throughImportsBy (analyzeWatched alarm beyond depth) settings) from
    (h _ ⟨hstart, rfl⟩).1.symm
  refine Alike.bind_of (P := AreFiles files)
    ((Alike.of_yields (yields_start_of_surveys hW)).mono fun s hs => hs.1) ?_ fun found hfound => ?_
  · rintro s found t ⟨-, hfiles⟩ hrun
    exact hfiles ▸ areFiles_start hrun
  refine Alike.bind (J := fun s : State => W s.world) (fun s hs => ⟨rfl, hs⟩) fun _ => ?_
  refine (Alike.of_yields (yields_findSites_of_surveys hW found)).bind fun _ => ?_
  refine alike_onWorld (alike_passOver (fun file hfile w hw _ => ?_)
    (fun w hw => hW _ _ hw (surveys_unload w)) (fun _ _ => trivial) _ _ _ _)
  rw [hw.inPackage]
  exact alike_passFile_watched (hfound file (.inl hfile)) hdepth _ _

def cycle : FileTree := .ofTexts
  [("a.py", "import b\ndef f(c):\n exec(c)\n"), ("b.py", "import a\ndef f(c):\n exec(c)\n")]

/-- A file whose name reads as that of a module in a directory. -/
def dottedFile : FileTree := .ofTexts
  [("a.py", "import x.y\nexec(c)\n"),
   ("x.y.py", "import x.y\nimport x.y\ndef f(c):\n exec(c)\n"), ("x/y.so", "")]

def searchExec : Settings := { sinkLines := some ["<builtin>:exec:0"] }

def isMissing {α : Type} : Except Fault α → Bool
  | .error .missing => true
  | _ => false

lemma eq_of_isMissing {α : Type} {r : Except Fault α} (h : isMissing r) : r = .error .missing := by
  unfold isMissing at h
  split at h
  · rfl
  · cases h

lemma searchExec_spec : (moduleNames cycle searchExec.package).length < 3 ∧
    isMissing (throughImports searchExec (initial searchExec dottedFile)).1 := by decide +kernel

theorem imports_end_cycle : (moduleNames cycle searchExec.package).length < 3 ∧
    throughImportsBy (analyzeWatched .absent (ImportLinks.analyze 7) 3) searchExec
        (initial searchExec cycle) =
      throughImportsBy (ImportLinks.analyze 3) searchExec (initial searchExec cycle) :=
  ⟨searchExec_spec.1, imports_end searchExec cycle 3 searchExec_spec.1 .absent
    (ImportLinks.analyze 7)⟩

/-- The module waits on the chain and is to be analysed anew, but is not walked through, so at the
next import it is missing. -/
theorem renewed_module_missing :
    (throughImports searchExec (initial searchExec dottedFile)).1 = .error .missing :=
  eq_of_isMissing searchExec_spec.2

end SinkTrace.Analysis
