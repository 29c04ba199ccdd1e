import Mathlib.Data.List.Dedup
import SinkTrace.Proofs.Walk.ImportLinks.Visit

/-!
# The chain of imports

A module that is imported is walked through in between, and meanwhile the module that imports it
waits on the chain. No module waits twice, so the chain is never longer than the number of modules
by more than one. A module on the chain has been analysed, or is known by a file that is no program.

To say so, the walk is watched: it raises an alarm where one of this does not hold. Watched or not,
and whatever is done beyond a sufficient depth, the walk does the same.
-/

namespace SinkTrace

open List

namespace ImportLinks

open Act Walk World

variable {files : FileTree} {is is' : Imports} {names : Names} {f m : String}

/-! ### A watched walk -/

/-- Raises the alarm where a condition does not hold. -/
def ensure (alarm : Fault) (ok : Walk ImportLinks → Bool) : Link Unit := do
  if !ok (← get) then throw alarm

/-- The module has been analysed, or is known by a file that is no program. -/
def settled (is : Imports) (analyzed : Names) (module : String) : Bool :=
  analyzed.contains module || (is.fileOf module ≠ "" && !Text.endsWith (is.fileOf module) ".py")

def chainSettled (s : Walk ImportLinks) : Bool :=
  s.world.chain.all (settled s.world.imports s.frame.analyzed.names)

mutual

/-- At every node the chain without its last module has no module twice. -/
def visitWatched (alarm : Fault) (follow : Import → Link Unit) : Nat → Node → Link Unit
  | 0, _ => throw .tooDeep
  | fuel + 1, node => do
    ensure alarm fun s => s.world.chain.dropLast.Nodup
    rule (visitWatched alarm follow fuel) (visitCallWatched alarm follow fuel) follow node

def visitCallWatched (alarm : Fault) (follow : Import → Link Unit) : Nat → CallSite → Link Unit
  | 0, _ => throw .tooDeep
  | fuel + 1, c => call (visitWatched alarm follow fuel) (visitCallWatched alarm follow fuel) c

end

/-- A module that is renewed is settled, unless it is known by a file that is no program. -/
def renewWatched (alarm : Fault) (module : String) : Link Unit := do
  ensure alarm fun s => settled s.world.imports s.frame.analyzed.names module
  renew module

/-- At every name that is imported the chain is settled. -/
def importNameWatched (alarm : Fault) (enter : String → Link Unit) (statement : Import)
    (renewed : Names) (a : Alias) : Link Names := do
  ensure alarm chainSettled
  importName (renewWatched alarm) enter statement renewed a

/-- At every file the chain has no module twice. Beyond the depth something else is done. -/
def analyzeWatched (alarm : Fault) (beyond : Link Unit) : Nat → Link Unit
  | 0 => beyond
  | depth + 1 => do
    ensure alarm fun s => s.world.chain.Nodup
    let atName := importNameWatched alarm (enter (analyzeWatched alarm beyond depth))
    walkFile (visitWatched alarm (importing atName) depthBound)

variable {E I J : Walk ImportLinks → Prop} {α : Type} {alarm : Fault}

lemma alike_ensure {a b : Link α} {ok : Walk ImportLinks → Bool} (hok : ∀ s, I s → ok s)
    (h : Alike E I J a b) : Alike E I J a (ensure alarm ok >>= fun _ => b) := by
  intro s hs
  have hpass : ensure alarm ok s = (.ok (), s) := by
    change (if (!ok s) then (throw alarm : Link Unit) else pure ()) s = _
    rw [hok s hs]
    rfl
  rw [run_bind, hpass]
  exact h s hs

lemma alike_visitWatched (hI : Linking E I) (hchain : ∀ s, I s → s.world.chain.dropLast.Nodup)
    {follow follow' : Import → Link Unit} (hfollow : ∀ p i, AlikeAt E I p (follow i) (follow' i))
    {fuel : Nat} :
    (∀ p n, p.loose → AlikeAt E I p (visit follow fuel n) (visitWatched alarm follow' fuel n)) ∧
      ∀ p c, p.loose →
        AlikeAt E I p (visitCall follow fuel c) (visitCallWatched alarm follow' fuel c) := by
  induction fuel with
  | zero => exact ⟨fun _ _ _ => hI.throws, fun _ _ _ => hI.throws⟩
  | succ fuel ih =>
    obtain ⟨hvisit, hcall⟩ := ih
    refine ⟨fun p n hp => alike_ensure (fun s hs => ?_) ?_, fun p c hp => ?_⟩
    · exact decide_eq_true (hchain s hs.2)
    · exact hI.rule hp (visits_of_loose hvisit hp) (fun c => hcall p c hp) (hfollow p)
    · exact hI.call (fun n => hvisit p n hp) (fun c => hcall p c hp)

/-! ### Settled modules -/

lemma settled_iff : settled is names m ↔
      m ∈ names ∨ (is.fileOf m ≠ "" ∧ Text.endsWith (is.fileOf m) ".py" = false) := by
  simp [settled]

lemma settled_of_mem (h : m ∈ names) : settled is names m := settled_iff.mpr (.inl h)

lemma settled_mono {names' : Names} (h : settled is names m) (his : is.Extends is')
    (hnames : m ∈ names → m ∈ names') : settled is' names' m := by
  rw [settled_iff] at h ⊢
  refine h.imp hnames fun hfile => ?_
  rwa [his.fileOf m hfile.1]

/-! ### The chain on the way -/

variable (base : Imports) (package : String) (chain : List String)

/-- What modules are known by has been added to, and some modules wait on the chain. -/
structure Scene (w : World) : Prop where
  imports : base.Extends w.imports
  inPackage : w.package = package
  onChain : w.chain = chain

/-- The walk is in a module. All modules of a list are settled, also for the one that has lent the
set. -/
structure Covered (modules : List String) (module : String) (s : Walk ImportLinks) : Prop where
  scene : Scene base package chain s.world
  current : s.frame.module = module
  names : ∀ x ∈ modules, settled s.world.imports s.frame.analyzed.names x = true
  lender : ∀ x ∈ modules, settled s.world.imports s.frame.analyzed.lender x = true

/-- The walk through a module has ended: only the lender's set is needed. -/
structure Returned (modules : List String) (s : Walk ImportLinks) : Prop where
  scene : Scene base package chain s.world
  lender : ∀ x ∈ modules, settled s.world.imports s.frame.analyzed.lender x = true

/-- An import has led to the module `target`, which may have to be analysed anew. -/
structure Reached (module target : String) (s : Walk ImportLinks) : Prop where
  scene : Scene base package chain s.world
  current : s.frame.module = module
  names : ∀ x ∈ chain, x = target ∨ settled s.world.imports s.frame.analyzed.names x = true
  lender : ∀ x ∈ chain, (x = target ∧ s.frame.analyzed.lent = none) ∨
    settled s.world.imports s.frame.analyzed.lender x = true
  file : s.world.imports.fileOf target ≠ ""

variable {base package chain} {modules : List String} {module target : String}
  {s t : Walk ImportLinks}

lemma Scene.survey {told : String → Prop} {w w' : World} (h : Scene base package chain w)
    (hw : w.Surveys told w') :
    Scene base package chain w' :=
  ⟨h.imports.trans hw.imports, hw.package.trans h.inPackage, hw.chain.trans h.onChain⟩

lemma frame_of_aside (h : Aside (World.Surveys fun _ => False) s t) :
    t.frame.module = s.frame.module ∧ t.frame.analyzed = s.frame.analyzed := by
  obtain ⟨_, _, _, hframe⟩ := h.frame
  rw [hframe]
  exact ⟨rfl, rfl⟩

lemma stable_covered : Stable (Covered base package chain modules module)
    (Aside (World.Surveys fun _ => False)) := by
  intro s t hs hst
  obtain ⟨hmodule, hanalyzed⟩ := frame_of_aside hst
  refine ⟨hs.scene.survey hst.world, hmodule.trans hs.current, fun x hx => ?_, fun x hx => ?_⟩
  · exact hanalyzed ▸ settled_mono (hs.names x hx) hst.world.imports id
  · exact hanalyzed ▸ settled_mono (hs.lender x hx) hst.world.imports id

lemma stable_returned : Stable (Returned base package chain modules)
    (Aside (World.Surveys fun _ => False)) := by
  intro s t hs hst
  refine ⟨hs.scene.survey hst.world, fun x hx => ?_⟩
  exact (frame_of_aside hst).2 ▸ settled_mono (hs.lender x hx) hst.world.imports id

lemma stable_reached : Stable (Reached base package chain module target)
    (Aside (World.Surveys fun _ => False)) := by
  intro s t hs hst
  obtain ⟨hmodule, hanalyzed⟩ := frame_of_aside hst
  have himports := hst.world.imports
  refine ⟨hs.scene.survey hst.world, hmodule.trans hs.current, fun x hx => ?_, fun x hx => ?_, ?_⟩
  · exact hanalyzed ▸ (hs.names x hx).imp_right (settled_mono · himports id)
  · exact hanalyzed ▸ (hs.lender x hx).imp_right (settled_mono · himports id)
  · rw [himports.fileOf _ hs.file]
    exact hs.file

lemma linking_covered : Linking Any (Covered base package chain modules module) :=
  linking_of_surveys stable_covered (fun _ _ => trivial)
    fun _ _ _ _ hs => ⟨hs.scene, hs.current, hs.names, hs.lender⟩

lemma Covered.reached (h : Covered base package chain chain module s)
    (hfile : s.world.imports.fileOf target ≠ "") : Reached base package chain module target s :=
  ⟨h.scene, h.current, fun x hx => .inr (h.names x hx), fun x hx => .inr (h.lender x hx), hfile⟩

lemma Covered.reached_renewed (h : Covered base package chain chain module s)
    (hfile : s.world.imports.fileOf target ≠ "") :
    Reached base package chain module target
      { s with frame := { s.frame with analyzed := s.frame.analyzed.erase target } } := by
  have hkept (x : String) (hx : x ∈ chain) (hne : x ≠ target) :
      settled s.world.imports (s.frame.analyzed.names.erase target) x :=
    settled_mono (h.names x hx) (.refl _) (mem_erase_of_ne hne).mpr
  refine ⟨h.scene, h.current, fun x hx => ?_, fun x hx => ?_, hfile⟩
  · exact or_iff_not_imp_left.mpr (hkept x hx)
  · have hlender := h.lender x hx
    cases hlent : s.frame.analyzed.lent with
    | none =>
      by_cases hne : x = target
      · exact .inl ⟨hne, hlent⟩
      · refine .inr ?_
        simp only [Analyzed.lender, Analyzed.erase, hlent, Option.getD_none]
        exact hkept x hx hne
    | some lent =>
      refine .inr ?_
      simp only [Analyzed.lender, Analyzed.erase, hlent, Option.getD_some] at hlender ⊢
      exact hlender

section Reached

variable (h : Reached base package chain module target s)

include h

lemma Reached.covered (hnames : settled s.world.imports s.frame.analyzed.names target) :
    Covered base package chain chain module s := by
  refine ⟨h.scene, h.current, fun x hx => ?_, fun x hx => ?_⟩
  · rcases h.names x hx with rfl | hx
    · exact hnames
    · exact hx
  · rcases h.lender x hx with ⟨rfl, hlent⟩ | hx
    · simpa only [Analyzed.lender, hlent, Option.getD_none] using hnames
    · exact hx

lemma Reached.start (file : String) (own : ImportLinks) :
    Covered s.world.imports package chain (chain ++ [target]) target
      { world := s.world, frame := { file, module := target, analyzed :=
        { names := s.frame.analyzed.names.insertEnd target } }, own } := by
  have hsettled (x : String) (hx : x ∈ chain ++ [target]) :
      settled s.world.imports (s.frame.analyzed.names.insertEnd target) x := by
    have htarget : target ∈ s.frame.analyzed.names.insertEnd target :=
      mem_insertEnd_iff.mpr (.inl rfl)
    rcases mem_append.mp hx with hx | hx
    · rcases h.names x hx with rfl | hx
      · exact settled_of_mem htarget
      · exact settled_mono hx (.refl _) fun hmem => mem_insertEnd_iff.mpr (.inr hmem)
    · rw [mem_singleton.mp hx]
      exact settled_of_mem htarget
  exact ⟨⟨.refl _, h.scene.inPackage, h.scene.onChain⟩, rfl, hsettled, hsettled⟩

lemma Reached.takeBack (ht : Returned s.world.imports package chain (chain ++ [target]) t) :
    Covered base package chain chain module
      { s with
        world := t.world
        frame := { s.frame with analyzed := s.frame.analyzed.takeBack t.frame.analyzed } } := by
  have hlender (x : String) (hx : x ∈ chain) := ht.lender x (mem_append_left _ hx)
  refine ⟨⟨h.scene.imports.trans ht.scene.imports, ht.scene.inPackage, ht.scene.onChain⟩, h.current,
    fun x hx => ?_, fun x hx => ?_⟩
  · exact settled_mono (hlender x hx) (.refl _) fun hmem => Names.mem_union.mpr (.inl hmem)
  · cases hlent : s.frame.analyzed.lent with
    | none =>
      simp only [Analyzed.takeBack, Analyzed.replace, Analyzed.lender, hlent, Option.getD_some,
        Option.getD_none]
      exact hlender x hx
    | some lent =>
      have hown := h.lender x hx
      simp only [Analyzed.takeBack, Analyzed.replace, Analyzed.lender, hlent, Option.getD_some,
        reduceCtorEq, and_false, false_or] at hown ⊢
      exact settled_mono hown ht.scene.imports id

end Reached

/-! ### Names of modules -/

/-- The names that the files of a package have as modules: in the package, and where imports lead to
them. -/
def moduleNames (files : FileTree) (package : String) : List String :=
  (files.files.keys.flatMap fun f => [Path.moduleIn f package, Path.moduleFound f package]).dedup

lemma moduleIn_mem (hf : files.isFile f) {package : String} :
    Path.moduleIn f package ∈ moduleNames files package :=
  mem_dedup.mpr (mem_flatMap.mpr ⟨f, Table.mem_keys_iff.mpr hf, mem_cons_self⟩)

lemma moduleFound_mem (hf : files.isFile f) {package : String} :
    Path.moduleFound f package ∈ moduleNames files package :=
  mem_dedup.mpr (mem_flatMap.mpr ⟨f, Table.mem_keys_iff.mpr hf, by simp⟩)

/-- The modules are searched for in the files of the package. -/
structure Searches (files : FileTree) (package : String) (is : Imports) : Prop where
  files : is.files = files
  dir : is.dir = package
  loaded : is.LoadsFiles

lemma Searches.extends (h : Searches files package is) (his : is.Extends is') :
    Searches files package is' :=
  ⟨his.files.trans h.files, his.dir.trans h.dir, his.loaded h.loaded⟩

/-! ### The walk -/

variable {p : Place} {run run' beyond : Link Unit}

/-- The two runs walk through the next module of the chain alike, and cover it. -/
abbrev Covers (is : Imports) (package : String) (chain : List String) (target : String)
    (run run' : Link Unit) : Prop :=
  Alike Any (Here { loose := true } (Covered is package chain (chain ++ [target]) target))
    (Here { loose := true } (Returned is package chain (chain ++ [target]))) run run'

lemma alike_elsewhere_reached {file : String} {own : ImportLinks}
    (hrun : ∀ is, base.Extends is → Covers is package chain target run run') :
    Alike Any (Here p (Reached base package chain module target))
      (Here p (Covered base package chain chain module))
      (elsewhere file target own run) (elsewhere file target own run') := by
  rintro s ⟨hp, hs⟩
  exact alike_run_elsewhere
    (hrun s.world.imports hs.scene.imports _ ⟨Place.at_of_eq rfl rfl rfl, hs.start file own⟩)
    (fun _ _ => trivial) fun t ht => ⟨⟨hp.names, hp.methods, hp.classes⟩, hs.takeBack ht.2⟩

lemma alike_enter_reached (hrun : ∀ is, base.Extends is → Covers is package chain target run run') :
    Alike Any (fun s => p.At s.frame ∧ Reached base package chain module target s ∧
        target ∉ s.frame.analyzed.names)
      (Here p (Covered base package chain chain module))
      (enter run target) (enter run' target) := by
  have hcurrent (m file : String) : Alike Any (Here p (Reached base package chain module target))
      (Here p (Reached base package chain module target))
      (onImports (modify (·.setCurrent m file)) : Link Unit)
      (onImports (modify (·.setCurrent m file))) :=
    .of_leads noting_setCurrent.surveying
      (fun s t hs hst => ⟨hst.at hs.1, stable_reached s t hs.2 hst⟩) fun _ _ => trivial
  refine .look (fun _ => rfl) fun _ => .look (fun _ => rfl) fun c => ?_
  cases c with
  | true =>
    rintro s ⟨⟨⟨-, -, hnot⟩, -⟩, hanalyzed⟩
    exact absurd (by simpa using hanalyzed) hnot
  | false =>
    refine .look (fun s => (run_get : _ = (Except.ok (id s), s))) fun s₀ => ?_
    by_cases hpy : Text.endsWith (s₀.world.imports.fileOf target) ".py"
    · simp only [hpy, Bool.not_true, Bool.false_eq_true, if_false]
      refine Alike.mono (I := Here p (Reached base package chain module target)) ?_
        fun s hs => ⟨hs.1.1.1.1, hs.1.1.1.2.1⟩
      refine (hcurrent _ _).bind fun _ => (alike_elsewhere_reached hrun).bind fun _ => ?_
      exact linking_covered.aside noting_setCurrent
    · simp only [Bool.not_eq_true] at hpy
      simp only [hpy, Bool.not_false, if_true]
      rintro s ⟨⟨⟨⟨hp, hs, -⟩, -⟩, -⟩, rfl⟩
      exact ⟨rfl, hp, hs.covered (settled_iff.mpr (.inr ⟨hs.file, hpy⟩))⟩

/-- An import leads on to one of the modules, unless the module waits on the chain. -/
lemma alike_importing_covered (hbase : Searches files package base) (hnodup : chain.Nodup)
    (hrun : ∀ target ∈ moduleNames files package, (chain ++ [module]).Nodup →
      ∀ is, base.Extends is →
      Covers is package (chain ++ [module]) target run run')
    {i : Import} :
    AlikeAt Any (Covered base package (chain ++ [module]) (chain ++ [module]) module) p
      (importing (importName renew (enter run)) i)
      (importing (importNameWatched alarm (enter run')) i) := by
  refine .look (fun _ => rfl) fun w => .look (fun _ => rfl) fun m => ?_
  by_cases hmem : module ∈ chain
  · rintro s ⟨⟨hs, rfl⟩, rfl⟩
    have hcount : 1 < s.world.chain.count s.frame.module := by
      rw [hs.2.scene.onChain, hs.2.current, count_append, count_singleton_self]
      exact Nat.lt_add_of_pos_left (count_pos_iff.mpr hmem)
    rw [if_pos hcount, if_pos hcount]
    exact ⟨rfl, hs⟩
  · have hchain : (chain ++ [module]).Nodup := by
      rw [nodup_append]
      exact ⟨hnodup, nodup_singleton _, fun a ha b hb => by
        rintro rfl
        exact hmem (mem_singleton.mp hb ▸ ha)⟩
    have henter : Entering Any (Covered base package (chain ++ [module]) (chain ++ [module]) module)
        (· ∈ moduleNames files package) (Reached base package (chain ++ [module]) module) renew
        (renewWatched alarm) (enter run) (enter run') :=
      { found := fun s _ _ m t hs hfound => by
          have hsearch := hbase.extends hs.scene.imports
          obtain ⟨f, hf, rfl⟩ := Imports.moduleFound_of_importModule hfound hsearch.loaded
          rw [hsearch.files] at hf
          rw [hsearch.dir]
          exact moduleFound_mem hf
        known := fun s m _ hs hfile => hs.reached hfile
        renews := fun p m _ => by
          refine alike_ensure (fun s hs => ?_) ?_
          · exact hs.2.1.names m (hs.2.1.scene.onChain ▸ hs.2.2.2)
          · exact alike_renew (fun _ _ => trivial) fun s hs => hs.1.reached_renewed hs.2.1
        step := fun m => stable_notes stable_reached
        fails := fun _ _ _ => trivial
        analyzed := fun s m hs hm => hs.covered (settled_of_mem hm)
        enters := fun p m hm => alike_enter_reached (hrun m hm hchain) }
    refine Alike.mono ?_ fun s hs => hs.1.1
    refine .ite (.pure _) (.bind (.foldlM (fun _ a _ => ?_)) fun _ => .pure _)
    refine alike_ensure (fun s hs => ?_) (linking_covered.importName henter)
    exact all_eq_true.mpr (hs.2.scene.onChain ▸ hs.2.names)

lemma alike_walkFile_covered {v w : Node → Link Unit} (hp : p.loose)
    (h : ∀ p n, p.loose → AlikeAt Any
      (Covered base package (chain ++ [module]) (chain ++ [module]) module) p (v n) (w n)) :
    Alike Any (Here p (Covered base package chain (chain ++ [module]) module))
      (Here p (Returned base package chain (chain ++ [module])))
      (walkFile v) (walkFile w) := by
  refine (linking_covered.aside noting_enterFile).bind fun _ => .look (fun _ => rfl) fun f => ?_
  refine Alike.bind (J := Here p (Covered base package (chain ++ [module])
    (chain ++ [module]) module))
    ?_ fun _ => ?_
  · rintro s ⟨⟨hp, hs⟩, rfl⟩
    refine ⟨rfl, hp, ⟨hs.scene.imports, hs.scene.inPackage, ?_⟩, hs.current, hs.names, hs.lender⟩
    exact congrArg₂ (fun chain m => chain ++ [m]) hs.scene.onChain hs.current
  refine (linking_covered.walkBody hp (visits_of_loose h hp)).bind fun _ => ?_
  refine Alike.bind (J := Here p (Covered base package chain (chain ++ [module]) module)) ?_
    fun _ => ?_
  · rintro s ⟨hp, hs⟩
    refine ⟨rfl, hp, ⟨hs.scene.imports, hs.scene.inPackage, ?_⟩, hs.current, hs.names, hs.lender⟩
    exact (congrArg dropLast hs.scene.onChain).trans dropLast_concat
  refine (linking_covered.reads reads_getWorld).bind fun w => ?_
  refine Alike.bind (J := Here p (Returned base package chain (chain ++ [module]))) ?_ fun _ => ?_
  · rintro s ⟨hp, hs⟩
    exact ⟨rfl, ⟨hp.names, hp.methods, hp.classes⟩, hs.scene, hs.lender⟩
  · exact .of_leads keeping_spreadModule.surveying
      (fun s t hs hst => ⟨hst.at hs.1, stable_returned s t hs.2 hst⟩) fun _ _ => trivial

/-- With enough depth for all modules that do not wait yet, watching changes nothing. -/
lemma alike_analyzeWatched {depth : Nat} (hbase : Searches files package base)
    (hnodup : chain.Nodup)
    (hchain : ∀ x ∈ chain, x ∈ moduleNames files package)
    (hmodule : module ∈ moduleNames files package)
    (hdepth : (moduleNames files package).length < chain.length + depth) :
    Covers base package chain module (analyze depth) (analyzeWatched alarm beyond depth) := by
  induction depth generalizing base chain module with
  | zero =>
    have hlength := (hnodup.subperm hchain).length_le
    omega
  | succ depth ih =>
    have hwaiting (x : String) (hx : x ∈ chain ++ [module]) : x ∈ moduleNames files package := by
      rcases mem_append.mp hx with hx | hx
      · exact hchain x hx
      · exact mem_singleton.mp hx ▸ hmodule
    have himporting (p : Place) (i : Import) : AlikeAt Any
        (Covered base package (chain ++ [module]) (chain ++ [module]) module) p
        (importing (importName renew (enter (analyze depth))) i)
        (importing (importNameWatched alarm (enter (analyzeWatched alarm beyond depth))) i) := by
      refine alike_importing_covered hbase hnodup (fun _ htarget hnodup' _ his => ?_)
      exact ih (hbase.extends his) hnodup' hwaiting htarget (by simp; omega)
    refine alike_ensure (fun s hs => decide_eq_true (hs.2.scene.onChain ▸ hnodup)) ?_
    refine alike_walkFile_covered rfl (alike_visitWatched linking_covered (fun s hs => ?_)
      himporting).1
    rw [hs.scene.onChain, dropLast_concat]
    exact hnodup

end ImportLinks

end SinkTrace
