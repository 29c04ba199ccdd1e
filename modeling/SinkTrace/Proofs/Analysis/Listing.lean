import SinkTrace.Proofs.Analysis.Imports
import SinkTrace.Proofs.Analysis.Links
import SinkTrace.Proofs.Report.Exchange
import SinkTrace.Proofs.Sink.Spread
import SinkTrace.Proofs.Walk.CallEdges
import SinkTrace.Proofs.Walk.KeyMisses
import SinkTrace.Proofs.Walk.Listing
import SinkTrace.Report.Outcome

/-!
# Classes that no module lists

At the end of an analysis every block that has been declared is listed by its module. A class that
is only taken over from a module, because it is imported there, has not been declared and need not
be listed. Such a class is what an exchange document may miss the number of.
-/

namespace SinkTrace

variable {fuel : Nat}

/-! ### The callers of models -/

namespace Middles

open Act

def SameOuter (s t : Scene) : Prop := t.modules.outer = s.modules.outer

lemma leads_onMiddles {f : Middles → Middles} : Leads SameOuter (onMiddles f) :=
  .modify fun _ => .single rfl

lemma leads_supersOf {mod cls : String} : Leads SameOuter (supersOf mod cls) := by
  refine Leads.get.bind fun s => ?_
  cases s.modules.inner.get? mod with
  | none => exact .throw
  | some _ =>
    refine Leads.bind (.modify fun _ => .single rfl) fun _ => ?_
    exact Leads.get.bind_pure

lemma leads_liftToSupers {callee method : String} {sub : Links} (supers : Table String String) :
    Leads SameOuter (liftToSupers callee method sub fuel supers) := by
  induction fuel generalizing supers with
  | zero => exact .throw
  | succ fuel ih =>
    refine .forM fun e _ => leads_supersOf.bind fun above => Leads.get.bind fun s => ?_
    exact .pure_or (leads_onMiddles.bind fun _ => ih above)

lemma leads_reachCaller {mod method : String} {links : Links} {caller : String} :
    Leads SameOuter (reachCaller mod method links caller) := by
  unfold reachCaller
  split
  · refine Leads.get.bind fun s => ?_
    split
    · exact .pure
    · refine .pure_or (leads_onMiddles.bind fun _ => ?_)
      refine leads_supersOf.bind fun _ => leads_onMiddles.bind fun _ => ?_
      exact Leads.get.bind fun _ => leads_liftToSupers _
  · refine Leads.get.bind fun s => ?_
    split
    · exact .pure
    · exact .pure_or leads_onMiddles
  · exact .throw

lemma leads_reachRounds {mod : String} {callers : NameTable} (seen : Names) :
    Leads SameOuter (reachRounds mod callers fuel seen) := by
  induction fuel generalizing seen with
  | zero => exact .pure
  | succ fuel ih =>
    refine Leads.get.bind fun s => ?_
    split
    · exact .pure
    · refine .pure_or (Leads.bind (.forM fun e _ => ?_) fun _ => ih _)
      exact .forM fun _ _ => leads_reachCaller

lemma leads_spread (table : Modules → CallerSource → NameTable) :
    Leads SameOuter (spread table) := by
  refine Leads.get.bind fun s => .forM fun _ _ => Leads.get.bind fun t => ?_
  split
  · exact .pure
  · refine .pure_or (Leads.get.bind fun _ => Leads.get.bind fun _ => ?_)
    exact (leads_reachRounds _).bind fun _ => leads_onMiddles

end Middles

namespace Analysis

open Act World

variable {settings : Settings} {files : FileTree} {s t : State} {v : Unit}

/-- All blocks that have been declared are listed, and nothing is in the way of that. -/
abbrev AllDeclared (s : State) : Prop := s.world.Declared fun _ _ => False

lemma outer_of_spread {ms ms' : Middles.Scene}
    {table : Modules → CallerSource → NameTable}
    (h : Middles.spread table ms = (.ok (), ms')) : ms'.modules.outer = ms.modules.outer := by
  have hsame := (Middles.leads_spread table).run (fun _ => rfl) (fun _ _ _ h h' => h'.trans h) ms
  rw [h] at hsame
  exact hsame

lemma allDeclared_filterNodes (hfresh : ∀ X x, ¬ s.world.sinks.Analyzed X x)
    (hinner : ∀ m, s.world.modules.outer.contains m = false) (hkeyed : s.world.defs.Keyed)
    (h : filterNodes s = (.ok (), t)) : AllDeclared t := by
  obtain ⟨sources, s₁, hstep, h⟩ := of_bind h
  obtain ⟨w₁, hworld, rfl⟩ := exists_of_zoom hstep
  obtain ⟨ss, hfilter, rfl⟩ := exists_of_zoom hworld
  obtain ⟨_, s₂, hsources, h⟩ := of_bind h
  cases hsources
  obtain ⟨_, s₃, hstep', h⟩ := of_bind h
  obtain ⟨w₃, hworld', rfl⟩ := exists_of_zoom hstep'
  obtain ⟨scene, hspread, rfl⟩ := exists_of_zoom hworld'
  obtain ⟨_, s₄, hnoted, h⟩ := of_bind h
  cases hnoted
  cases h
  refine ⟨fun m x hx => ?_, fun m => ?_, hkeyed⟩
  · exact (hfresh m x (Sinks.analyzed_of_filterMethods hfilter hx)).elim
  · dsimp only
    rw [outer_of_spread hspread]
    exact hinner m

lemma plain_throughImports (hmodules : s.world.modules = {}) (hdefs : s.world.defs = {})
    (h : throughImports settings s = (.ok v, t)) :
    t.world.defs = {} ∧ ∀ m, t.world.modules.outer.contains m = false := by
  refine (yields_throughImports_of_surveys (W := fun w => w.defs = {} ∧
    ∀ m, w.modules.outer.contains m = false) (fun w _ hw hsurvey => ?_) fun _ _ hw => hw).keeps
    h ?_
  · refine ⟨hsurvey.defs.trans hw.1, fun m => ?_⟩
    rw [Bool.eq_false_iff]
    exact fun hm => Bool.eq_false_iff.mp (hw.2 m) (hsurvey.outer m hm)
  · rw [hdefs, hmodules]
    exact ⟨rfl, fun _ => rfl⟩

/-- If all declared blocks are listed, they still are when the action has ended well. -/
abbrev KeepsDeclared {α : Type} (a : Run α) : Prop :=
  Yields (fun s t => AllDeclared s → AllDeclared t) a

lemma keepsDeclared_modify {f : World → World}
    (h : ∀ w, w.Declared (fun _ _ => False) → (f w).Declared fun _ _ => False) :
    KeepsDeclared (onWorld (modify f)) :=
  yields_onWorld (Leads.modify fun w => .single (h w)).yields

lemma keepsDeclared_complete : KeepsDeclared (onWorld (modify (mapDefs Definitions.complete))) :=
  keepsDeclared_modify fun w hw => hw.enriches (w.enriches_defs w.defs.enriches_complete)

lemma keepsDeclared_resetCounts : KeepsDeclared (onWorld (modify (mapScopes Scopes.resetCounts))) :=
  keepsDeclared_modify fun _ hw => ⟨hw.listed, hw.inner, hw.keyed⟩

lemma keepsDeclared_reached {stage : Stage} : KeepsDeclared (reached stage) :=
  Leads.yields fun _ => .single id

lemma keepsDeclared_declare : KeepsDeclared declare := by
  refine Yields.bind ?_ fun _ => keepsDeclared_reached
  refine yields_onWorld (yields_passOver_of (fun w _ _ _ v t hrun hw => ?_)
    (fun _ hw => ⟨hw.listed, hw.inner, hw.keyed⟩) _ _ _ _ _)
  exact Declarations.declared_analyze hrun (Place.at_of_eq rfl rfl rfl) hw

lemma keepsDeclared_flowRound : KeepsDeclared flowRound := by
  refine keepsDeclared_resetCounts.bind fun _ => Yields.bind ?_ fun _ => ?_
  · exact yields_onWorld (yields_passOver (fun _ _ _ => Flow.declared_analyze)
      (fun _ hw => ⟨hw.listed, hw.inner, hw.keyed⟩))
  refine keepsDeclared_reached.bind fun _ => keepsDeclared_complete.bind fun _ => ?_
  refine Leads.get.yields.bind fun s => Leads.yields fun s => .single fun hs => ?_
  refine ⟨fun m x hx => hs.listed m x ?_, hs.inner, hs.keyed⟩
  exact Sinks.widens_spread.analyzed m x hx

lemma keepsDeclared_followValues {rounds : Nat} : KeepsDeclared (followValues rounds) := by
  induction rounds with
  | zero => exact Leads.pure.yields
  | succ rounds ih =>
    rw [followValues]
    refine Leads.get.yields.bind fun s => .ite Leads.pure.yields ?_
    refine Yields.bind (Leads.modify fun s => .single id).yields fun _ => ?_
    exact keepsDeclared_flowRound.bind fun _ => ih

/-! ### The end of an analysis -/

/-- Every block that is noted as declared is listed by its module. -/
def AllListed (w : World) : Prop := ∀ m x, w.sinks.Analyzed m x → w.modules.Lists m (m ++ "." ++ x)

lemma recountable_allListed : Walk.Recountable AllListed := fun _ _ _ _ hw => hw

lemma allListed_callEdges {s t : Walk CallEdges} (hrun : CallEdges.analyze fuel s = (.ok v, t))
    (hs : AllListed s.world) : AllListed t.world := by
  have hI : Walk.Tolerant Draws Any (fun s : Walk CallEdges => AllListed s.world)
      (fun s => AllListed s.world) :=
    Walk.tolerant_of_world .refl draws_create
      (fun w _ hw hstep m x hx => hstep.lists _ _ (hw m x (hstep.analyzed m x hx)))
      recountable_allListed fun _ hw => hw
  have hend := Walk.world_of_alike (CallEdges.alike_analyze hI recountable_allListed fuel _) hs
  rwa [hrun] at hend

lemma allListed_keySearch {s t : Walk KeySearch} (hrun : KeySearch.analyze fuel s = (.ok v, t))
    (hs : AllListed s.world) : AllListed t.world := by
  have hI : Walk.Tolerant Enriches Any (fun s : Walk KeySearch => AllListed s.world)
      (fun s => AllListed s.world) :=
    Walk.tolerant_of_world .refl (fun w _ _ => w.enriches_scopes w.scopes.adds_create)
      (fun w _ hw hstep m x hx => hstep.modules.lists _ _ (hw m x (hstep.analyzed m x hx)))
      recountable_allListed fun _ hw => hw
  have hend := Walk.world_of_alike (KeySearch.alike_analyze hI recountable_allListed fuel _) hs
  rwa [hrun] at hend

lemma yields_operate {operation : String} :
    Yields (fun s t : State => AllListed s.world → AllListed t.world) (operate operation) := by
  refine .ite ?_ (.ite ?_ Leads.throw.yields)
  · refine .bind (yields_onWorld (yields_passOver (fun _ _ _ => allListed_callEdges)
      (fun _ hw => hw))) fun _ => Leads.yields fun _ => .single id
  · refine .bind (yields_onWorld (yields_passOver (fun _ _ _ => allListed_keySearch)
      (fun _ hw => hw))) fun _ => Leads.yields fun _ => .single id

lemma allListed_run (h : (run settings files).2 = .ok ()) :
    AllListed (run settings files).1.world := by
  have hrun : analyze settings (initial settings files) =
      (.ok (), (analyze settings (initial settings files)).2) := Prod.ext h rfl
  show AllListed (analyze settings (initial settings files)).2.world
  generalize (analyze settings (initial settings files)).2 = t at hrun
  rw [analyze_eq] at hrun
  obtain ⟨_, s₁, himports, hrun⟩ := of_bind hrun
  obtain ⟨hdefs, hinner⟩ := plain_throughImports rfl rfl himports
  have hfresh := (linked_throughImports rfl himports).2.fresh
  obtain ⟨_, s₂, hlinks, hrun⟩ := of_bind hrun
  cases hlinks
  obtain ⟨_, s₃, hfilter, hrun⟩ := of_bind hrun
  have hdeclared₃ : AllDeclared s₃ := by
    have hkeyed : s₁.world.defs.Keyed := by
      rw [hdefs]
      exact nofun
    refine allDeclared_filterNodes ?_ ?_ ?_ hfilter
    · exact hfresh
    · exact hinner
    · exact hkeyed
  obtain ⟨_, s₄, hdeclare, hrun⟩ := of_bind hrun
  obtain ⟨_, s₅, hcomplete, hrun⟩ := of_bind hrun
  obtain ⟨_, s₆, hvalues, hrun⟩ := of_bind hrun
  obtain ⟨_, s₇, hcounts, hoperate⟩ := of_bind hrun
  have hdeclared₄ := keepsDeclared_declare.keeps hdeclare hdeclared₃
  have hdeclared₅ := keepsDeclared_complete.keeps hcomplete hdeclared₄
  have hdeclared₆ := keepsDeclared_followValues.keeps hvalues hdeclared₅
  have hdeclared₇ := keepsDeclared_resetCounts.keeps hcounts hdeclared₆
  refine yields_operate.keeps hoperate fun m x hx => ?_
  exact (hdeclared₇.listed m x hx).resolve_left id

lemma source_of_exchangeSource {w : World} {source : Exchange.Source}
    (h : w.exchangeSource = .ok source) : source.modules = w.modules ∧
    source.classes = w.classes := by
  obtain ⟨requirements, -, h⟩ := Exchange.of_bind h
  cases h
  exact ⟨rfl, rfl⟩

/-- At the end of an analysis every declared block is listed by its module. If the methods are
written differently, a document shows all classes; if it cannot be made because a number is missing,
the class that lacks one has not been declared in its module. -/
theorem missing_class_undeclared (settings : Settings) (files : FileTree) (release : Release)
    (source : Exchange.Source) (hrun : (run settings files).2 = .ok ())
    (hsource : (run settings files).1.world.exchangeSource = .ok source)
    (hseparate : source.Separate) :
    let w := (run settings files).1.world
    (∀ m x, w.sinks.Analyzed m x → w.modules.Lists m (m ++ "." ++ x)) ∧
      (∀ v, Exchange.value release source = .ok v →
        ∀ e ∈ w.classes.entries, w.modules.Lists e.2.module e.1) ∧
      (Exchange.value release source = .error .missing →
        ∃ e ∈ w.classes.entries, ¬ w.modules.Lists e.2.module e.1 ∧
          ∀ x, e.1 = e.2.module ++ "." ++ x → ¬ w.sinks.Analyzed e.2.module x) := by
  intro w
  obtain ⟨hmodules, hclasses⟩ := source_of_exchangeSource hsource
  have hlisted : AllListed w := allListed_run hrun
  obtain ⟨hmade, hmissing⟩ := Exchange.value_listed hseparate release
  rw [hmodules, hclasses] at hmade hmissing
  refine ⟨hlisted, hmade, fun h => ?_⟩
  obtain ⟨e, he, hunlisted⟩ := hmissing h
  refine ⟨e, he, hunlisted, fun x hx hanalyzed => hunlisted ?_⟩
  rw [hx]
  exact hlisted _ _ hanalyzed

/-- The analysis ends well, and a document is to be made from a source with `p`. -/
def endsWith (p : World → Exchange.Source → Bool) (r : State × Except Fault Unit) : Bool :=
  r.2.toOption.isSome && r.1.world.exchangeSource.toOption.any (p r.1.world)

lemma exists_of_endsWith {p : World → Exchange.Source → Bool} {r : State × Except Fault Unit}
    (h : endsWith p r) :
    ∃ source, r.2 = .ok () ∧ r.1.world.exchangeSource = .ok source ∧ p r.1.world source := by
  obtain ⟨s, r⟩ := r
  rw [endsWith, Bool.and_eq_true] at h
  obtain ⟨hend, hsource⟩ := h
  cases r with
  | error e => cases hend
  | ok u =>
    cases hmade : s.world.exchangeSource with
    | error e =>
      rw [hmade] at hsource
      cases hsource
    | ok source =>
      rw [hmade] at hsource
      exact ⟨source, rfl, rfl, hsource⟩

def declaredClass : FileTree := .ofTexts [("m.py", "class A:\n def f(self, c):\n  exec(c)\n")]

/-- A class that leads to no sink, and a function that makes an object of it and calls a sink. -/
def takenOverClass : FileTree := .ofTexts
  [("a.py", "class A:\n pass\n"), ("m.py", "from a import A\ndef f(c):\n A()\n exec(c)\n")]

lemma classes_spec : endsWith (fun w source => decide source.Separate &&
      decide (w.sinks.Analyzed "m" "A") && (Exchange.value {} source).toOption.isSome)
    (run execSettings declaredClass) ∧
    endsWith (fun w source => decide source.Separate &&
      (w.classes.get? "a.A").any (·.module = "a") && !decide (w.modules.Lists "a" "a.A") &&
      isMissing (Exchange.nodes source)) (run execSettings takenOverClass) := by
  constructor <;> decide +kernel

theorem declaredClass_listed : ∃ source, (run execSettings declaredClass).2 = .ok () ∧
    (run execSettings declaredClass).1.world.exchangeSource = .ok source ∧ source.Separate ∧
    (run execSettings declaredClass).1.world.sinks.Analyzed "m" "A" ∧
    (∃ v, Exchange.value {} source = .ok v) ∧
    let w := (run execSettings declaredClass).1.world
    (∀ m x, w.sinks.Analyzed m x → w.modules.Lists m (m ++ "." ++ x)) ∧
      (∀ v, Exchange.value {} source = .ok v →
        ∀ e ∈ w.classes.entries, w.modules.Lists e.2.module e.1) ∧
      (Exchange.value {} source = .error .missing →
        ∃ e ∈ w.classes.entries, ¬ w.modules.Lists e.2.module e.1 ∧
          ∀ x, e.1 = e.2.module ++ "." ++ x → ¬ w.sinks.Analyzed e.2.module x) := by
  obtain ⟨source, hrun, hsource, hspec⟩ := exists_of_endsWith classes_spec.1
  simp only [Bool.and_eq_true, decide_eq_true_eq] at hspec
  obtain ⟨⟨hseparate, hanalyzed⟩, hvalue⟩ := hspec
  refine ⟨source, hrun, hsource, hseparate, hanalyzed, ?_,
    missing_class_undeclared execSettings declaredClass {} source hrun hsource hseparate⟩
  cases hmade : Exchange.value {} source with
  | error e =>
    rw [hmade] at hvalue
    cases hvalue
  | ok v => exact ⟨v, rfl⟩

/-- The class is taken over from a module that is not walked through, so no document can be made. -/
theorem taken_over_class_missing : ∃ source c, (run execSettings takenOverClass).2 = .ok () ∧
    (run execSettings takenOverClass).1.world.exchangeSource = .ok source ∧ source.Separate ∧
    (run execSettings takenOverClass).1.world.classes.get? "a.A" = some c ∧ c.module = "a" ∧
    ¬ (run execSettings takenOverClass).1.world.modules.Lists "a" "a.A" ∧
    ∀ release, Exchange.value release source = .error .missing := by
  obtain ⟨source, hrun, hsource, hspec⟩ := exists_of_endsWith classes_spec.2
  simp only [Bool.and_eq_true, decide_eq_true_eq, Bool.not_eq_true', decide_eq_false_iff_not,
    Option.any_eq_true] at hspec
  obtain ⟨⟨⟨hseparate, c, hc, hmodule⟩, hunlisted⟩, hnodes⟩ := hspec
  refine ⟨source, c, hrun, hsource, hseparate, hc, hmodule, hunlisted, fun _ => ?_⟩
  rw [Exchange.value, eq_of_isMissing hnodes]
  rfl

end Analysis

end SinkTrace
