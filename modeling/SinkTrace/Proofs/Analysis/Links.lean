import SinkTrace.Proofs.Analysis.Steps
import SinkTrace.Proofs.Sink.Overlap
import SinkTrace.Proofs.Walk.ImportLinks.Visit
import SinkTrace.Proofs.Walk.SinkSites

/-!
# What is known when the imports have been followed

The analysis notes the world after every step. The one of the step `links` is the world in which the
filter starts. In it every root method is a method of its node, and a method whose enclosing block
does not lead to a sink is a stray one.
-/

namespace SinkTrace.Analysis

open Act World Sinks

variable {α : Type} {settings : Settings} {s t : State} {w : World}

/-! ### The step after the imports -/

lemma analyze_eq : analyze settings = (throughImports settings >>= fun _ =>
    reached .links >>= fun _ => fromFilter settings) := by
  simp only [analyze, throughImports, throughImportsBy, followImports, bind_assoc]

def NoLinks (s t : State) : Prop := ∀ w, (Stage.links, w) ∈ t.steps → (Stage.links, w) ∈ s.steps

lemma noLinks_of_leads {a : Run α} (h : Leads NoLinks a) (s : State) : NoLinks s (a s).2 :=
  h.run (fun _ _ hw => hw) (fun _ _ _ h h' w hw => h w (h' w hw)) s

lemma advances_noLinks : Advances NoLinks where
  world _ _ _ hw := hw
  stage _ _ h _ hw := (List.mem_cons.mp hw).resolve_left fun heq => h (congrArg Prod.fst heq)

lemma leads_followValues {rounds : Nat} : Leads NoLinks (followValues rounds) := by
  induction rounds with
  | zero => exact .pure
  | succ rounds ih =>
    rw [followValues]
    refine Leads.get.bind fun s => .pure_or ?_
    refine (Leads.modify fun s => .single fun _ hw => hw).bind fun _ => ?_
    exact advances_noLinks.flowRound.bind fun _ => ih

lemma leads_fromFilter (settings : Settings) : Leads NoLinks (fromFilter settings) := by
  have hworld {α : Type} (a : Act World α) := advances_noLinks.onWorld a
  refine advances_noLinks.filterNodes.bind fun _ => advances_noLinks.declare.bind fun _ => ?_
  refine (hworld _).bind fun _ => leads_followValues.bind fun _ => (hworld _).bind fun _ => ?_
  refine .ite ((hworld _).bind fun _ => advances_noLinks.reached _ nofun) ?_
  refine .ite ?_ .throw
  exact (hworld _).bind fun _ => advances_noLinks.reached _ nofun

lemma throughImports_of_links (hs : s.steps = [])
    (h : (Stage.links, w) ∈ (analyze settings s).2.steps) :
    ∃ v t, throughImports settings s = (.ok v, t) ∧ t.world = w := by
  rw [analyze_eq, run_bind] at h
  have hbefore := noLinks_of_leads (advances_noLinks.throughImports settings) s
  rcases hrun : throughImports settings s with ⟨_ | v, t⟩
  · rw [hrun] at h hbefore
    exact absurd (hbefore w h) (by simp [hs])
  · rw [hrun] at h hbefore
    have hafter := noLinks_of_leads (leads_fromFilter settings)
      { t with steps := (.links, t.world) :: t.steps }
    rcases List.mem_cons.mp (hafter w h) with heq | hmem
    · exact ⟨v, t, rfl, (congrArg Prod.snd heq).symm⟩
    · exact absurd (hbefore w hmem) (by simp [hs])

/-! ### What is known then -/

lemma yields_start : Yields (fun s t => Founded (fun _ => False) s.world.sinks →
    Founded (fun _ => False) t.world.sinks) (start settings) := by
  have hresources (a : Act Resources Unit) : Yields (fun w w' : World =>
      Founded (fun _ => False) w.sinks → Founded (fun _ => False) w'.sinks)
      (World.onSinks (zoom (·.resources) (fun r ss => { ss with resources := r }) a)) :=
    Leads.yields fun _ => .single fun h =>
      ⟨h.methods, h.inhabited, h.sites, h.register, h.sources, h.fresh, h.orderly.of_eq rfl rfl⟩
  refine (yields_onWorld (hresources _)).bind fun _ => ?_
  refine .bind (Leads.yields fun _ => .single id) fun _ => Leads.get.yields.bind fun s => ?_
  refine .bind (Leads.yields fun _ => .single id) fun _ => ?_
  exact (yields_onWorld (hresources _)).bind fun _ => Leads.pure.yields

lemma sound_of_founded (h : Founded (fun _ => False) w.sinks) : Sound (fun _ _ => False) w where
  methods X x hx := by
    obtain ⟨methods, hroot, hmethod⟩ := h.sites X x hx
    exact .inr (.inr (.site hroot hmethod))
  entries k e he := by
    rw [entries_eq_nil (h.register k)] at he
    cases he
  rows k hk := by
    rw [h.register k] at hk
    cases hk
  sources := h.sources
  fresh := h.fresh
  orderly := h.orderly

lemma rooted_of_grows {w₀ : World} (h : Founded (fun _ => False) w₀.sinks) (hw : Grows w₀ w) :
    Rooted w.sinks := by
  intro e he
  rw [hw.sinks.roots] at he
  have hmethods (x : String) (hx : x ∈ e.2.keys) : w.sinks.HasMethod e.1 x :=
    hw.sinks.methods _ _ (h.methods e he x hx)
  refine ⟨?_, hmethods⟩
  obtain ⟨x, hx⟩ := List.exists_mem_of_ne_nil _ ((h.inhabited e he).resolve_left id)
  obtain ⟨n, hn⟩ := (hmethods x hx).node
  rw [hn]
  rfl

lemma linked_throughImports {v : Unit} (hs : s.world.sinks = {})
    (h : throughImports settings s = (.ok v, t)) :
    Rooted t.world.sinks ∧ Sound (fun _ _ => False) t.world := by
  obtain ⟨found, s₁, hstart, h⟩ := of_bind h
  have hfounded₁ : Founded (fun _ => False) s₁.world.sinks :=
    yields_start.keeps hstart (hs ▸ founded_start {})
  obtain ⟨_, _, hreached, h⟩ := of_bind h
  cases hreached
  obtain ⟨_, s₃, hsites, h⟩ := of_bind h
  obtain ⟨_, s₂, hpass, hsites⟩ := of_bind hsites
  cases hsites
  have hfounded₃ : Founded (fun _ => False) s₂.world.sinks.filterModules := by
    have hgrounded := (yields_passOver
      (fun _ _ _ hrun => SinkSites.grounded_analyze hrun) (fun _ hw => hw)).keeps
      (run_of_onWorld hpass) ⟨rfl, hfounded₁⟩
    exact hgrounded.2.filterModules
  let w₀ := World.mapSinks Sinks.filterModules s₂.world
  have hsound₀ : Sound (fun _ _ => False) w₀ := sound_of_founded hfounded₃
  have hunload (w : World) (hw : Grows w₀ w ∧ Sound (fun _ _ => False) w) :
      Grows w₀ { w with imports := w.imports.unload } ∧
        Sound (fun _ _ => False) { w with imports := w.imports.unload } := by
    refine And.imp_left hw.1.trans ?_
    exact hw.2.settle (.refl _) .refl
  have hlinked : Grows w₀ t.world ∧ Sound (fun _ _ => False) t.world :=
    (yields_passOver (fun _ _ _ hrun => ImportLinks.sound_analyze hrun) hunload).keeps
      (run_of_onWorld h) ⟨.refl, hsound₀⟩
  exact ⟨rooted_of_grows hfounded₃ hlinked.1, hlinked.2⟩

lemma linked_of_links {files : FileTree} (h : (Stage.links, w) ∈ (run settings files).1.steps) :
    Rooted w.sinks ∧ Sound (fun _ _ => False) w := by
  obtain ⟨v, t, hrun, rfl⟩ := throughImports_of_links rfl (List.mem_reverse.mp h)
  exact linked_throughImports rfl hrun

def linksWorld? (s : State) : Option World :=
  s.steps.findSome? fun
    | (.links, w) => some w
    | _ => none

lemma mem_of_linksWorld? (h : linksWorld? s = some w) : (Stage.links, w) ∈ s.steps := by
  obtain ⟨⟨stage, w'⟩, hmem, hw⟩ := List.exists_of_findSome?_eq_some h
  cases stage with
  | links =>
    cases hw
    exact hmem
  | _ => cases hw

/-- A class with a method that calls a function, which calls a sink. The class comes first. -/
def lateSinkText : String := "class C:\n def m(c):\n  f(c)\ndef f(c):\n exec(c)\n"

def lateSink : FileTree := ⟨Table.ofList [("m.py", lateSinkText.toList.map (·.toNat.toUInt8))]⟩

def execSettings : Settings := { sinkLines := some ["<builtin>:exec:0"], maxRounds := 0 }

lemma lateSink_spec : ∃ w, (Stage.links, w) ∈ (run execSettings lateSink).1.steps ∧
    (w.sinks.roots.getD "m" {}).contains "f" ∧ w.sinks.HasMethod "m" "C.m" ∧
      ¬ w.sinks.HasMethod "m" "C" := by
  have h : (linksWorld? (run execSettings lateSink).1).any (fun w =>
      (w.sinks.roots.getD "m" {}).contains "f" && (w.sinks.links? "m" "C.m").isSome &&
        !(w.sinks.links? "m" "C").isSome) := by decide +kernel
  obtain ⟨w, hw, hspec⟩ := (Option.any_eq_true _ _).mp h
  rw [Bool.and_eq_true, Bool.and_eq_true, Bool.not_eq_true'] at hspec
  obtain ⟨⟨hroot, hmethod⟩, hclass⟩ := hspec
  exact ⟨w, mem_of_linksWorld? hw, hroot, hmethod, Bool.eq_false_iff.mp hclass⟩

/-- When the imports have been followed, every root has its node with its methods, so the search for
them is never in vain. -/
theorem roots_found (settings : Settings) (files : FileTree) (w : World)
    (h : (Stage.links, w) ∈ (run settings files).1.steps) :
    (∀ e ∈ w.sinks.roots.entries, (w.sinks.node? e.1).isSome = true ∧
      ∀ method ∈ e.2.keys, (w.sinks.links? e.1 method).isSome = true) ∧
      ∀ noNode noMethod,
        overlapsElse noNode noMethod { sinks := w.sinks } = overlaps { sinks := w.sinks } :=
  have hrooted := (linked_of_links h).1
  ⟨hrooted, overlapsElse_eq hrooted⟩

theorem roots_found_lateSink : ∃ w, (Stage.links, w) ∈ (run execSettings lateSink).1.steps ∧
    (w.sinks.roots.getD "m" {}).contains "f" = true ∧
    (∀ e ∈ w.sinks.roots.entries, (w.sinks.node? e.1).isSome = true ∧
      ∀ method ∈ e.2.keys, (w.sinks.links? e.1 method).isSome = true) ∧
      ∀ noNode noMethod,
        overlapsElse noNode noMethod { sinks := w.sinks } = overlaps { sinks := w.sinks } := by
  obtain ⟨w, hw, hroot, -, -⟩ := lateSink_spec
  exact ⟨w, hw, hroot, roots_found execSettings lateSink w hw⟩

/-- The block around a method that leads to a sink does so too, unless the method is a stray one. -/
theorem enclosed_or_stray (settings : Settings) (files : FileTree) (w : World)
    (h : (Stage.links, w) ∈ (run settings files).1.steps) (mod method : String)
    (hmethod : w.sinks.HasMethod mod method) : w.Enclosed mod method ∨ w.Stray mod method :=
  ((linked_of_links h).2.methods mod method hmethod).resolve_left id

theorem enclosed_or_stray_lateSink : ∃ w, (Stage.links, w) ∈ (run execSettings lateSink).1.steps ∧
    w.sinks.HasMethod "m" "C.m" ∧ (w.Enclosed "m" "C.m" ∨ w.Stray "m" "C.m") := by
  obtain ⟨w, hw, -, hmethod, -⟩ := lateSink_spec
  exact ⟨w, hw, hmethod, enclosed_or_stray execSettings lateSink w hw "m" "C.m" hmethod⟩

/-- The caller comes to lead to the sink late, and the class around it does not. -/
theorem class_left_out : ∃ w, (Stage.links, w) ∈ (run execSettings lateSink).1.steps ∧
    w.sinks.HasMethod "m" "C.m" ∧ ¬ w.sinks.HasMethod "m" "C" := by
  obtain ⟨w, hw, -, hmethod, hclass⟩ := lateSink_spec
  exact ⟨w, hw, hmethod, hclass⟩

end SinkTrace.Analysis
