import Mathlib.Logic.Function.Iterate
import SinkTrace.Proofs.Analysis.Links
import SinkTrace.Proofs.Sink.Spread
import SinkTrace.Proofs.Walk.Flow.Visit

/-!
# When the rounds end

The rounds of the flow pass end when the last one says no more than the one before: when both worlds
have the same names, literals, targets of scopes and linearizations. What else a round leaves
behind, such as the positions of arguments, is not compared, and another round may make use of it.
That round adds to the world; it takes nothing away.
-/

namespace SinkTrace

/-! ### What is compared -/

/-- The two definitions point to the same names and literals. -/
structure Definition.SameValues (d e : Definition) : Prop where
  names : ∀ n, n ∈ d.name.points.names ↔ n ∈ e.name.points.names
  scalars : ∀ l, (l ∈ d.name.points.scalars → e.name.points.has l = true) ∧
    (l ∈ e.name.points.scalars → d.name.points.has l = true)
  lits : ∀ l, (l ∈ d.lits → e.lits.has l = true) ∧ (l ∈ e.lits → d.lits.has l = true)

/-- The names of the two scopes stand for the same definitions, taken together. -/
def Scope.SameTargets (s t : Scope) : Prop :=
  ∀ ns, ns ∈ s.defs.values.map (·.ns) ↔ ns ∈ t.defs.values.map (·.ns)

/-- The two worlds have the same definitions, scopes and classes, and say the same of each. -/
structure World.SaysSame (w w' : World) : Prop where
  defs : ∀ ns, Option.Rel Definition.SameValues (w.defs.get? ns) (w'.defs.get? ns)
  scopes : ∀ ns, Option.Rel Scope.SameTargets (w.scopes.get? ns) (w'.scopes.get? ns)
  classes : ∀ ns, Option.Rel (fun c d => c.mro = d.mro) (w.classes.get? ns) (w'.classes.get? ns)

lemma Definition.sameValues_of_same {d e : Definition}
    (hpoints : d.name.points.same e.name.points) (hlits : ∀ l ∈ d.lits, e.lits.has l)
    (hlits' : ∀ l ∈ e.lits, d.lits.has l) : e.SameValues d := by
  rw [PointSet.same, Bool.and_eq_true, List.all_eq_true, List.all_eq_true] at hpoints
  obtain ⟨hde, hed⟩ := hpoints
  refine ⟨fun n => ⟨fun hn => ?_, fun hn => ?_⟩, fun l => ⟨fun hl => ?_, fun hl => ?_⟩,
    fun l => ⟨hlits' l, hlits l⟩⟩
  · exact List.contains_iff_mem.mp (hed (.str n) (PointSet.mem_toList_iff.mpr (.inl ⟨n, hn, rfl⟩)))
  · exact List.contains_iff_mem.mp (hde (.str n) (PointSet.mem_toList_iff.mpr (.inl ⟨n, hn, rfl⟩)))
  · exact hed l (PointSet.mem_toList_iff.mpr (.inr hl))
  · exact hde l (PointSet.mem_toList_iff.mpr (.inr hl))

lemma Scope.sameTargets_of_same {s t : Scope}
    (h : Names.same (s.defs.values.map (·.ns)) (t.defs.values.map (·.ns))) :
    t.SameTargets s := by
  rw [Names.same, Bool.and_eq_true, List.all_eq_true, List.all_eq_true] at h
  exact fun ns => ⟨fun hns => List.contains_iff_mem.mp (h.2 ns hns),
    fun hns => List.contains_iff_mem.mp (h.1 ns hns)⟩

namespace Analysis

open Act

lemma saysSame_of_saysNoMore {before w : World} (h : saysNoMore before w)
    (hdevelops : before.Develops w) : before.SaysSame w := by
  simp only [saysNoMore, Bool.and_eq_true, List.all_eq_true, Option.any_eq_true,
    decide_eq_true_eq] at h
  obtain ⟨⟨hdefs, hscopes⟩, hclasses⟩ := h
  refine ⟨Table.rel_of_all (fun _ => hdevelops.defs.contains) fun e he => ?_,
    Table.rel_of_all (fun ns hns => ?_) fun e he => ?_,
    Table.rel_of_all hdevelops.classes fun e he => ?_⟩
  · obtain ⟨d, hd, ⟨hpoints, hlits⟩, hlits'⟩ := hdefs e he
    exact ⟨d, hd, Definition.sameValues_of_same hpoints hlits hlits'⟩
  · obtain ⟨s, hs⟩ := Table.contains_iff.mp hns
    obtain ⟨t, ht, -⟩ := hdevelops.scopes ns s hs
    exact Table.contains_of_get? ht
  · obtain ⟨t, ht, hsame⟩ := hscopes e he
    exact ⟨t, ht, Scope.sameTargets_of_same hsame⟩
  · obtain ⟨d, hd, hmro⟩ := hclasses e he
    exact ⟨d, hd, hmro.symm⟩

/-! ### Rounds -/

variable {settings : Settings} {s t : State}

lemma develops_flowRound (s : State) : s.world.Develops (flowRound s).2.world := by
  have hround : Leads (fun s t : State => s.world.Develops t.world) flowRound := by
    refine (leads_onWorld fun w => ?_).bind fun _ => ?_
    · exact w.develops_scopes w.scopes.keeps_resetCounts
    refine (leads_onWorld fun w => ?_).bind fun _ => ?_
    · have hpass := leads_passOver (Flow.develops_analyze Walk.depthBound)
        (fun w => { World.Develops.refl w with }) false ({} : Flow) (·.sources) Walk.depthBound 0 []
      exact hpass.run .refl (fun _ _ _ => .trans) w
    refine Leads.bind (fun s => .single (.refl s.world)) fun _ => ?_
    refine (leads_onWorld fun w => ?_).bind fun _ => Leads.get.bind fun s => ?_
    · exact w.develops_defs w.defs.enriches_complete.develops
    · exact leads_onWorld fun w => w.develops_sinks Sinks.widens_spread.methods
  exact hround.run (fun s => .refl s.world) (fun _ _ _ => .trans) s

lemma develops_flowRounds (n : Nat) (s : State) :
    s.world.Develops ((fun s => (flowRound s).2)^[n] s).world := by
  induction n generalizing s with
  | zero => exact .refl s.world
  | succ n ih => exact (develops_flowRound s).trans (ih _)

def SameBefore (s t : State) : Prop := t.before = s.before

lemma advances_sameBefore : Advances SameBefore := ⟨fun _ _ => rfl, fun _ _ _ => rfl⟩

lemma before_of_leads {α : Type} {a : Run α} (h : Leads SameBefore a) (s : State) :
    (a s).2.before = s.before := h.run (fun _ => rfl) (fun _ _ _ h h' => h'.trans h) s

lemma before_flowRound (s : State) : (flowRound s).2.before = s.before :=
  before_of_leads advances_sameBefore.flowRound s

def AfterRound (t : State) : Prop := ∃ s, flowRound s = (.ok (), t) ∧ t.before = some s.world

lemma afterRound_of_followValues {rounds : Nat} (hs : s.before = none ∨ AfterRound s)
    (h : followValues rounds s = (.ok (), t)) : t.before = none ∨ AfterRound t := by
  induction rounds generalizing s with
  | zero =>
    cases h
    exact hs
  | succ rounds ih =>
    rw [followValues, run_bind, run_get] at h
    dsimp only at h
    split_ifs at h
    · cases h
      exact hs
    · obtain ⟨_, s₁, hbefore, h⟩ := of_bind h
      cases hbefore
      obtain ⟨_, s₂, hround, h⟩ := of_bind h
      refine ih (.inr ⟨_, hround, ?_⟩) h
      have hkept := before_flowRound { s with before := some s.world }
      rwa [hround] at hkept

def throughFlow (settings : Settings) : Run Unit := do
  throughImports settings
  reached .links
  filterNodes
  declare
  onWorld (modify (World.mapDefs Definitions.complete))
  followValues (roundBound settings.maxRounds)

def fromFlow (settings : Settings) : Run Unit := do
  onWorld (modify (World.mapScopes Scopes.resetCounts))
  operate settings.operation

lemma analyze_eq_flow :
    analyze settings = (throughFlow settings >>= fun _ => fromFlow settings) := by
  simp only [analyze, fromFilter, throughFlow, fromFlow, throughImports, throughImportsBy,
    followImports,
    bind_assoc]

lemma afterRound_of_throughFlow (hs : s.before = none) (h : throughFlow settings s = (.ok (), t)) :
    t.before = none ∨ AfterRound t := by
  have hkept {α : Type} {a : Run α} {s t : State} {v : α} (ha : Leads SameBefore a)
      (hrun : a s = (.ok v, t)) (hs : s.before = none) : t.before = none := by
    have hbefore := before_of_leads ha s
    rw [hrun] at hbefore
    exact hbefore.trans hs
  obtain ⟨_, s₁, himports, h⟩ := of_bind h
  obtain ⟨_, s₂, hlinks, h⟩ := of_bind h
  cases hlinks
  obtain ⟨_, s₃, hfilter, h⟩ := of_bind h
  obtain ⟨_, s₄, hdeclare, h⟩ := of_bind h
  obtain ⟨_, s₅, hcomplete, h⟩ := of_bind h
  have h₁ := hkept (advances_sameBefore.throughImports settings) himports hs
  have h₃ := hkept advances_sameBefore.filterNodes hfilter h₁
  have h₄ := hkept advances_sameBefore.declare hdeclare h₃
  exact afterRound_of_followValues (.inl (hkept (advances_sameBefore.onWorld _) hcomplete h₄)) h

/-- When the rounds end because the last one says no more than the one before, the worlds before and
after it say the same. Whatever rounds were to follow would take nothing away, and a definition
keeps what it has unless another one takes its place. -/
theorem converged_says_same (settings : Settings) (w : World) (t : State)
    (hrun : throughFlow settings { world := w } = (.ok (), t))
    (hconverged : hasConverged t = true) :
    analyze settings { world := w } = fromFlow settings t ∧
      (∃ s, flowRound s = (.ok (), t) ∧ s.world.SaysSame t.world) ∧
        ∀ n, t.world.Develops ((fun s => (flowRound s).2)^[n] t).world := by
  refine ⟨by rw [analyze_eq_flow, run_bind, hrun], ?_, fun n => develops_flowRounds n t⟩
  obtain ⟨before, hbefore, hsays⟩ := (Option.any_eq_true _ _).mp hconverged
  rcases afterRound_of_throughFlow rfl hrun with hnone | ⟨s, hround, hsome⟩
  · rw [hnone] at hbefore
    cases hbefore
  · obtain rfl := Option.some.inj (hsome.symm.trans hbefore)
    have hdevelops := develops_flowRound s
    rw [hround] at hdevelops
    exact ⟨s, hround, saysSame_of_saysNoMore hsays hdevelops⟩

/-- The arguments become positions of the class one after the other, one in each round. -/
def lateFieldText : String :=
  "class T:\n x: int\n def run(self, q):\n  exec(q)\ndef a():\n pass\ndef b():\n pass\nT(a, a, b)\n"

def lateField : World :=
  let files : FileTree := ⟨Table.ofList [("m.py", lateFieldText.toList.map (·.toNat.toUInt8))]⟩
  { files, imports := Imports.start files "" }

def threeRounds : Settings := { execSettings with maxRounds := 3 }

def lateFieldRun : Except Fault Unit × State := throughFlow threeRounds { world := lateField }

/-- What the class, its field and the last argument point to: names, taints and positions. -/
def lateFieldPointers (s : State) : List (Option (Names × Names × Nat)) :=
  ["m.T", "m.T.x", "m.b"].map fun ns =>
    (s.world.defs.get? ns).map fun d => (d.name.points.names, d.taints.names, d.name.posNames.size)

lemma lateField_spec : lateFieldRun.1.toOption = some () ∧ hasConverged lateFieldRun.2 ∧
      lateFieldPointers lateFieldRun.2 =
        [some ([], [], 2), some (["m.T.x", "m.a"], [], 0), some ([], ["m.b.<RETURN>"], 0)] ∧
      (flowRound lateFieldRun.2).1.toOption = some () ∧
      lateFieldPointers (flowRound lateFieldRun.2).2 =
        [some ([], [], 3), some (["m.T.x", "m.a", "m.b"], [], 0),
          some ([], ["m.b.<RETURN>", "m.T.x"], 0)] := by decide +kernel

theorem lateField_says_same : ∃ t, throughFlow threeRounds { world := lateField } = (.ok (), t) ∧
    hasConverged t = true ∧
    analyze threeRounds { world := lateField } = fromFlow threeRounds t ∧
      (∃ s, flowRound s = (.ok (), t) ∧ s.world.SaysSame t.world) ∧
        ∀ n, t.world.Develops ((fun s => (flowRound s).2)^[n] t).world := by
  obtain ⟨hrun, hconverged, -⟩ := lateField_spec
  exact ⟨_, eq_of_toOption hrun, hconverged,
    converged_says_same threeRounds lateField _ (eq_of_toOption hrun) hconverged⟩

/-- The rounds end while an argument has yet to become a position. Another round makes it one. -/
theorem converged_round_adds : ∃ t u,
    throughFlow threeRounds { world := lateField } = (.ok (), t) ∧ hasConverged t = true ∧
      lateFieldPointers t =
        [some ([], [], 2), some (["m.T.x", "m.a"], [], 0), some ([], ["m.b.<RETURN>"], 0)] ∧
      flowRound t = (.ok (), u) ∧
      lateFieldPointers u = [some ([], [], 3), some (["m.T.x", "m.a", "m.b"], [], 0),
          some ([], ["m.b.<RETURN>", "m.T.x"], 0)] := by
  obtain ⟨hrun, hconverged, hpointers, hround, hpointers'⟩ := lateField_spec
  exact ⟨_, _, eq_of_toOption hrun, hconverged, hpointers, eq_of_toOption hround, hpointers'⟩

end Analysis

end SinkTrace
