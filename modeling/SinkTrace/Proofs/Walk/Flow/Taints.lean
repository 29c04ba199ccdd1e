import SinkTrace.Proofs.Analysis.Steps
import SinkTrace.Proofs.Data.Table
import SinkTrace.Proofs.Definition.Edits

/-!
# Arguments that flow into a sink

What an argument of a sink means is marked with the place of the call. By position all of it is
marked, whatever its literals are. By name only that is marked for which no literal is known, and a
literal that is not known by its value counts as one that is.
-/

namespace SinkTrace

namespace Definitions

/-- The definitions that had the mark have it still, and those that `p` allows have got it. -/
def Marks (mark : String) (p : DefRef → Scalars → Prop) (ds ds' : Definitions) : Prop :=
  ∀ r d, ds.find? r = some d → ∃ d', ds'.find? r = some d' ∧ d'.lits = d.lits ∧
    (mark ∈ d'.taints.names ↔ mark ∈ d.taints.names ∨ p r d.lits)

variable {ds ds' ds'' : Definitions} {r : DefRef} {mark : String} {p q : DefRef → Scalars → Prop}

lemma marks_addTaint (hmark : mark ≠ "") :
    Marks mark (fun x _ => x = r) ds (ds.addTaint r (.str mark)) := by
  have hnoted : ∀ b : Bool, (if b then ds.noteTaints r else ds).find? = ds.find? := by
    intro b
    cases b <;> rfl
  have htruthy : Literal.truthy (.str mark) := by simpa [Literal.truthy] using hmark
  intro x d hx
  have hfind : (ds.addTaint r (.str mark)).find? x =
      if x = r then some (d.addTaint (.str mark)) else some d := by
    unfold addTaint
    rw [find?_adjust, hnoted, hx]
    · rfl
    · intro d
      unfold Definition.addTaint Definition.noteTaint
      split_ifs <;> rfl
  rw [hfind]
  split_ifs with hr
  · refine ⟨_, rfl, ?_, ?_⟩
    · unfold Definition.addTaint Definition.noteTaint
      split_ifs <;> rfl
    · have : (d.addTaint (.str mark)).taints = d.taints.add (.str mark) := by
        unfold Definition.addTaint Definition.noteTaint
        simp only [htruthy]
        split_ifs <;> simp_all
      rw [this, PointSet.mem_names_add]
      simp [hr, or_comm]
  · exact ⟨d, rfl, rfl, by simp [hr]⟩

lemma Marks.trans (h : Marks mark p ds ds') (h' : Marks mark q ds' ds'') :
    Marks mark (fun r lits => p r lits ∨ q r lits) ds ds'' := by
  intro r d hd
  obtain ⟨d', hd', hlits, hp⟩ := h r d hd
  obtain ⟨d'', hd'', hlits', hq⟩ := h' r d' hd'
  exact ⟨d'', hd'', hlits'.trans hlits, by rw [hq, hp, hlits, or_assoc]⟩

lemma Marks.congr (h : Marks mark p ds ds') (hpq : ∀ r lits, p r lits ↔ q r lits) :
    Marks mark q ds ds' := by
  obtain rfl : p = q := funext fun r => funext fun lits => propext (hpq r lits)
  exact h

end Definitions

namespace Flow

open Act Walk Definitions

variable {visit : Node → Follow Unit} {again : CallForm → Follow Unit} {s s₁ s₂ : Walk Flow}
  {ms : List Meaning} {fuel : Nat}

def markAt (s : Walk Flow) : String := sinkMark ++ Text.dotted s.frame.names

lemma markAt_ne (s : Walk Flow) : markAt s ≠ "" := by
  simp [markAt, sinkMark, String.append_eq_empty_iff]

lemma run_taintBare {r : DefRef} {d : Definition} (hd : s.world.defs.find? r = some d) :
    taintBare (.ref r) s = if d.lits = [] then addTaint r (markAt s) s else (.ok (), s) := by
  have hdef : definition r s = (.ok d, s) := by
    unfold definition
    rw [run_bind, show getWorld s = (.ok s.world, s) from rfl]
    dsimp only
    rw [hd]
    rfl
  unfold taintBare
  dsimp only
  rw [run_bind, hdef]
  dsimp only
  rw [run_ite]
  simp only [List.isEmpty_iff]
  rfl

lemma marks_forM {mark : String} {p : Scalars → Prop} [DecidablePred p] {f : Meaning → Follow Unit}
    (hother : ∀ m, m.ref? = none → f m = pure ())
    (href : ∀ r d s, markAt s = mark → s.world.defs.find? r = some d →
      f (.ref r) s = if p d.lits then addTaint r mark s else (.ok (), s))
    (hms : ∀ r, .ref r ∈ ms → (s.world.defs.find? r).isSome) (hs : markAt s = mark) :
    ∃ t, ms.forM f s = (.ok (), t) ∧
      Marks mark (fun r lits => .ref r ∈ ms ∧ p lits) s.world.defs t.world.defs := by
  induction ms generalizing s with
  | nil => exact ⟨s, rfl, fun r d hd => ⟨d, hd, rfl, by simp⟩⟩
  | cons m ms ih =>
    obtain ⟨t, hrun, ht, hmarks⟩ : ∃ t, f m s = (.ok (), t) ∧ markAt t = mark ∧
        Marks mark (fun r lits => m = .ref r ∧ p lits) s.world.defs t.world.defs := by
      cases hm : m.ref? with
      | none =>
        refine ⟨s, by rw [hother m hm]; rfl, hs, fun r d hd => ⟨d, hd, rfl, ?_⟩⟩
        have hne : m ≠ .ref r := by rintro rfl; cases hm
        simp [hne]
      | some r =>
        obtain rfl : m = .ref r := by cases m <;> simp_all [Meaning.ref?]
        obtain ⟨d, hd⟩ := Option.isSome_iff_exists.mp (hms r List.mem_cons_self)
        rw [href r d s hs hd]
        split_ifs with hp
        · refine ⟨_, rfl, hs, fun x e he => ?_⟩
          obtain ⟨e', he', hlits, hmem⟩ := marks_addTaint (hs ▸ markAt_ne s) x e he
          refine ⟨e', he', hlits, ?_⟩
          rw [hmem]
          grind
        · refine ⟨s, rfl, hs, fun x e he => ⟨e, he, rfl, ?_⟩⟩
          grind
    obtain ⟨u, hrest, hmarks'⟩ := ih (fun r hr => by
      obtain ⟨d, hd⟩ := Option.isSome_iff_exists.mp (hms r (List.mem_cons_of_mem _ hr))
      obtain ⟨d', hd', -⟩ := hmarks r d hd
      rw [hd']
      rfl) ht
    refine ⟨u, by rw [run_forM_cons, hrun]; exact hrest, (hmarks.trans hmarks').congr fun r _ => ?_⟩
    rw [List.mem_cons, eq_comm, or_and_right]

/-- An argument by position is marked with all that it means, and one by name only with what has no
literals. -/
theorem taints_by_place_or_name {arg : Expr} (hvisit : visit (.expr arg) s = (.ok (), s₁))
    (hms : meaning arg s₁ = (.ok ms, s₂)) (hne : ms ≠ [])
    (hfound : ∀ r, .ref r ∈ ms → (s₂.world.defs.find? r).isSome) :
    (∀ c positions, taintArgs visit (fuel + 1) c positions = do
      let args ← argsOf c
      args.zipIdx.forM (taintAt visit (taintArgs visit fuel · []) positions)
      c.keywords.forM (taintNamed visit (taintArgs visit fuel · []))) ∧
    (∀ (pos : Nat) positions, (positions = [] ∨ (pos : Int) ∈ positions) →
      ∃ t, taintAt visit again positions (arg, pos) s = (.ok (), t) ∧
        Marks (markAt s₂) (fun r _ => .ref r ∈ ms) s₂.world.defs t.world.defs) ∧
    ∀ loc name, ∃ t, taintNamed visit again ⟨loc, name, arg⟩ s = (.ok (), t) ∧
      Marks (markAt s₂) (fun r lits => .ref r ∈ ms ∧ lits = []) s₂.world.defs t.world.defs := by
  obtain ⟨m, ms, rfl⟩ := List.exists_cons_of_ne_nil hne
  refine ⟨fun c positions => rfl, fun _ _ hpos => ?_, fun _ _ => ?_⟩
  · obtain ⟨t, hrun, hmarks⟩ : ∃ t, addTaints (m :: ms) (markAt s₂) s₂ = (.ok (), t) ∧ _ :=
      marks_forM (p := fun _ => True) (fun m hm => by cases m <;> simp_all [Meaning.ref?])
        (fun r d s hs hd => (if_pos trivial).symm) hfound rfl
    refine ⟨t, ?_, hmarks.congr fun r _ => and_iff_left trivial⟩
    unfold taintAt
    rw [if_pos (by simpa using hpos), run_bind, hvisit]
    dsimp only
    rw [run_bind, hms]
    exact hrun
  · obtain ⟨t, hrun, hmarks⟩ := marks_forM (p := (· = [])) (f := taintBare)
      (fun m _ => by cases m <;> simp_all [Meaning.ref?, taintBare])
      (fun r d s hs hd => hs ▸ run_taintBare hd) hfound rfl
    refine ⟨t, ?_, hmarks⟩
    unfold taintNamed
    rw [run_bind, hvisit]
    dsimp only
    rw [run_bind, hms]
    exact hrun

def withDefault : Walk Flow where
  world := {
    scopes := Table.ofList [("m.f", ⟨none, Table.ofList [("c", { ns := "m.f.c" })], 0, 0, 0⟩)]
    defs := { current := Table.ofList [("m.f.c",
      { ns := "m.f.c", kind := .name, module := some "m", lits := [.str "ls"] })] } }
  frame := { file := "m.py", module := "m", names := ["m", "f"] }
  own := {}

theorem default_tainted_by_place :
    (∃ t, taintAt (fun _ => pure ()) (fun _ => pure ()) [0] (.name default "c", 0) withDefault =
      (.ok (), t) ∧
      ∃ d, t.world.defs.find? { ns := "m.f.c" } = some d ∧ sinkMark ++ "m.f" ∈ d.taints.names) ∧
    ∃ t, taintNamed (fun _ => pure ()) (fun _ => pure ())
    ⟨default, "d", .name default "c"⟩ withDefault
        = (.ok (), t) ∧
      ∃ d, t.world.defs.find? { ns := "m.f.c" } = some d ∧ sinkMark ++ "m.f" ∉ d.taints.names := by
  obtain ⟨-, hplace, hname⟩ := @taints_by_place_or_name (fun _ => pure ())
    (fun _ => pure ()) withDefault _ withDefault
    [.ref { ns := "m.f.c" }] 0 (.name default "c") rfl rfl (by simp)
    (by rintro r hr; cases List.mem_singleton.mp hr; rfl)
  obtain ⟨t, hrun, hmarks⟩ := hplace 0 [0] (by simp)
  obtain ⟨u, hrun', hmarks'⟩ := hname default "d"
  refine ⟨⟨t, hrun, ?_⟩, u, hrun', ?_⟩
  · obtain ⟨d, hd, -, hmem⟩ := hmarks { ns := "m.f.c" } _ rfl
    exact ⟨d, hd, hmem.mpr (.inr (by simp))⟩
  · obtain ⟨d, hd, -, hmem⟩ := hmarks' { ns := "m.f.c" } _ rfl
    exact ⟨d, hd, fun h => absurd (hmem.mp h) (by simp)⟩

/-- The default of a parameter is marked by position, and a default whose value is not kept is not
marked by name. -/
theorem literal_marked_by_place :
    let defs := (Analysis.run { sinkLines := some ["<builtin>:exec:0"], maxRounds := 1 }
      (FileTree.ofTexts [("m.py", "def f(c=\"ls\", d=1.5):\n exec(c, locals=d)\n")])).1.world.defs
    (defs.get? "m.f.c").map (fun d => (d.lits.map Literal.display, d.taints.names)) =
        some (["ls"], [sinkMark ++ "m.f"]) ∧
      (defs.get? "m.f.d").map (fun d => (d.lits.map Literal.display, d.taints.names)) =
        some (["UNKNOWN"], []) := by decide +kernel

end Flow

end SinkTrace
