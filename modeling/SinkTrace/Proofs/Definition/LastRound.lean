import SinkTrace.Proofs.Definition.Completion

/-!
# The last round of completion

Completion stops after a round that puts nothing on the list of the next one. Such a round has
changed nothing but arguments and their positions. These it may have changed without putting
anything on the list, and then another completion goes on from there.
-/

namespace SinkTrace.Definitions

variable {σ α : Type} {ds : Definitions} {ns target : String} {arg : Option String}
  {s : Definitions × Bool}

def bare (ds : Definitions) (ns : String) : Option Definition :=
  (ds.get? ns).map fun d => { d with name := { points := d.name.points } }

lemma bare_adjustAt {f : Definition → NamePointer}
    (h : ∀ d, ds.get? ns = some d → (f d).points = d.name.points) :
    bare (ds.adjustAt ns fun d => { d with name := f d }) = bare ds := by
  funext m
  rw [bare, get?_adjustAt]
  split_ifs with hm
  · subst hm
    rw [bare, Option.map_map]
    refine Option.map_congr fun d hd => ?_
    rw [Function.comp_apply, h d hd]
  · rfl

/-- A step after which nothing is on the list changes nothing but arguments. -/
def Tells (D : σ → Definitions) (Q : σ → Prop) (s t : σ) : Prop := Q t → Q s ∧
  bare (D t) = bare (D s)

variable {D : σ → Definitions} {Q : σ → Prop}

lemma Tells.refl {s : σ} : Tells D Q s s := fun hs => ⟨hs, rfl⟩

lemma tells_foldl {f : σ → α → σ} {as : List α} (h : ∀ a ∈ as, ∀ s, Tells D Q s (f s a)) (s : σ) :
    Tells D Q s (as.foldl f s) := by
  refine List.foldlRecOn as f .refl fun t ht a ha hquiet => ?_
  obtain ⟨hquiet, hsame⟩ := h a ha t hquiet
  exact ⟨(ht hquiet).1, hsame.trans (ht hquiet).2⟩

lemma tells_passItem {item : String} : Tells Prod.fst (·.2 = false) s (passItem target s item) := by
  unfold passItem
  split
  · exact .refl
  · split_ifs
    · exact .refl
    · exact fun hs => absurd hs.symm Bool.false_ne_true

lemma tells_passTarget : Tells Prod.fst (·.2 = false) s (passTarget ns arg s target) := by
  unfold passTarget
  split_ifs
  · exact .refl
  · intro hquiet
    obtain ⟨hs, hsame⟩ := tells_foldl (fun _ _ s => tells_passItem) _ hquiet
    exact ⟨hs, hsame.trans (bare_adjustAt fun _ _ => rfl)⟩

lemma bare_passValues {targets : PointSet} (h : (passValues ds ns arg targets).2 = false) :
    bare (passValues ds ns arg targets).1 = bare ds := by
  unfold passValues at h ⊢
  split_ifs at h ⊢
  · rfl
  · exact (tells_foldl (fun _ _ s => tells_passTarget) (ds, false) h).2

lemma tells_passArgument {s : Rounds} :
    Tells Rounds.defs (·.next = []) s (passArgument ns target s arg) := by
  cases hd : s.defs.get? ns with
  | none =>
    rw [passArgument, hd]
    exact .refl
  | some d =>
    cases ht : s.defs.get? target with
    | none =>
      rw [passArgument, hd, ht]
      exact .refl
    | some t =>
      cases hk : t.name.arg? (keyOf d t arg) with
      | none =>
        obtain ⟨name, hpoints, heq⟩ := passArgument_new hd ht hk
        rw [heq]
        refine fun hs => ⟨hs, bare_adjustAt fun e he => ?_⟩
        rw [hpoints, Option.some.inj (he.symm.trans ht)]
      | some targets =>
        rw [passArgument_known hd ht hk, changedBy]
        intro hquiet
        cases hflag : (passValues s.defs ns arg targets).2 with
        | true =>
          rw [hflag] at hquiet
          exact absurd hquiet (List.ne_nil_of_mem (List.mem_insertEnd_iff.mpr (.inl rfl)))
        | false =>
          rw [hflag] at hquiet
          exact ⟨hquiet, bare_passValues hflag⟩

lemma tells_passArguments (s : Rounds) (ns : String) :
    Tells Rounds.defs (·.next = []) s (passArguments s ns) := by
  unfold passArguments
  split
  · exact .refl
  · refine tells_foldl (fun _ _ s => ?_) s
    split_ifs
    · exact .refl
    · exact tells_foldl (fun _ _ s => tells_passArgument) s

lemma complete_of_last_round (hlast : (ds.current.keys.foldl passArguments
    { defs := ds }).next = []) :
    ds.complete = (ds.current.keys.foldl passArguments { defs := ds }).defs := by
  obtain ⟨n, hn⟩ : ∃ n, max ds.current.size 20 = n + 1 := ⟨_, (Nat.succ_pred (by omega)).symm⟩
  rw [complete, hn, rounds, hlast]
  rfl

/-- A round after which completion stops has changed nothing but arguments, in whatever order. If it
goes through all definitions, it is all that completion does. So if it has not changed arguments
either, completion changes nothing. -/
theorem bare_of_last_round (ds : Definitions) (work : Names)
    (hlast : (work.foldl passArguments { defs := ds }).next = []) :
    bare (work.foldl passArguments { defs := ds }).defs = bare ds ∧
      (work = ds.current.keys → ds.complete = (work.foldl passArguments { defs := ds }).defs ∧
        ((work.foldl passArguments { defs := ds }).defs = ds → ds.complete.complete = ds)) := by
  refine ⟨(tells_foldl (fun ns _ s => tells_passArguments s ns) _ hlast).2, ?_⟩
  rintro rfl
  have hone := complete_of_last_round hlast
  refine ⟨hone, fun hsame => ?_⟩
  rw [hsame] at hone
  rw [hone, hone]

/-- Two arguments of `a` go to the same argument of `b`, the value of the first one and then
another. -/
def twoForOne : List Op :=
  [.var "a", .var "b", .var "p", .addName { ns := "a" } (.str "b"),
    .addArg { ns := "a" } (some "0") (.name "p"),
    .addPosArg { ns := "a" } (.int 0) (some "x") (.name "q")]

theorem bare_twoForOne : (["b", "a"].foldl passArguments { defs := run twoForOne {} }).next = [] ∧
    bare (["b", "a"].foldl passArguments { defs := run twoForOne {} }).defs =
    bare (run twoForOne {}) :=
  ⟨rfl, (bare_of_last_round _ _ rfl).1⟩

/-- The first round is the last one, and yet another completion withdraws a value. -/
theorem withdrawn_after_last_round :
    ((run twoForOne {}).current.keys.foldl passArguments { defs := run twoForOne {} }).next = [] ∧
      (valuesOf (run twoForOne {}).complete "a" (some "0")).names = ["p"] ∧
      (valuesOf (run twoForOne {}).complete.complete "a" (some "0")).names = [] := ⟨rfl, rfl, rfl⟩

end SinkTrace.Definitions
