import SinkTrace.Proofs.Closure.Soundness

/-!
# A mark of a sink stays

A definition whose taints hold the mark of a sink keeps one. A later computation rebuilds the taints
from the additions and from the old taints, and whichever of the two holds the mark brings it back:
a mark takes the place of all that was found, and what is found afterwards is added to it.
-/

namespace SinkTrace

open Definitions Pointer Relation

variable {k : Pointer} {n : String} {p : Pass}

namespace Pointer

variable {ns : String}

abbrev HasMark (k : Pointer) (xs : Names) : Prop := Has (fun x => k.isMark x = true) xs

abbrev Flagged (k : Pointer) (ds : Definitions) (ns : String) : Prop := k.HasMark (k.closure ds ns)

lemma Flagged.of_cache {ds ds' : Definitions} (h : k.Flagged ds ns)
    (hc : (k.cache ds').get? ns = (k.cache ds).get? ns) : k.Flagged ds' ns := by
  unfold Flagged
  rwa [closure_congr hc]

lemma flagged_enter (h : k.Flagged p.defs n) {s : Names} : k.Flagged (k.enter p ns s).defs n := by
  refine h.of_cache ?_
  rw [cache_enter, if_neg]
  rintro ⟨rfl, hnil⟩
  obtain ⟨x, hx, -⟩ := h
  rw [hnil] at hx
  cases hx

lemma flagged_settle (h : k.Flagged p.defs n) : k.Flagged (k.settle p ns).defs n :=
  h.of_cache (by rw [cache_settle])

lemma flagged_store {r : Names} (h : k.Flagged p.defs n) (hr : n = ns → k.HasMark r) :
    k.Flagged (k.store p ns r).defs n := by
  by_cases hn : n = ns
  · have hget : (k.cache (k.store p ns r).defs).get? n = some r := by rw [cache_store, if_pos hn]
    unfold Flagged
    rw [closure_of_cache hget]
    exact hr hn
  · exact h.of_cache (by rw [cache_store, if_neg hn])

/-- A mark of the old closure is in one of the two parts that a later visit goes through. -/
lemma mark_fresh_or_rest (ha : p.affected ≠ []) {d : Definition} (h : k.Flagged p.defs d.ns) :
    k.HasMark (k.fresh p d).names ∨ k.HasMark (k.rest p d) := by
  obtain ⟨x, hx, hm⟩ := h
  have hne : k.closure p.defs d.ns ≠ [] := List.ne_nil_of_mem hx
  rw [fresh_of_later ha]
  by_cases hadd : x ∈ (k.added d).names
  · exact .inl ⟨x, hadd, hm⟩
  · refine .inr ⟨x, ?_, hm⟩
    simpa [rest, ha, held, hne] using ⟨hx, hadd⟩

end Pointer

namespace Search

variable {q : Pass} {t : Task} {o : Option Names}

/-- Following names keeps a mark that was found, and finds one that is among them. -/
def OutcomeMarked (k : Pointer) (r : Names) : Task → Prop
  | .visit _ => True
  | .follow _ ns acc => k.HasMark ns ∨ k.HasMark acc → k.HasMark r

lemma flagged (h : Search k p t o q) (hp : k.Sane p) (ha : p.affected ≠ []) :
    (∀ n, k.Flagged p.defs n → k.Flagged q.defs n) ∧ ∀ r, o = some r → OutcomeMarked k r t := by
  induction h with
  | absent hd => exact ⟨fun n hn => hn, fun r _ => trivial⟩
  | known hd hk hc => exact ⟨fun n hn => hn, fun r _ => trivial⟩
  | @close p p₁ p₂ ns d found result hd ho hf hr hs ihf ihs =>
    have hop := hp.opening hd ho hf.sane_frame
    obtain rfl : d.ns = ns := hp.keyed ns d hd
    have ha₁ : (k.settle p₁ d.ns).affected ≠ [] := by
      rwa [affected_settle, hop.frame.affected, affected_enter]
    obtain ⟨hflag₁, hfound⟩ := ihf hop.sane_enter (by rwa [affected_enter])
    obtain ⟨hflag₂, hresult⟩ := ihs hop.sane_settle ha₁
    refine ⟨fun n hn => ?_, fun r _ => trivial⟩
    have hn₂ := hflag₂ n (flagged_settle (hflag₁ n (flagged_enter hn)))
    refine flagged_store hn₂ fun hns => hresult result rfl ?_
    rw [hns] at hn
    exact (mark_fresh_or_rest ha hn).symm.imp_right fun h => hfound found rfl (.inl h)
  | stopFresh hd ho hf hr ihf =>
    have hop := hp.opening hd ho hf.sane_frame
    have hflag := (ihf hop.sane_enter (by rwa [affected_enter])).1
    exact ⟨fun n hn => hflag n (flagged_enter hn), nofun⟩
  | stopRest hd ho hf hs ihf ihs =>
    have hop := hp.opening hd ho hf.sane_frame
    have hflag₁ := (ihf hop.sane_enter (by rwa [affected_enter])).1
    have hflag₂ := (ihs hop.sane_settle (by
      rwa [affected_settle, hop.frame.affected, affected_enter])).1
    exact ⟨fun n hn => hflag₂ n (flagged_settle (hflag₁ n (flagged_enter hn))), nofun⟩
  | nil =>
    refine ⟨fun n hn => hn, fun r hr => ?_⟩
    cases hr
    rintro (⟨x, hx, -⟩ | hacc)
    · cases hx
    · exact hacc
  | mark hn =>
    refine ⟨fun n hn => hn, fun r hr => ?_⟩
    cases hr
    exact fun _ => ⟨_, List.mem_singleton_self _, hn⟩
  | skip hn h hs ih =>
    obtain ⟨hflag, hr⟩ := ih hp ha
    exact ⟨hflag, fun r ho hmark => hr r ho (hmark.imp_left (Has.of_cons (by simp [hn])))⟩
  | step hn hd hm hv hs ihv ihs =>
    obtain ⟨hp₁, hfr⟩ := hv.sane_frame hp
    obtain ⟨hflag₂, hr⟩ := ihs hp₁ (by rwa [hfr.affected])
    refine ⟨fun n hn => hflag₂ n ((ihv hp ha).1 n hn), fun r ho hmark => hr r ho ?_⟩
    exact hmark.imp (Has.of_cons (by simp [hn])) fun hacc => hacc.union
  | stop hn hd hm hv ih => exact ⟨(ih hp ha).1, nofun⟩

end Search

namespace Pointer

lemma Turns.flagged {halts : Bool} {p q : Pass} (h : k.Turns halts p q) (hp : k.Sane p)
    (ha : p.affected ≠ []) (hn : k.Flagged p.defs n) : k.Flagged q.defs n := by
  induction h with
  | refl => exact hn
  | tail hinit hlast ih =>
    obtain ⟨hq, hafter⟩ := Turns.sane_after hinit hp
    cases hlast with
    | reset ns ha' => exact ih.of_cache (by cases k <;> rfl)
    | drop hv => exact ih.of_cache (by cases k <;> rfl)
    | visit hs _ => exact (hs.flagged hq (by rwa [hafter.affected])).1 n ih

lemma Closing.flagged {ds : Definitions} {ok : Bool} {p : Pass} (h : k.Closing ds ok p)
    (hk : ds.Keyed) (hn : k.Flagged ds n) : k.Flagged p.defs n := by
  have hun : k.Flagged (k.unnoted ds) n := hn.of_cache (by rw [cache_unnoted])
  cases h with
  | first he _ _ _ =>
    obtain ⟨x, hx, -⟩ := hn
    rw [closure_of_none (Table.get?_eq_none_of_isEmpty he n)] at hx
    cases hx
  | idle _ _ => exact hun
  | later _ ha hm ht _ _ =>
    exact ht.flagged (hm.sane (keyed_unnoted hk) _) ha (hun.of_cache (by rw [hm.cache]))
  | refused _ hm _ => exact hun.of_cache (by rw [hm.cache])

end Pointer

/-! ### Sets in another order -/

/-- The same elements in another order. -/
structure PointSet.Rearranged (s t : PointSet) : Prop where
  names : s.names.Perm t.names
  scalars : s.scalars.Perm t.scalars

/-- Both tables have the same keys, with related values. -/
def Table.Related {κ β : Type} [BEq κ] (R : β → β → Prop) (t u : Table κ β) : Prop :=
  ∀ key, Option.Rel R (t.get? key) (u.get? key)

/-- The same definition, but the elements of its sets come in another order. -/
structure Definition.Rearranged (d e : Definition) : Prop where
  ns : e.ns = d.ns
  revision : e.revision = d.revision
  kind : e.kind = d.kind
  module : e.module = d.module
  change : e.change = d.change
  decorators : e.decorators = d.decorators
  posNames : e.name.posNames = d.name.posNames
  namePos : e.name.namePos = d.name.namePos
  points : d.name.points.Rearranged e.name.points
  args : Table.Related PointSet.Rearranged d.name.args e.name.args
  lits : d.lits.Perm e.lits
  taints : d.taints.Rearranged e.taints
  addedNames : d.addedNames.Rearranged e.addedNames
  addedTaints : d.addedTaints.Rearranged e.addedTaints

namespace Definitions

variable {ds ds' : Definitions}

/-- The same table, but the elements of its sets come in another order. -/
structure Rearranged (ds ds' : Definitions) : Prop where
  current : Table.Related Definition.Rearranged ds.current ds'.current
  retired : List.Forall₂ Definition.Rearranged ds.retired ds'.retired
  changedNames : ds.changedNames.Perm ds'.changedNames
  changedTaints : ds.changedTaints.Perm ds'.changedTaints
  closure : Table.Related List.Perm ds.closure ds'.closure
  reverseClosure : Table.Related List.Perm ds.reverseClosure ds'.reverseClosure
  taints : Table.Related List.Perm ds.taints ds'.taints
  reverseTaints : Table.Related List.Perm ds.reverseTaints ds'.reverseTaints

/-- One operation of a run, or another order of the sets for those that come next. -/
inductive Move : Definitions → Definitions → Prop where
  | op {ds : Definitions} (o : Op) : Move ds (o.run ds).2
  | rearrange {ds ds' : Definitions} (h : Rearranged ds ds') : Move ds ds'

lemma Rearranged.origin (h : Rearranged ds ds') {ns : String} {e : Definition}
    (he : ds'.get? ns = some e) : ∃ d, ds.get? ns = some d ∧ d.Rearranged e := by
  have hrel := h.current ns
  rw [show ds'.current.get? ns = some e from he] at hrel
  cases hd : ds.current.get? ns with
  | none =>
    rw [hd] at hrel
    cases hrel
  | some d =>
    rw [hd] at hrel
    cases hrel with
    | some hde => exact ⟨d, hd, hde⟩

lemma Rearranged.keyed (h : Rearranged ds ds') (hk : ds.Keyed) : ds'.Keyed := by
  intro ns e he
  obtain ⟨d, hd, hde⟩ := h.origin he
  rw [hde.ns]
  exact hk ns d hd

lemma Rearranged.flagged (h : Rearranged ds ds') (hn : Pointer.taints.Flagged ds n) :
    Pointer.taints.Flagged ds' n := by
  obtain ⟨x, hx, hm⟩ := hn
  have hrel := h.taints n
  have hcache : ∀ ds, Pointer.taints.closure ds n = (ds.taints.get? n).getD [] := fun _ => rfl
  rw [hcache] at hx
  refine ⟨x, ?_, hm⟩
  rw [hcache]
  generalize ds.taints.get? n = s at hx hrel
  generalize ds'.taints.get? n = t at hrel ⊢
  cases hrel with
  | some hperm => exact hperm.mem_iff.mp hx
  | none => exact hx

lemma Move.keeps (h : Move ds ds') (hk : ds.Keyed) :
    ds'.Keyed ∧ ∀ n, Pointer.taints.Flagged ds n → Pointer.taints.Flagged ds' n := by
  cases h with
  | op o =>
    refine Op.keeps true (I := fun e => e.Keyed ∧
        ∀ n, Pointer.taints.Flagged ds n → Pointer.taints.Flagged e n)
      (fun e h => h.1) ?_ ?_ (fun _ => rfl) ⟨hk, fun n hn => hn⟩
    · intro e e' hedit h
      exact ⟨h.1.edit hedit, fun n hn => (h.2 n hn).of_cache (by rw [cache_of_edit hedit])⟩
    · intro k e ok p _ hc h
      refine ⟨h.1.closing hc, fun n hn => ?_⟩
      cases k with
      | taints => exact hc.flagged h.1 (h.2 n hn)
      | names =>
        exact (h.2 n hn).of_cache (by rw [hc.other h.1 (j := .taints) nofun])
  | rearrange h => exact ⟨h.keyed hk, fun n hn => h.flagged hn⟩

lemma keeps_of_moves (h : ReflTransGen Move ds ds') (hk : ds.Keyed) :
    ds'.Keyed ∧ ∀ n, Pointer.taints.Flagged ds n → Pointer.taints.Flagged ds' n := by
  induction h with
  | refl => exact ⟨hk, fun n hn => hn⟩
  | tail _ hlast ih =>
    obtain ⟨hk', hstep⟩ := hlast.keeps ih.1
    exact ⟨hk', fun n hn => hstep n (ih.2 n hn)⟩

/-- Once the taints of a namespace hold the mark of a sink, they hold one in every later state. -/
theorem mark_stays {ds ds' : Definitions} (hds : ReflTransGen Move {} ds)
    (h : ReflTransGen Move ds ds') (d : String)
    (hm : ∃ x ∈ ds.taints.getD d [], isSinkMark x = true) :
    ∃ x ∈ ds'.taints.getD d [], isSinkMark x = true := by
  have hk : ds.Keyed := (keeps_of_moves hds nofun).1
  exact (keeps_of_moves h hk).2 d hm

lemma moves_run (ops : List Op) (ds : Definitions) : ReflTransGen Move ds (run ops ds) := by
  induction ops generalizing ds with
  | nil => exact .refl
  | cons op ops ih => exact .head (Move.op op) (ih _)

def flaggedOps : List Op :=
  [.var "a", .var "b", .addTaint { ns := "a" } (.str "Taint-Sink-s"), .closeNames, .closeTaints]

def replacingOps : List Op :=
  [.addTaint { ns := "a" } (.str "b"), .closeTaints, .assign "a" { ns := "b" } (some "m"),
    .addTaint { ns := "a", revision := 1 } (.str "b"), .closeNames, .closeTaints]

theorem mark_stays_replaced : (∃ x ∈ (run flaggedOps {}).taints.getD "a" [], isSinkMark x = true) ∧
      ∃ x ∈ (run replacingOps (run flaggedOps {})).taints.getD "a" [], isSinkMark x = true := by
  have hm : ∃ x ∈ (run flaggedOps {}).taints.getD "a" [], isSinkMark x = true := by decide +kernel
  exact ⟨hm, mark_stays (moves_run _ _) (moves_run _ _) "a" hm⟩

end Definitions

end SinkTrace
