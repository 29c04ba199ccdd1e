import SinkTrace.Proofs.Closure.Endings
import SinkTrace.Proofs.Closure.Marks

/-!
# Exact closures

Without cycles, the first computation gives every definition exactly its ends: the terminal
definitions that its names lead to, or itself if it points to nothing. A later computation goes
through the additions and the old closures in place of the pointers. If no pointer has changed in
between it comes to the same closures, whatever is noted down. The taints of a first computation
hold a mark exactly where a sink is reached.
-/

namespace SinkTrace

open Definitions Pointer Relation List

variable {base ds ds' : Definitions} {p : Pass}

namespace Pointer

variable {k : Pointer} {ds'' : Definitions}

/-! ### Tables with the same pointers -/

/-- Both tables have the same definitions, and these point to the same. -/
structure SamePointers (k : Pointer) (ds ds' : Definitions) : Prop where
  forth : k.Grows ds ds'
  back : k.Grows ds' ds
  isEmpty : ∀ a d e, ds.get? a = some d → ds'.get? a = some e →
    (k.pointer e).isEmpty = (k.pointer d).isEmpty

lemma SamePointers.trans (h : k.SamePointers ds ds') (h' : k.SamePointers ds' ds'') :
    k.SamePointers ds ds'' where
  forth := h.forth.trans h'.forth
  back := h'.back.trans h.back
  isEmpty a d f hd hf := by
    obtain ⟨e, he, -⟩ := h.forth a d hd
    rw [h'.isEmpty a e f he hf, h.isEmpty a d e hd he]

lemma SamePointers.edge_eq (h : k.SamePointers ds ds') : k.Edge ds' = k.Edge ds := by
  funext a b
  exact propext ⟨Edge.mono h.back, Edge.mono h.forth⟩

lemma SamePointers.contains (h : k.SamePointers ds ds') (a : String) :
    ds'.contains a = ds.contains a := Bool.eq_iff_iff.mpr ⟨h.back.contains, h.forth.contains⟩

lemma SamePointers.leaks_iff (h : taints.SamePointers ds ds') {a : String} :
    ds'.Leaks a ↔ ds.Leaks a := by
  rw [← hits_taints, ← hits_taints]
  exact exists_congr fun m => and_congr_right fun _ => ⟨Reaches.mono h.back, Reaches.mono h.forth⟩

lemma Closing.samePointers {j : Pointer} {ok : Bool} {p : Pass} (h : j.Closing ds ok p)
    (hk : ds.Keyed) (k : Pointer) : k.SamePointers ds p.defs where
  forth := h.grows hk k
  back := h.shrinks hk k
  isEmpty a d e hd he := by
    obtain ⟨d', hd', halike⟩ := h.alike hk he
    obtain rfl := Option.some.inj (hd.symm.trans hd')
    rw [halike.pointer k]

end Pointer

/-! ### Sets in another order -/

lemma PointSet.Rearranged.isEmpty {s t : PointSet} (h : s.Rearranged t) :
    t.isEmpty = s.isEmpty := by
  have hnil : ∀ {α : Type} {xs ys : List α}, xs.Perm ys → (ys = [] ↔ xs = []) :=
    fun hperm => ⟨fun hy => (hy ▸ hperm).eq_nil, fun hx => (hx ▸ hperm).symm.eq_nil⟩
  rw [Bool.eq_iff_iff]
  simp [PointSet.isEmpty, hnil h.names, hnil h.scalars]

lemma PointSet.rearranged_refl (s : PointSet) : s.Rearranged s := ⟨Perm.refl _, Perm.refl _⟩

lemma Table.related_refl {κ β : Type} [BEq κ] {R : β → β → Prop} (h : ∀ b, R b b)
    {t : Table κ β} : Table.Related R t t := by
  intro key
  cases t.get? key with
  | none => exact Option.Rel.none
  | some b => exact Option.Rel.some (h b)

lemma Definition.rearranged_refl (d : Definition) : d.Rearranged d where
  ns := rfl
  revision := rfl
  kind := rfl
  module := rfl
  change := rfl
  decorators := rfl
  posNames := rfl
  namePos := rfl
  points := PointSet.rearranged_refl _
  args := Table.related_refl PointSet.rearranged_refl
  lits := Perm.refl _
  taints := PointSet.rearranged_refl _
  addedNames := PointSet.rearranged_refl _
  addedTaints := PointSet.rearranged_refl _

lemma Definition.Rearranged.pointer {d e : Definition} (h : d.Rearranged e) {k : Pointer} :
    (k.pointer d).Rearranged (k.pointer e) := by
  cases k
  · exact h.points
  · exact h.taints

lemma Definition.Rearranged.tidy {d e : Definition} (h : d.Rearranged e) (hd : d.Tidy) :
    e.Tidy where
  addedNames_sub x hx := h.points.names.mem_iff.mp
    (hd.addedNames_sub x (h.addedNames.names.mem_iff.mpr hx))
  addedTaints_sub x hx := h.taints.names.mem_iff.mp
    (hd.addedTaints_sub x (h.addedTaints.names.mem_iff.mpr hx))
  addedTaints_names hnil := by
    have hscalars : d.taints.scalars = [] := (hnil ▸ h.taints.scalars).eq_nil
    exact (hd.addedTaints_names hscalars ▸ h.addedTaints.scalars).symm.eq_nil

namespace Definitions

variable {d : Definition} {a m ns x : String}

lemma rearranged_refl (ds : Definitions) : Rearranged ds ds where
  current := Table.related_refl Definition.rearranged_refl
  retired := forall₂_same.mpr fun d _ => d.rearranged_refl
  changedNames := Perm.refl _
  changedTaints := Perm.refl _
  closure := Table.related_refl Perm.refl
  reverseClosure := Table.related_refl Perm.refl
  taints := Table.related_refl Perm.refl
  reverseTaints := Table.related_refl Perm.refl

lemma Rearranged.kept (h : Rearranged ds ds') (hd : ds.get? a = some d) :
    ∃ e, ds'.get? a = some e ∧ d.Rearranged e := by
  have hrel := h.current a
  rw [show ds.current.get? a = some d from hd] at hrel
  cases he : ds'.current.get? a with
  | none =>
    rw [he] at hrel
    cases hrel
  | some e =>
    rw [he] at hrel
    cases hrel with
    | some hde => exact ⟨e, he, hde⟩

lemma Rearranged.wellFormed (h : Rearranged ds ds') (hwf : ds.WellFormed) : ds'.WellFormed where
  keyed := h.keyed hwf.keyed
  tidy a e he := by
    obtain ⟨d, hd, hde⟩ := h.origin he
    exact hde.tidy (hwf.tidy a d hd)

lemma Rearranged.samePointers (h : Rearranged ds ds') (k : Pointer) : k.SamePointers ds ds' where
  forth a d hd := by
    obtain ⟨e, he, hde⟩ := h.kept hd
    exact ⟨e, he, fun x hx => hde.pointer.names.mem_iff.mp hx⟩
  back a e he := by
    obtain ⟨d, hd, hde⟩ := h.origin he
    exact ⟨d, hd, fun x hx => hde.pointer.names.mem_iff.mpr hx⟩
  isEmpty a d e hd he := by
    obtain ⟨d', hd', hde⟩ := h.origin he
    obtain rfl := Option.some.inj (hd.symm.trans hd')
    exact hde.pointer.isEmpty

/-! ### Ends -/

/-- A terminal definition that the names of `a` lead to, or `a` itself if it points to nothing. -/
def IsEnd (ds : Definitions) (a x : String) : Prop :=
  ds.Terminal x ∧ TransGen (Pointer.names.Edge ds) a x ∨
    x = a ∧ ∃ d, ds.get? a = some d ∧ d.name.points.isEmpty = true

/-- Every definition of `base` has exactly its ends as its closure. -/
structure Exact (base ds : Definitions) : Prop where
  ends : ∀ a, base.contains a = true →
    ∃ xs, ds.closure.get? a = some xs ∧ ∀ x, x ∈ xs ↔ base.IsEnd a x
  undefined : ∀ a, base.contains a = false → ds.closure.get? a = none

/-- Every definition that points to another one has an end. -/
def Ending (ds : Definitions) : Prop := ∀ a b, Pointer.names.Edge ds a b → ∃ x, ds.IsEnd a x

lemma Exact.mem_iff (h : base.Exact ds) (ha : base.contains a) :
    x ∈ names.closure ds a ↔ base.IsEnd a x := by
  obtain ⟨xs, hxs, hmem⟩ := h.ends a ha
  rw [closure_of_cache (k := .names) hxs, hmem x]

lemma not_transGen_of_terminal (h : ∀ b, ¬ names.Edge ds a b) : ¬ TransGen (names.Edge ds) a x := by
  intro hax
  obtain ⟨b, hab, -⟩ := TransGen.head'_iff.mp hax
  exact h b hab

lemma isEnd_of_edge {b : String} (hab : names.Edge ds a b) :
    ds.IsEnd a x ↔ ds.Terminal x ∧ TransGen (names.Edge ds) a x := by
  refine or_iff_left ?_
  rintro ⟨-, d, hd, he⟩
  have hne : d.name.points.isEmpty = false :=
    pointer_of_hits (k := .names) (c := fun _ => True) (grows_refl _ ds) hd
      ⟨b, trivial, reaches_names_iff.mpr (.single hab)⟩
  rw [hne] at he
  cases he

lemma isEnd_of_terminal (h : ∀ b, ¬ names.Edge ds a b) :
    ds.IsEnd a x ↔ x = a ∧ ∃ d, ds.get? a = some d ∧ d.name.points.isEmpty :=
  or_iff_right fun hx => not_transGen_of_terminal h hx.2

lemma exact_closeNames (hwf : ds.WellFormed) (he : ds.closure.isEmpty)
    (hacyclic : names.Acyclic ds) : ds.Exact (closeNames ds) ∧ ds.Ending := by
  obtain ⟨rank, h⟩ := ordered_closeNames hwf he
  have hexact : ds.Exact (closeNames ds) := by
    refine ⟨fun a ha => ?_, h.undefined⟩
    obtain ⟨d, hd⟩ := contains_iff.mp ha
    obtain ⟨xs, hxs, hmem⟩ := h.formed a d hd
    refine ⟨xs, hxs, fun x => ?_⟩
    by_cases hb : ∃ b, names.Edge ds a b
    · obtain ⟨b, hab⟩ := hb
      rw [← closure_of_cache (k := .names) hxs, h.mem_closure_iff hab, isEnd_of_edge hab]
      constructor
      · rintro ⟨c, hac, hcx, hend⟩
        refine ⟨hend.resolve_right (Nat.not_le_of_lt (h.lt hacyclic hcx)), ?_⟩
        exact .tail' (ReflTransGen.mono (fun _ _ hf => hf.1) _ _ hac) hcx
      · rintro ⟨hx, hax⟩
        obtain ⟨c, hac, hcx⟩ := TransGen.tail'_iff.mp hax
        refine ⟨c, ReflTransGen.mono (fun u v huv => ⟨huv, ?_⟩) _ _ hac, hcx, .inl hx⟩
        exact h.lt hacyclic huv
    · rw [not_exists] at hb
      rw [hmem x, isEnd_of_terminal hb]
      simp [hb, hd]
  refine ⟨hexact, fun a b hab => ?_⟩
  obtain ⟨x, hx⟩ := exists_mem_of_ne_nil _ (h.closure_ne_nil hab)
  exact ⟨x, (hexact.mem_iff hab.contains).mp hx⟩

lemma IsEnd.terminal (h : ds.IsEnd a x) : ds.Terminal x := by
  rcases h with ⟨hx, -⟩ | ⟨rfl, d, hd, he⟩
  · exact hx
  · refine ⟨contains_of_get? hd, fun b hb => ?_⟩
    obtain ⟨hx, -⟩ := (isEnd_of_edge hb).mp (.inr ⟨rfl, d, hd, he⟩)
    exact hx.2 b hb

/-! ### Later computations -/

/-- `x` is what `m` stands for in a closure: `m` itself if it is terminal, or one of its ends. -/
def StandsFor (ds : Definitions) (m x : String) : Prop :=
  x = m ∧ ds.Terminal m ∨ ds.Terminal x ∧ TransGen (Pointer.names.Edge ds) m x

lemma StandsFor.eq (h : ds.StandsFor m x) (hm : ds.Terminal m) : x = m := by
  rcases h with ⟨rfl, -⟩ | ⟨-, hmx⟩
  · rfl
  · exact absurd hmx (not_transGen_of_terminal hm.2)

lemma mem_share_iff {items : Names} (hends : ds.Ending) (hm : ds.contains m)
    (hitems : ∀ y, y ∈ items ↔ ds.IsEnd m y) : x ∈ share items m ↔ ds.StandsFor m x := by
  by_cases hb : ∃ b, names.Edge ds m b
  · obtain ⟨b, hmb⟩ := hb
    obtain ⟨y, hy⟩ := hends m b hmb
    have hne : items ≠ [] := ne_nil_of_mem ((hitems y).mpr hy)
    rw [share, if_neg (by simpa using hne), hitems x, isEnd_of_edge hmb]
    exact (or_iff_right fun hx => hx.2.2 b hmb).symm
  · rw [not_exists] at hb
    have hself : ∀ y ∈ items, y = m := fun y hy =>
      ((isEnd_of_terminal hb).mp ((hitems y).mp hy)).1
    rw [StandsFor, or_iff_left fun hx => not_transGen_of_terminal hb hx.2, Terminal,
      and_iff_left ⟨hm, hb⟩]
    exact mem_share_self hself

/-- What following names comes to: no end is left out, and nothing is added but what they stand
for. -/
structure Refinds (base : Definitions) (ns acc r : Names) : Prop where
  keeps : ∀ x ∈ acc, x ∈ r
  finds : ∀ m ∈ ns, base.Terminal m → m ∈ r
  only : ∀ x ∈ r, x ∈ acc ∨ ∃ m ∈ ns, base.contains m = true ∧ base.StandsFor m x

/-- A later computation under way, in a table whose closures are exact. -/
structure Steady (base : Definitions) (p : Pass) : Prop where
  ready : Pointer.names.Ready base p
  later : p.affected ≠ []
  same : Pointer.names.SamePointers base p.defs
  exact : base.Exact p.defs

lemma Steady.frame {q : Pass} (h : Steady base p) (hf : names.Frame p q)
    (hq : names.Ready base q) (hx : base.Exact q.defs) : Steady base q where
  ready := hq
  later := hf.affected ▸ h.later
  same := by
    refine ⟨hq.back, hq.fits.grows, fun a d f hd hget => ?_⟩
    obtain ⟨e, he, hfades⟩ := hf.fades a f hget
    rw [hfades.pointer, h.same.isEmpty a d e hd he]
  exact := hx

lemma Exact.of_cache (h : base.Exact ds)
    (hc : ∀ a, ds'.closure.get? a = ds.closure.get? a ∨ base.contains a ∧
      ∃ xs, ds'.closure.get? a = some xs ∧ ∀ x, x ∈ xs ↔ base.IsEnd a x) :
    base.Exact ds' := by
  refine ⟨fun a ha => ?_, fun a ha => ?_⟩
  · rcases hc a with hold | ⟨-, hnew⟩
    · rw [hold]
      exact h.ends a ha
    · exact hnew
  · rcases hc a with hold | ⟨hdef, -⟩
    · rw [hold]
      exact h.undefined a ha
    · rw [hdef] at ha
      cases ha

lemma Exact.sound (h : base.Exact ds) : names.Sound base ds := by
  intro a x hx
  cases hdef : base.contains a with
  | false =>
    rw [closure_of_none (k := .names) (h.undefined a hdef)] at hx
    cases hx
  | true =>
    rcases (h.mem_iff hdef).mp hx with ⟨-, hax⟩ | ⟨rfl, -⟩
    · exact .inr (reaches_names_iff.mpr hax)
    · exact .inl rfl

section Steady

variable (h : Steady base p)

include h

lemma Steady.mem_start (hd : p.defs.get? ns = some d) :
    x ∈ Pointer.names.start d ↔ x = ns ∧ ∃ e, base.get? ns = some e ∧ e.name.points.isEmpty := by
  obtain ⟨e, he, -⟩ := h.same.back ns d hd
  have hempty : d.name.points.isEmpty = e.name.points.isEmpty := h.same.isEmpty ns e d he hd
  rw [Pointer.mem_start (h.ready.sane.keyed ns d hd), hempty]
  simp [he]

lemma Steady.enter (hd : p.defs.get? ns = some d) (hns : ns ∉ p.visited) :
    Steady base (names.enter p ns (names.start d)) := by
  refine h.frame (frame_enter hns) (h.ready.enter hd hns) (h.exact.of_cache fun a => ?_)
  have hdef := h.ready.fits.grows.contains (contains_of_get? hd)
  rw [show ∀ ds : Definitions, ds.closure = names.cache ds from fun _ => rfl, cache_enter]
  split_ifs with hc
  · obtain ⟨rfl, hnil⟩ := hc
    refine .inr ⟨hdef, _, rfl, fun x => ⟨fun hx => .inr ((h.mem_start hd).mp hx), fun hx => ?_⟩⟩
    -- an empty closure that is exact has no end
    rw [← h.exact.mem_iff hdef, hnil] at hx
    cases hx
  · exact .inl rfl

lemma Steady.settle (hns : ns ∈ p.visited) : Steady base (names.settle p ns) := by
  refine h.frame (frame_settle hns) (h.ready.settle hns) (h.exact.of_cache fun a => .inl ?_)
  exact congrArg (Table.get? · a) (cache_settle (k := .names))

lemma Steady.isEnd_rest (hd : p.defs.get? ns = some d)
    (hx : x ∈ names.rest p d) : base.IsEnd ns x := by
  have hns := h.ready.sane.keyed ns d hd
  have hdef := h.ready.fits.grows.contains (contains_of_get? hd)
  have hheld : x ∈ names.held p d := by
    simp only [rest, List.isEmpty_iff, h.later, if_false, Names.mem_diff] at hx
    exact hx.1
  unfold held at hheld
  split_ifs at hheld
  · exact .inr ((h.mem_start hd).mp hheld)
  · rw [hns] at hheld
    exact (h.exact.mem_iff hdef).mp hheld

lemma Steady.mem_result (hd : p.defs.get? ns = some d) {found result : Names}
    (hfound : Refinds base (names.fresh p d).names (names.start d) found)
    (hresult : Refinds base (names.rest p d) found result) (x : String) :
    x ∈ result ↔ base.IsEnd ns x := by
  constructor
  · intro hx
    rcases hresult.only x hx with hx | ⟨m, hm, -, hmx⟩
    · rcases hfound.only x hx with hx | ⟨m, hm, hdef, hmx⟩
      · exact .inr ((h.mem_start hd).mp hx)
      · obtain ⟨e, he, hsub⟩ := h.ready.fits.grows ns d hd
        have hedge : names.Edge base ns m :=
          ⟨⟨e, he, hsub m (fresh_sub (h.ready.fits.tidy ns d hd) p m hm)⟩, hdef⟩
        rcases hmx with ⟨rfl, hterm⟩ | ⟨hterm, hmx⟩
        · exact .inl ⟨hterm, .single hedge⟩
        · exact .inl ⟨hterm, .head hedge hmx⟩
    · have hend := h.isEnd_rest hd hm
      exact hmx.eq hend.terminal ▸ hend
  · intro hend
    have hx := (h.exact.mem_iff (h.ready.fits.grows.contains (contains_of_get? hd))).mpr hend
    -- what the old closure holds is among the additions or in the rest
    by_cases hadd : x ∈ (names.added d).names
    · refine hresult.keeps x (hfound.finds x ?_ hend.terminal)
      rwa [fresh_of_later h.later]
    · refine hresult.finds x ?_ hend.terminal
      rw [← h.ready.sane.keyed ns d hd] at hx
      have hne := ne_nil_of_mem hx
      simpa [rest, h.later, held, hne] using ⟨hx, hadd⟩

end Steady

end Definitions

namespace Search

variable {q : Pass} {t : Task} {o : Option Names}

/-- What a search comes to where all closures are exact. -/
def Refound (base : Definitions) (r : Names) : Task → Prop
  | .visit ns => base.contains ns = true → ∀ x, x ∈ r ↔ base.IsEnd ns x
  | .follow me ns acc => me = none → Refinds base ns acc r

lemma steady (h : Search .names p t o q) (hends : base.Ending) (hp : Steady base p) :
    Steady base q ∧ ∀ r, o = some r → Refound base r t := by
  induction h with
  | absent hd =>
    refine ⟨hp, fun r hr hdef => ?_⟩
    obtain ⟨d, hd'⟩ := contains_iff.mp ((hp.ready.contains _).trans hdef)
    rw [hd] at hd'
    cases hd'
  | known hd hknown hc =>
    refine ⟨hp, fun r hr hdef x => ?_⟩
    cases hr
    rw [← hp.exact.mem_iff hdef, closure_of_cache hknown]
  | @close p p₁ p₂ ns d found result hd ho hf hr hs ihf ihs =>
    have hop := hp.ready.sane.opening hd ho hf.sane_frame
    have hfr₂ := (hs.sane_frame hop.sane_settle).2
    obtain ⟨hp₁, hfound⟩ := ihf (hp.enter hd hop.not_visited)
    obtain ⟨hp₂, hresult⟩ := ihs (hp₁.settle hop.visited)
    have hmem := hp.mem_result hd (hfound found rfl rfl) (hresult result rfl rfl)
    refine ⟨?_, fun r hr _ x => ?_⟩
    · refine hp.frame ((hop.frame_rest hfr₂).store hop.not_visited (hop.visited_rest hfr₂))
        ((Search.close hd ho hf hr hs).ready hp.ready) (hp₂.exact.of_cache fun a => ?_)
      rw [show ∀ ds : Definitions, ds.closure = names.cache ds from fun _ => rfl, cache_store]
      split_ifs with hns
      · subst hns
        exact .inr ⟨hp.ready.fits.grows.contains (contains_of_get? hd), result, rfl, hmem⟩
      · exact .inl rfl
    · cases hr
      exact hmem x
  | stopFresh hd ho hf hr ihf =>
    have hop := hp.ready.sane.opening hd ho hf.sane_frame
    exact ⟨(ihf (hp.enter hd hop.not_visited)).1, nofun⟩
  | stopRest hd ho hf hs ihf ihs =>
    have hop := hp.ready.sane.opening hd ho hf.sane_frame
    exact ⟨(ihs ((ihf (hp.enter hd hop.not_visited)).1.settle hop.visited)).1, nofun⟩
  | nil =>
    refine ⟨hp, fun r hr => ?_⟩
    cases hr
    exact fun _ => ⟨fun x hx => hx, nofun, fun x hx => .inl hx⟩
  | mark hn => cases hn
  | @skip p q self n ns acc o hn hskip hs ih =>
    obtain ⟨hq, hfound⟩ := ih hp
    refine ⟨hq, fun r hr hme => ?_⟩
    have hns := hfound r hr hme
    refine ⟨hns.keeps, fun m hm hterm => ?_, fun x hx => ?_⟩
    · rcases mem_cons.mp hm with rfl | hm
      · rcases hskip with hnone | ⟨-, hacc | hself⟩
        · rw [hp.ready.contains, hterm.1] at hnone
          cases hnone
        · exact hns.keeps m hacc
        · cases hme.symm.trans hself
      · exact hns.finds m hm hterm
    · obtain hx | ⟨m, hm, hrest⟩ := hns.only x hx
      · exact .inl hx
      · exact .inr ⟨m, mem_cons_of_mem n hm, hrest⟩
  | @step p p₁ q self n ns acc items o hn hdef hm hv hs ihv ihs =>
    obtain ⟨hp₁, hitems⟩ := ihv hp
    obtain ⟨hq, hfound⟩ := ihs hp₁
    have hdef' : base.contains n := (hp.ready.contains n).symm.trans hdef
    have hshare : ∀ x, x ∈ share items n ↔ base.StandsFor n x :=
      fun x => mem_share_iff hends hdef' (hitems items rfl hdef')
    refine ⟨hq, fun r hr hme => ?_⟩
    have hns := hfound r hr hme
    refine ⟨fun x hx => hns.keeps x (Names.mem_union.mpr (.inl hx)), fun m hm hterm => ?_,
      fun x hx => ?_⟩
    · rcases mem_cons.mp hm with rfl | hm
      · exact hns.keeps m (Names.mem_union.mpr (.inr ((hshare m).mpr (.inl ⟨rfl, hterm⟩))))
      · exact hns.finds m hm hterm
    · rcases hns.only x hx with hx | ⟨m, hm, hrest⟩
      · rcases Names.mem_union.mp hx with hx | hx
        · exact .inl hx
        · exact .inr ⟨n, mem_cons_self, hdef', (hshare x).mp hx⟩
      · exact .inr ⟨m, mem_cons_of_mem n hm, hrest⟩
  | stop hn hd hm hv ih => exact ⟨(ih hp).1, nofun⟩

end Search

namespace Pointer

/-! ### Computations that are repeated -/

lemma Turns.steady {base : Definitions} {halts : Bool} {p q : Pass}
    (h : names.Turns halts p q) (hends : base.Ending) (hp : Steady base p) :
    Steady base q := by
  induction h with
  | refl => exact hp
  | @tail q r _ hlast ih =>
    cases hlast with
    | reset ns ha => exact absurd ha ih.later
    | @drop ns hv =>
      have hturn : names.Turn halts q _ := Turn.drop hv
      exact ih.frame (hturn.frame ih.later ih.ready.sane) (Turns.ready (.single hturn) ih.ready)
        (ih.exact.of_cache fun _ => .inl rfl)
    | visit hs _ => exact (hs.steady hends ih).1

section SamePointers

variable (h : names.SamePointers ds ds')

include h

lemma SamePointers.terminal_iff {t : String} : ds'.Terminal t ↔ ds.Terminal t := by
  rw [Terminal, Terminal, h.edge_eq, h.contains]

lemma SamePointers.isEnd_iff {a x : String} : ds'.IsEnd a x ↔ ds.IsEnd a x := by
  have hempty : (∃ e, ds'.get? a = some e ∧ e.name.points.isEmpty) ↔
      ∃ d, ds.get? a = some d ∧ d.name.points.isEmpty := by
    constructor
    · rintro ⟨e, he, hempty⟩
      obtain ⟨d, hd, -⟩ := h.back a e he
      exact ⟨d, hd, (h.isEmpty a d e hd he).symm.trans hempty⟩
    · rintro ⟨d, hd, hempty⟩
      obtain ⟨e, he, -⟩ := h.forth a d hd
      exact ⟨e, he, (h.isEmpty a d e hd he).trans hempty⟩
  rw [IsEnd, IsEnd, h.terminal_iff, h.edge_eq, hempty]

lemma SamePointers.exact_iff {closed : Definitions} : ds'.Exact closed ↔ ds.Exact closed := by
  constructor
  · rintro ⟨hends, hundef⟩
    simp only [h.contains, h.isEnd_iff] at hends hundef
    exact ⟨hends, hundef⟩
  · rintro ⟨hends, hundef⟩
    simp only [← h.contains, ← h.isEnd_iff] at hends hundef
    exact ⟨hends, hundef⟩

lemma SamePointers.ending (hends : ds.Ending) :
    ds'.Ending := by
  intro a b hab
  rw [h.edge_eq] at hab
  obtain ⟨x, hx⟩ := hends a b hab
  exact ⟨x, h.isEnd_iff.mpr hx⟩

end SamePointers

end Pointer

namespace Definitions

/-- A computation, or another order of the sets for the next one. -/
inductive Repetition : Definitions → Definitions → Prop where
  | names (ds : Definitions) : Repetition ds (closeNames ds)
  | taints (ds : Definitions) : Repetition ds (closeTaints ds).2
  | rearrange {ds ds' : Definitions} (h : Rearranged ds ds') : Repetition ds ds'

/-- A table with the pointers of `base` and with exact closures. -/
structure Precise (base ds : Definitions) : Prop where
  wellFormed : ds.WellFormed
  same : Pointer.names.SamePointers base ds
  exact : base.Exact ds

lemma steady_marked (hwf : ds.WellFormed) (hx : ds.Exact ds) {ns : Names}
    (hm : names.Marked ns (names.unnoted ds) ds') {affected : Names}
    (ha : affected ≠ []) : Steady ds { defs := ds', affected } := by
  have hready := ready_marked hwf hx.sound hm affected
  refine ⟨hready, ha, ⟨hready.back, hready.fits.grows, fun a d e hd he => ?_⟩,
    hx.of_cache fun a => .inl ?_⟩
  · obtain ⟨d', hd', halike, -⟩ := hm.origin he
    obtain rfl := Option.some.inj (hd.symm.trans hd')
    rw [halike.pointer]
  · exact congrArg (Table.get? · a) ((hm.cache .names).trans cache_unnoted)

lemma Precise.closing (h : Precise base ds) (hends : base.Ending) {p : Pass}
    (hc : names.Closing ds true p) : Precise base p.defs := by
  have hk := h.wellFormed.keyed
  refine ⟨h.wellFormed.closing hc, h.same.trans (hc.samePointers hk .names), ?_⟩
  cases hc with
  | first he ht _ _ =>
    -- there is nothing to visit
    have hkeys : ds.current.keys = [] := by
      rw [eq_nil_iff_forall_not_mem]
      intro a ha
      have hdef := (h.same.contains a).symm.trans (Table.mem_keys_iff.mp ha)
      obtain ⟨xs, hxs, -⟩ := h.exact.ends a hdef
      cases hxs.symm.trans (Table.get?_eq_none_of_isEmpty he a)
    refine h.exact.of_cache fun a => .inl ?_
    exact congrArg (Table.get? · a) (ht.cache_of_empty hkeys)
  | idle _ _ => exact h.exact.of_cache fun _ => .inl rfl
  | later _ ha hm ht _ _ =>
    have hstart := steady_marked h.wellFormed (h.same.exact_iff.mpr h.exact) hm ha
    exact h.same.exact_iff.mp (ht.steady (h.same.ending hends) hstart).exact

lemma Rearranged.exact (h : Rearranged ds ds') (hx : base.Exact ds) : base.Exact ds' := by
  refine ⟨fun a ha => ?_, fun a ha => ?_⟩
  · obtain ⟨xs, hxs, hmem⟩ := hx.ends a ha
    have hrel := h.closure a
    rw [hxs] at hrel
    cases hys : ds'.closure.get? a with
    | none =>
      rw [hys] at hrel
      cases hrel
    | some ys =>
      rw [hys] at hrel
      cases hrel with
      | some hperm => exact ⟨ys, rfl, fun x => hperm.mem_iff.symm.trans (hmem x)⟩
  · have hrel := h.closure a
    rw [hx.undefined a ha] at hrel
    cases hys : ds'.closure.get? a with
    | none => rfl
    | some ys =>
      rw [hys] at hrel
      cases hrel

lemma Precise.repetition (h : Precise base ds) (hends : base.Ending)
    (hr : Repetition ds ds') : Precise base ds' := by
  have hk := h.wellFormed.keyed
  cases hr with
  | names =>
    obtain ⟨p, hc, heq⟩ := closing_closeNames hk
    rw [heq]
    exact h.closing hends hc
  | taints =>
    obtain ⟨ok, p, hc, heq, -⟩ := closing_closeTaints hk
    rw [heq]
    refine ⟨h.wellFormed.closing hc, h.same.trans (hc.samePointers hk .names), ?_⟩
    refine h.exact.of_cache fun a => .inl ?_
    exact congrArg (Table.get? · a) (hc.other hk (j := .names) nofun)
  | rearrange hr => exact ⟨hr.wellFormed h.wellFormed, h.same.trans (hr.samePointers .names),
      hr.exact h.exact⟩

lemma Precise.repetitions (h : Precise base ds) (hends : base.Ending)
    (hr : ReflTransGen Repetition ds ds') : Precise base ds' := by
  induction hr with
  | refl => exact h
  | tail _ hlast ih => exact ih.repetition hends hlast

lemma Exact.related {closed closed' : Definitions} (h : base.Exact closed)
    (h' : base.Exact closed') :
    Table.Related (fun xs ys => ∀ x, x ∈ xs ↔ x ∈ ys) closed.closure closed'.closure := by
  intro a
  cases hdef : base.contains a with
  | false =>
    rw [h.undefined a hdef, h'.undefined a hdef]
    exact Option.Rel.none
  | true =>
    obtain ⟨xs, hxs, hmem⟩ := h.ends a hdef
    obtain ⟨ys, hys, hmem'⟩ := h'.ends a hdef
    rw [hxs, hys]
    exact Option.Rel.some fun x => (hmem x).trans (hmem' x).symm

/-- The first computation in a table without cycles gives every definition a closure: exactly the
terminal definitions that its names lead to, or itself if it points to nothing. Later computations,
in whatever order the sets are gone through, leave these closures as they are. -/
theorem first_closure_exact {ds : Definitions} (hwf : ds.WellFormed)
    (he : ds.closure.isEmpty = true) (hacyclic : Pointer.names.Acyclic ds) :
    (∀ a d, ds.get? a = some d → ∃ xs, (closeNames ds).closure.get? a = some xs ∧
      ((∃ b, Pointer.names.Edge ds a b) →
        ∀ x, x ∈ xs ↔ ds.Terminal x ∧ TransGen (Pointer.names.Edge ds) a x) ∧
      (d.name.points.isEmpty = true → ∀ x, x ∈ xs ↔ x = a) ∧
      (d.name.points.isEmpty = false → (∀ b, ¬ Pointer.names.Edge ds a b) → xs = [])) ∧
    (∀ a, ds.contains a = false → (closeNames ds).closure.get? a = none) ∧
    ∀ ds', ReflTransGen Repetition (closeNames ds) ds' →
      Table.Related (fun xs ys => ∀ x, x ∈ xs ↔ x ∈ ys) (closeNames ds).closure ds'.closure := by
  obtain ⟨hexact, hends⟩ := exact_closeNames hwf he hacyclic
  refine ⟨fun a d hd => ?_, hexact.undefined, fun _ hr => ?_⟩
  · obtain ⟨xs, hxs, hmem⟩ := hexact.ends a (contains_of_get? hd)
    have hself : (∀ b, ¬ Pointer.names.Edge ds a b) →
        ∀ x, x ∈ xs ↔ x = a ∧ d.name.points.isEmpty = true := by
      intro hb x
      rw [hmem x, isEnd_of_terminal hb]
      simp [hd]
    refine ⟨xs, hxs, ?_, fun hempty x => ?_, fun hne hb => ?_⟩
    · rintro ⟨b, hab⟩ x
      rw [hmem x, isEnd_of_edge hab]
    · have hterm : ds.Terminal a := IsEnd.terminal (.inr ⟨rfl, d, hd, hempty⟩)
      rw [hself hterm.2 x, and_iff_left hempty]
    · refine List.eq_nil_iff_forall_not_mem.mpr fun x hx => ?_
      rw [hself hb x, hne] at hx
      cases hx.2
  · obtain ⟨p, hc, heq⟩ := closing_closeNames hwf.keyed
    have hprecise : Precise ds (closeNames ds) := by
      refine ⟨?_, ?_, hexact⟩
      · rw [heq]
        exact hwf.closing hc
      · rw [heq]
        exact hc.samePointers hwf.keyed .names
    exact hexact.related (hprecise.repetitions hends hr).exact

/-- A chain of names, with changes that are noted down and not taken in. -/
def chainOps : List Op :=
  [.var "a", .var "b", .var "c", .var "e",
    .addName { ns := "a" } (.str "b"), .addName { ns := "a" } (.str "e"),
    .addName { ns := "b" } (.str "c"), .addName { ns := "e" } (.str "nowhere")]

/-- The two ends of the chain stay when its closures are computed again. -/
theorem first_closure_exact_chain :
    Pointer.names.Acyclic (run chainOps {}) ∧ (run chainOps {}).closure.isEmpty = true ∧
      (∃ xs, (closeNames (run chainOps {})).closure.get? "a" = some xs ∧ ∀ x, x ∈ xs ↔
        (run chainOps {}).Terminal x ∧ TransGen (Pointer.names.Edge (run chainOps {})) "a" x) ∧
      affectedByNames (closeNames (run chainOps {})) ≠ [] ∧
      Table.Related (fun xs ys => ∀ x, x ∈ xs ↔ x ∈ ys) (closeNames (run chainOps {})).closure
        (closeNames (closeNames (run chainOps {}))).closure := by
  have hacyclic : Pointer.names.Acyclic (run chainOps {}) :=
    acyclic_of_rank (fun x => if x = "a" then 0 else if x = "b" then 1 else if x = "e" then 1
      else 2)
      (by decide +kernel)
  have he : (run chainOps {}).closure.isEmpty = true := by decide +kernel
  obtain ⟨hclosure, -, hagain⟩ := first_closure_exact (listed_run chainOps).1 he hacyclic
  refine ⟨hacyclic, he, ?_, by decide +kernel, hagain _ (ReflTransGen.single (Repetition.names _))⟩
  obtain ⟨d, hd⟩ := contains_iff.mp (show (run chainOps {}).contains "a" = true by decide +kernel)
  obtain ⟨xs, hxs, hends, -⟩ := hclosure "a" d hd
  exact ⟨xs, hxs, hends ⟨"b", by decide +kernel⟩⟩

/-! ### Marks -/

lemma Rearranged.taints_isEmpty (h : Rearranged ds ds') (he : ds.taints.isEmpty) :
    ds'.taints.isEmpty := by
  by_contra hne
  obtain ⟨a, xs, hxs⟩ := Table.exists_get?_of_isEmpty (Bool.eq_false_iff.mpr hne)
  have hrel := h.taints a
  rw [Table.get?_eq_none_of_isEmpty he, hxs] at hrel
  cases hrel

/-- Without cycles, the first computation finds a mark exactly where the taints lead to one. -/
lemma hasMark_closeTaints_iff (hwf : ds.WellFormed) (he : ds.taints.isEmpty)
    (hmarks : ∀ a, ds.contains a → isSinkMark a = false)
    (hacyclic : Pointer.taints.Acyclic ds) (hok : (closeTaints ds).1 = .ok ()) {a : String}
    (ha : ds.contains a) :
    (∃ m ∈ (closeTaints ds).2.taints.getD a [], isSinkMark m) ↔ ds.Leaks a := by
  have hs : Pointer.taints.Sound ds ds := by
    intro a x hx
    rw [closure_of_none (k := .taints) (Table.get?_eq_none_of_isEmpty he a)] at hx
    cases hx
  obtain ⟨ok, p, hc, heq, hiff⟩ := closing_closeTaints hwf.keyed
  obtain rfl : ok := hiff.mpr hok
  rw [heq, ← hits_taints]
  constructor
  · rintro ⟨m, hm, hmark⟩
    rcases hc.sound hwf.keyed ⟨grows_refl _ ds, hwf.tidy⟩ hs a m hm with rfl | ham
    · rw [hmarks m ha] at hmark
      cases hmark
    · exact ⟨m, hmark, ham⟩
  · intro hhits
    cases hc with
    | first _ ht hset _ =>
      exact closure_of_first hwf hs he final_taints hacyclic ht (hset rfl) hhits
    | idle hne _ => cases hne.symm.trans he
    | later hne _ _ _ _ _ => cases hne.symm.trans he

/-- In a table without cycles of taints, where no definition has the name of a mark, the taints of a
definition hold the mark of a sink exactly if they lead to a definition whose pointer holds one, in
whatever order the sets are gone through. -/
theorem first_taints_exact {ds ds' : Definitions} (hwf : ds.WellFormed)
    (he : ds.taints.isEmpty = true) (hmarks : ∀ a, ds.contains a = true → isSinkMark a = false)
    (hacyclic : Pointer.taints.Acyclic ds) (hr : Rearranged ds ds') :
    ((∀ a d, ds.get? a = some d → d.taints.scalars = []) → (closeTaints ds').1 = .ok ()) ∧
    ((closeTaints ds').1 = .ok () → ∀ a, ds.contains a = true →
      ((∃ m ∈ (closeTaints ds').2.taints.getD a [], isSinkMark m = true) ↔ ds.Leaks a)) := by
  have hsame := hr.samePointers .taints
  have hwf' := hr.wellFormed hwf
  have he' := hr.taints_isEmpty he
  refine ⟨fun hnames => ?_, fun hok a ha => ?_⟩
  · refine closeTaints_ok hwf' (.inl he') fun a e hget => ?_
    obtain ⟨d, hd, hde⟩ := hr.origin hget
    exact (hnames a d hd ▸ hde.taints.scalars).symm.eq_nil
  · have hmarks' : ∀ a, ds'.contains a = true → isSinkMark a = false := by
      intro a ha
      exact hmarks a ((hsame.contains a).symm.trans ha)
    have hacyclic' : Pointer.taints.Acyclic ds' := hacyclic.anti hsame.back
    rw [hasMark_closeTaints_iff hwf' he' hmarks' hacyclic' hok ((hsame.contains a).trans ha)]
    exact hsame.leaks_iff

def sinkOps : List Op :=
  [.var "a", .var "b", .var "c", .addTaint { ns := "a" } (.str "c"),
    .addTaint { ns := "a" } (.str "b"), .addTaint { ns := "b" } (.str "c"),
    .addTaint { ns := "b" } (.str "Taint-Sink-s")]

theorem first_taints_exact_sink :
    Pointer.taints.Acyclic (run sinkOps {}) ∧ (run sinkOps {}).Leaks "a" ∧
      (∃ m ∈ (closeTaints (run sinkOps {})).2.taints.getD "a" [], isSinkMark m = true) ∧
      ¬ (run sinkOps {}).Leaks "c" := by
  have hacyclic : Pointer.taints.Acyclic (run sinkOps {}) :=
    acyclic_of_rank (fun x => if x = "a" then 0 else if x = "b" then 1 else 2) (by decide +kernel)
  have hmarks : ∀ a, (run sinkOps {}).contains a = true → isSinkMark a = false := by
    have hall : (run sinkOps {}).current.keys.all (fun a => !isSinkMark a) = true := by
      decide +kernel
    intro a ha
    simpa using List.all_eq_true.mp hall a (Table.mem_keys_iff.mpr ha)
  obtain ⟨-, hiff⟩ := first_taints_exact (listed_run sinkOps).1 (by decide +kernel) hmarks hacyclic
    (rearranged_refl (run sinkOps {}))
  have hiff := hiff (by decide +kernel)
  have hmark : ∃ m ∈ (closeTaints (run sinkOps {})).2.taints.getD "a" [], isSinkMark m = true := by
    decide +kernel
  refine ⟨hacyclic, (hiff "a" (by decide +kernel)).mp hmark, hmark, fun hleaks => ?_⟩
  have hno := (hiff "c" (by decide +kernel)).mpr hleaks
  revert hno
  decide +kernel

end Definitions

end SinkTrace
