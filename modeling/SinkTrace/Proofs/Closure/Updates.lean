import SinkTrace.Proofs.Closure.Changes
import SinkTrace.Proofs.Closure.Completeness

/-!
# Which updates reach a closure

A later computation goes up from the definitions that were changed, to those whose old closures end
there. A definition in the middle of a path is the end of no closure, and one that stands among the
additions of another definition is not gone up from, so a change can be lost to what is above it.
`closures_complete_iff` says exactly when nothing is lost: every closure has what there is to find
already, or its definition is affected and its trail leads there.
-/

namespace SinkTrace

open Definitions Pointer Relation

variable {k : Pointer} {ds ds' : Definitions} {p : Pass} {ok : Bool} {a : String}

namespace Pointer

variable {c : String → Prop} {halts : Bool} {d e : Definition} {ns : Names}

/-! ### Later computations -/

/-- What a later computation follows from the definition of `a`. -/
def followed (k : Pointer) (ds : Definitions) (a : String) : Names :=
  match ds.get? a with
  | none => []
  | some d => (k.added d).names ++ k.heads a ((k.closure ds a).diff (k.added d).names)

/-- A closure has what there is to find, or a later computation follows a path there. -/
def Renews (k : Pointer) (ds : Definitions) (c : String → Prop) : Prop :=
  ∀ a, k.Hits ds c a → Has c (k.closure ds a) ∨
    a ∈ k.affectedBy ds ∧ k.Onward ds c (k.followed ds a)

lemma changed_mark_self : k.changed (k.mark d) := by
  cases k
  · exact Change.hasNames_addNames d.change
  · rfl

lemma added_mark : k.added (k.mark d) = k.added d := by
  cases k <;> rfl

section Marked

variable (hm : k.Marked ns (k.unnoted ds) ds')

include hm

lemma Marked.closure (a : String) :
    k.closure ds' a = k.closure ds a := closure_congr (by rw [hm.cache, cache_unnoted])

lemma Marked.origin (he : ds'.get? a = some e) :
    ∃ d, ds.get? a = some d ∧ Alike d e ∧ k.added e = k.added d ∧
      (a ∈ ns → k.changed e) ∧ (a ∉ ns → e = d) := by
  obtain ⟨d, hd, halike⟩ := hm.alike he
  rw [hm.get, get?_unnoted] at he
  rw [get?_unnoted] at hd
  refine ⟨d, hd, halike, ?_⟩
  by_cases ha : a ∈ ns
  · rw [if_pos ha, hd, Option.map_some, Option.some.injEq] at he
    subst he
    exact ⟨added_mark, fun _ => changed_mark_self, fun hn => absurd ha hn⟩
  · rw [if_neg ha, hd, Option.some.injEq] at he
    subst he
    exact ⟨rfl, fun hn => absurd hn ha, fun _ => rfl⟩

lemma Marked.grows : k.Grows ds ds' := by
  intro a d hd
  have hun : (k.unnoted ds).get? a = some d := by rwa [get?_unnoted]
  have hkey : a ∈ ds'.current.keys := by
    rw [hm.keys]
    exact Table.mem_keys_iff.mpr (contains_of_get? hun)
  obtain ⟨e, he⟩ := contains_iff.mp (Table.mem_keys_iff.mp hkey)
  obtain ⟨d', hd', halike⟩ := hm.alike he
  obtain rfl : d = d' := Option.some.inj (hun.symm.trans hd')
  exact ⟨e, he, fun x hx => halike.pointer k ▸ hx⟩

end Marked

lemma ready_marked (hwf : ds.WellFormed) (hs : k.Sound ds ds) (hm : k.Marked ns (k.unnoted ds) ds')
    (affected : Names) : k.Ready ds { defs := ds', affected } where
  sane := hm.sane (keyed_unnoted hwf.keyed) affected
  fits := by
    refine Fits.of_alike ⟨grows_refl k ds, hwf.tidy⟩ fun a e he => ?_
    obtain ⟨d, hd, halike, -⟩ := hm.origin he
    exact ⟨d, hd, halike⟩
  sound a x hx := hs a x (hm.closure a ▸ hx)
  back := hm.grows

lemma trail_marked (hm : k.Marked ns (k.unnoted ds) ds') {affected : Names} (ha : affected ≠ [])
    (he : ds'.get? a = some e) (hns : e.ns = a) (hhits : k.Hits ds c a) :
    k.trail { defs := ds', affected } a e = k.followed ds a := by
  obtain ⟨d, hd, -, hadd, -⟩ := hm.origin he
  have hheld : k.held { defs := ds', affected } e = k.closure ds a := by
    rw [held, start_of_hits hm.grows he hhits, hns, hm.closure]
    split_ifs with hnil
    · exact (List.isEmpty_iff.mp hnil).symm
    · rfl
  have hne : affected.isEmpty = false := by simpa using ha
  simp only [trail, fresh, rest, hheld, hadd, hne, followed, hd, Bool.false_eq_true, if_false]

/-- Where closures are known, a definition that points to something has a closure or a change. -/
def Covered (k : Pointer) (ds : Definitions) : Prop :=
  (k.cache ds).isEmpty = false → ∀ ns d, ds.get? ns = some d → (k.pointer d).isEmpty = false →
    (k.cache ds).contains ns = true ∨ k.changed d = true

section Later

variable (hwf : ds.WellFormed) (hs : k.Sound ds ds) (hk : k.Acyclic ds)
  (ha : k.affectedBy ds ≠ []) (hm : k.Marked (k.affectedBy ds) (k.unnoted ds) ds')

include hwf hs hk ha hm

lemma closure_of_later (hfin : k.Final ds c) (hr : k.Renews ds c)
    (ht : k.Turns false { defs := ds', affected := k.affectedBy ds } p)
    (hset : ∀ n ∈ k.affectedBy ds, k.Settled p n) (hhits : k.Hits ds c a) :
    Has c (k.closure p.defs a) := by
  have hp := ready_marked hwf hs hm (k.affectedBy ds)
  have hpromise : k.Promises ds c { defs := ds', affected := k.affectedBy ds } := by
    intro b e _ he hb
    obtain ⟨d, hd, -, -, hmarked, -⟩ := hm.origin he
    refine ⟨fun _ hxs hch => ?_, fun _ => ?_⟩
    · rcases hr b hb with hhas | ⟨haff, -⟩
      · rwa [← hm.closure, closure_of_cache hxs] at hhas
      · rw [hmarked haff] at hch
        cases hch
    · rcases hr b hb with hhas | ⟨-, hon⟩
      · exact .inl ⟨ha, (hm.closure b).symm ▸ hhas⟩
      · exact .inr (trail_marked hm ha he (hp.sane.keyed b e he) hb ▸ hon)
  have hframe : ∀ {q : Pass}, k.Turns false { defs := ds', affected := k.affectedBy ds } q →
      k.Frame { defs := ds', affected := k.affectedBy ds } q :=
    fun hq => hq.frame ha hp.sane
  have hdone := ht.done hfin hk hp (fun q hq => hpromise.frame hp.sane (hframe hq)) rfl
  by_cases hv : a ∈ p.visited
  · exact hdone a hv hhits
  · obtain ⟨hget, hcache⟩ := (hframe ht).unseen a hv
    rw [closure_congr hcache, hm.closure]
    refine (hr a hhits).resolve_right fun ⟨haff, _⟩ => ?_
    -- an affected definition is settled in the end, so it was visited
    obtain ⟨e, he⟩ := contains_iff.mp (hm.grows.contains hhits.contains)
    obtain ⟨d, -, -, -, hmarked, -⟩ := hm.origin he
    have hcalm := (hset a haff e (hget.trans he)).1
    rw [hmarked haff] at hcalm
    cases hcalm

lemma renews_of_later (hl : k.Listed ds) (hcov : k.Covered ds) (he : (k.cache ds).isEmpty = false)
    (ht : k.Turns halts { defs := ds', affected := k.affectedBy ds } p)
    (hfound : ∀ a, k.Hits ds c a → Has c (k.closure p.defs a)) : k.Renews ds c := by
  intro a hhits
  have hp := ready_marked hwf hs hm (k.affectedBy ds)
  have hhas := hfound a hhits
  by_cases hv : a ∈ p.visited
  · obtain ⟨e, hget, ho, hsource⟩ := ht.traced hk hp ha rfl a hv
    rcases hsource hhits hhas with hold | hon
    · exact .inl (hm.closure a ▸ hold)
    · rw [trail_marked hm ha hget (hp.sane.keyed a e hget) hhits] at hon
      refine .inr ⟨?_, hon⟩
      -- only a definition with a change is visited without being marked
      by_contra hna
      obtain ⟨d, hd, -, -, -, heq⟩ := hm.origin hget
      obtain rfl := heq hna
      have hch : k.changed e := by
        rcases ho with hnone | hch
        · rw [hm.cache, cache_unnoted] at hnone
          refine (hcov he a e hd (pointer_of_hits (grows_refl k ds) hd hhits)).resolve_left ?_
          rw [Table.not_contains_iff.mpr hnone]
          exact Bool.false_ne_true
        · exact hch
      exact hna (mem_affectedBy hwf.keyed hd hch (hl a e hd hch))
  · refine .inl ?_
    rwa [closure_congr ((ht.frame ha hp.sane).unseen a hv).2, hm.closure] at hhas

end Later

lemma Closing.found_iff (h : k.Closing ds true p) (hwf : ds.WellFormed) (hs : k.Sound ds ds)
    (hk : k.Acyclic ds) (hl : k.Listed ds) (hcov : k.Covered ds) (hfin : k.Final ds c) :
    (∀ a, k.Hits ds c a → Has c (k.closure p.defs a)) ↔ (k.cache ds).isEmpty ∨ k.Renews ds c := by
  cases h with
  | first he ht hset _ =>
    exact ⟨fun _ => .inl he, fun _ a => closure_of_first hwf hs he hfin hk ht (hset rfl)⟩
  | idle he ha =>
    have hclosure : ∀ a, k.closure (k.unnoted ds) a = k.closure ds a :=
      fun a => closure_congr (by rw [cache_unnoted])
    constructor
    · exact fun hfound => .inr fun a hhits => .inl (hclosure a ▸ hfound a hhits)
    · rintro (hempty | hr) a hhits
      · rw [he] at hempty
        cases hempty
      · refine (hclosure a).symm ▸ (hr a hhits).resolve_right fun ⟨haff, _⟩ => ?_
        rw [ha] at haff
        cases haff
  | later he ha hm ht hset _ =>
    constructor
    · exact fun hfound => .inr (renews_of_later hwf hs hk ha hm hl hcov he ht hfound)
    · rintro (hempty | hr) a hhits
      · rw [he] at hempty
        cases hempty
      · exact closure_of_later hwf hs hk ha hm hfin hr ht (hset rfl) hhits

/-! ### What edits and computations keep -/

lemma Covered.edit {replace : Bool} (h : k.Covered ds) (he : Edit replace ds ds') :
    k.Covered ds' := by
  intro hne ns e hget hp
  rw [cache_of_edit he] at hne ⊢
  rcases he.origin hget with ⟨hb, -, -⟩ | ⟨d, hd, hg⟩
  · cases k
    · rw [pointer, hb.points] at hp
      cases hp
    · rw [pointer, hb.taints] at hp
      cases hp
  · have hnew : (k.pointer d).isEmpty = false ∨ k.changed e := by
      cases k
      · exact hg.gains.names_noted hp
      · exact hg.gains.taints_noted hp
    have hkept : k.changed d → k.changed e := by
      cases k
      · exact hg.gains.hasNames
      · exact hg.gains.hasTaints
    rcases hnew with hpd | hch
    · exact (h hne ns d hd hpd).imp_right hkept
    · exact .inr hch

section Closing

variable (h : k.Closing ds true p) (hk : ds.Keyed)

include h hk

lemma Closing.known {ns : String}
    (hc : (k.cache ds).contains ns) : (k.cache p.defs).contains ns := by
  cases h with
  | first he _ _ _ =>
    obtain ⟨xs, hxs⟩ := Table.contains_iff.mp hc
    rw [Table.get?_eq_none_of_isEmpty he] at hxs
    cases hxs
  | idle _ _ => rwa [cache_unnoted]
  | later _ _ hm ht _ _ =>
    obtain ⟨hp, hafter⟩ := ht.sane_after (hm.sane (keyed_unnoted hk) _)
    rw [Table.contains_iff] at hc ⊢
    by_cases hv : ns ∈ p.visited
    · exact hp.cached ns hv
    · rwa [hafter.unseen ns hv, hm.cache, cache_unnoted]

lemma Closing.isEmpty (he : (k.cache p.defs).isEmpty) : (k.cache ds).isEmpty := by
  by_contra hne
  obtain ⟨n, xs, hn⟩ := Table.exists_get?_of_isEmpty (Bool.eq_false_iff.mpr hne)
  obtain ⟨ys, hys⟩ := Table.contains_iff.mp (h.known hk (Table.contains_of_get? hn))
  rw [Table.get?_eq_none_of_isEmpty he] at hys
  cases hys

lemma Closing.keys_of_isEmpty (he : (k.cache p.defs).isEmpty) : p.defs.current.keys = [] := by
  have hds := h.isEmpty hk he
  cases h with
  | first _ ht hset _ =>
    have hkeys := (ht.sane_after (sane_start hk [])).2.keys
    rw [List.eq_nil_iff_forall_not_mem]
    intro n hn
    obtain ⟨e, hget⟩ := contains_iff.mp (Table.mem_keys_iff.mp hn)
    rw [hkeys] at hn
    obtain ⟨-, xs, hxs⟩ := hset rfl n hn e hget
    rw [Table.get?_eq_none_of_isEmpty he] at hxs
    cases hxs
  | idle hne _ => cases hne.symm.trans hds
  | later hne _ _ _ _ _ => cases hne.symm.trans hds

lemma Closing.covers (hl : k.Listed ds) (hcov : k.Covered ds)
    {ns : String} (he : p.defs.get? ns = some e) (hp : (k.pointer e).isEmpty = false) :
    (k.cache p.defs).contains ns := by
  obtain ⟨d, hd, halike⟩ := h.alike hk he
  rw [halike.pointer k] at hp
  -- a definition with a change is affected, and what is affected gets a closure
  have hold : (k.cache ds).isEmpty = false → ns ∉ k.affectedBy ds →
      (k.cache p.defs).contains ns := by
    intro hne hna
    rcases hcov hne ns d hd hp with hc | hch
    · exact h.known hk hc
    · exact absurd (mem_affectedBy hk hd hch (hl ns d hd hch)) hna
  cases h with
  | first _ _ hset _ =>
    have hkey : ns ∈ ds.current.keys := Table.mem_keys_iff.mpr (contains_of_get? hd)
    exact Table.contains_iff.mpr (hset rfl ns hkey e he).2
  | idle hne ha =>
    exact hold hne (by rw [ha]; exact List.not_mem_nil)
  | later hne _ _ _ hset _ =>
    by_cases haff : ns ∈ k.affectedBy ds
    · exact Table.contains_iff.mpr (hset rfl ns haff e he).2
    · exact hold hne haff

end Closing

lemma Closing.changed_taints (h : names.Closing ds true p) (hk : ds.Keyed)
    (hne : ds.closure.isEmpty = false) {ns : String} (he : p.defs.get? ns = some e) :
    ∃ d, ds.get? ns = some d ∧ Alike d e ∧ taints.changed e = taints.changed d := by
  cases h with
  | first hempty _ _ _ =>
    have hempty : ds.closure.isEmpty := hempty
    rw [hne] at hempty
    cases hempty
  | idle _ _ => exact ⟨e, he, alike_refl e, rfl⟩
  | later _ ha hm ht _ _ =>
    have hp := hm.sane (keyed_unnoted hk) (names.affectedBy ds)
    obtain ⟨f, hf, hfades⟩ := (ht.frame ha hp).fades ns e he
    obtain ⟨d, hd, halike⟩ := hm.alike hf
    refine ⟨d, hd, halike.trans hfades.settles.toAlike, ?_⟩
    rw [(hfades.other (j := taints) nofun).2]
    rw [hm.get, hd] at hf
    split_ifs at hf
    · obtain rfl := Option.some.inj hf
      exact Change.hasTaints_addNames d.change
    · obtain rfl := Option.some.inj hf
      rfl

section Closing

variable (h : k.Closing ds ok p) (hk : ds.Keyed)

include h hk

lemma Closing.shrinks (j : Pointer) : j.Grows p.defs ds := by
  intro ns e he
  obtain ⟨d, hd, halike⟩ := h.alike hk he
  exact ⟨d, hd, fun x hx => halike.pointer j ▸ hx⟩

lemma Closing.edge_eq (j : Pointer) : j.Edge p.defs = j.Edge ds := by
  funext a b
  exact propext ⟨Edge.mono (h.shrinks hk j), Edge.mono (h.grows hk j)⟩

lemma Closing.contains (n : String) : p.defs.contains n = ds.contains n :=
  Bool.eq_iff_iff.mpr ⟨(h.shrinks hk k).contains, (h.grows hk k).contains⟩

lemma Closing.reaches_iff {j : Pointer} {x : String} : j.Reaches p.defs a x ↔ j.Reaches ds a x :=
  ⟨Reaches.mono (h.shrinks hk j), Reaches.mono (h.grows hk j)⟩

end Closing

lemma Turns.cache_of_empty {q : Pass} (h : k.Turns halts p q) (hp : p.defs.current.keys = []) :
    k.cache q.defs = k.cache p.defs := by
  have hnone : ∀ {q : Pass}, q.defs.current.keys = [] → ∀ n, q.defs.get? n = none := by
    intro q hq n
    refine Table.not_contains_iff.mp (Bool.eq_false_iff.mpr fun hc => ?_)
    rw [← Table.mem_keys_iff, hq] at hc
    cases hc
  suffices k.cache q.defs = k.cache p.defs ∧ q.defs.current.keys = [] from this.1
  induction h with
  | refl => exact ⟨rfl, hp⟩
  | @tail q r _ hlast ih =>
    obtain ⟨hcache, hkeys⟩ := ih
    cases hlast with
    | reset ns _ => exact ⟨by cases k <;> exact hcache, (Table.keys_modify _ _ _).trans hkeys⟩
    | drop _ => exact ⟨by cases k <;> exact hcache, (Table.keys_modify _ _ _).trans hkeys⟩
    | visit hs _ =>
      cases hs with
      | absent _ => exact ⟨hcache, hkeys⟩
      | known hd => cases (hnone hkeys _).symm.trans hd
      | close hd => cases (hnone hkeys _).symm.trans hd
      | stopFresh hd => cases (hnone hkeys _).symm.trans hd
      | stopRest hd => cases (hnone hkeys _).symm.trans hd

end Pointer

namespace Definitions

variable {t : String}

/-! ### Runs -/

/-- What holds between the computations of a run in which taints are computed only directly after
names. -/
structure Tracked (ds : Definitions) : Prop where
  wellFormed : ds.WellFormed
  sound : ∀ k : Pointer, k.Sound ds ds
  listed : ∀ k : Pointer, k.Listed ds
  covered : ∀ k : Pointer, k.Covered ds
  order : ds.closure.isEmpty = true → ds.taints.isEmpty = true

lemma tracked_empty : Tracked {} where
  wellFormed := wellFormed_empty
  sound k ns x hx := by cases k <;> cases hx
  listed k ns d hd := by cases hd
  covered k _ ns d hd := by cases hd
  order _ := rfl

lemma Tracked.edit (h : ds.Tracked) (he : Edit false ds ds') : ds'.Tracked where
  wellFormed := h.wellFormed.edit he
  sound k := (h.sound k).edit he
  listed k := (h.listed k).edit he
  covered k := (h.covered k).edit he
  order := by
    rw [he.sameCaches.closure, he.sameCaches.taints]
    exact h.order

lemma Tracked.edits (h : ds.Tracked) (he : Edits false ds ds') : ds'.Tracked := by
  induction he with
  | refl => exact h
  | tail _ hlast ih => exact ih.edit hlast

lemma Tracked.closeNames (h : ds.Tracked) (hc : names.Closing ds true p) :
    p.defs.Tracked := by
  have hk := h.wellFormed.keyed
  have htaints : p.defs.taints = ds.taints := hc.other hk (j := .taints) nofun
  refine ⟨h.wellFormed.closing hc, fun k => (h.sound k).closing h.wellFormed hc, fun k => ?_,
    fun k => ?_, fun he => htaints.symm ▸ h.order (hc.isEmpty hk he)⟩
  · cases k with
    | names => exact (h.listed .names).closing hk hc
    | taints => exact (h.listed .taints).other hk hc nofun
  · cases k with
    | names =>
      exact fun _ ns e he hp => .inl (hc.covers hk (h.listed .names) (h.covered .names) he hp)
    | taints =>
      intro hne ns e he hp
      rw [show Pointer.taints.cache p.defs = ds.taints from htaints] at hne ⊢
      have hclosure : ds.closure.isEmpty = false := by
        rw [Bool.eq_false_iff]
        intro he
        rw [h.order he] at hne
        cases hne
      obtain ⟨d, hd, halike, hch⟩ := hc.changed_taints hk hclosure he
      rw [halike.pointer .taints] at hp
      rw [hch]
      exact h.covered .taints hne ns d hd hp

lemma Tracked.closeTaints {q : Pass} (h : ds.Tracked) (hc : names.Closing ds true p)
    (hc' : Pointer.taints.Closing p.defs true q) : q.defs.Tracked := by
  have hp := h.closeNames hc
  have hk := hp.wellFormed.keyed
  have hclosure : q.defs.closure = p.defs.closure := hc'.other hk (j := .names) nofun
  refine ⟨hp.wellFormed.closing hc', fun k => (hp.sound k).closing hp.wellFormed hc', fun k => ?_,
    fun k => ?_, fun he => ?_⟩
  · cases k with
    | names => exact (hp.listed .names).other hk hc' nofun
    | taints => exact (hp.listed .taints).closing hk hc'
  · cases k with
    | names =>
      intro hne ns e he hpt
      rw [show names.cache q.defs = p.defs.closure from hclosure]
      obtain ⟨d, hd, halike⟩ := hc'.alike hk he
      rw [halike.pointer .names] at hpt
      exact .inl (hc.covers h.wellFormed.keyed (h.listed .names) (h.covered .names) hd hpt)
    | taints =>
      exact fun _ _ e he hpt =>
        .inl (hc'.covers hk (hp.listed .taints) (hp.covered .taints) he hpt)
  · rw [hclosure] at he
    have hkeys := hc.keys_of_isEmpty h.wellFormed.keyed he
    have hempty := hp.order he
    cases hc' with
    | first _ ht _ _ => exact (congrArg Table.isEmpty (ht.cache_of_empty hkeys)).trans hempty
    | idle hne _ => cases hne.symm.trans hempty
    | later hne _ _ _ _ _ => cases hne.symm.trans hempty

lemma Tracked.closings (h : ds.Tracked)
    (hr : (Definitions.closeTaints (Definitions.closeNames ds)).1 = .ok ()) :
    ∃ p q, Pointer.names.Closing ds true p ∧ Pointer.taints.Closing p.defs true q ∧
      Definitions.closeNames ds = p.defs ∧
      (Definitions.closeTaints (Definitions.closeNames ds)).2 = q.defs := by
  obtain ⟨p, hc, heq⟩ := closing_closeNames h.wellFormed.keyed
  rw [heq] at hr ⊢
  obtain ⟨ok, q, hc', heq', hok⟩ := closing_closeTaints (h.closeNames hc).wellFormed.keyed
  obtain rfl : ok := hok.mpr hr
  exact ⟨p, q, hc, hc', rfl, heq'⟩

/-- Whether nothing is assigned and every computation of the taints follows one of the names. -/
def orderly : List Op → Definitions → Bool
  | [], _ => true
  | .closeNames :: .closeTaints :: ops, ds =>
    let r := Definitions.closeTaints (Definitions.closeNames ds)
    r.1.isOk && orderly ops r.2
  | .closeTaints :: _, _ => false
  | op :: ops, ds => !op.isAssign && orderly ops (op.run ds).2

lemma tracked_run {ops : List Op} (h : orderly ops ds) (hds : ds.Tracked) :
    (run ops ds).Tracked := by
  fun_induction orderly ops ds with
  | case1 ds => exact hds
  | case2 ops ds r ih =>
    obtain ⟨hok, hrest⟩ := Bool.and_eq_true_iff.mp h
    have hr : r.1 = .ok () := by
      cases hfst : r.1 with
      | error e =>
        rw [hfst] at hok
        cases hok
      | ok u => rfl
    obtain ⟨p, q, hc, hc', -, heq⟩ := hds.closings hr
    refine ih hrest ?_
    rw [show r.2 = q.defs from heq]
    exact hds.closeTaints hc hc'
  | case3 => cases h
  | case4 op ops ds _ hne ih =>
    obtain ⟨ha, hrest⟩ := Bool.and_eq_true_iff.mp h
    refine ih hrest ?_
    by_cases hclose : op.isClose
    · cases op with
      | closeNames =>
        obtain ⟨p, hc, heq⟩ := closing_closeNames hds.wellFormed.keyed
        rw [show (Op.closeNames.run ds).2 = p.defs from heq]
        exact hds.closeNames hc
      | closeTaints => exact absurd rfl hne
      | _ => cases hclose
    · refine hds.edits (Op.leads_run (Bool.eq_false_iff.mpr hclose) ?_ ds)
      rwa [Bool.not_eq_true'] at ha

/-! ### Ends and marks -/

def Terminal (ds : Definitions) (t : String) : Prop :=
  ds.contains t = true ∧ ∀ b, ¬ Pointer.names.Edge ds t b

/-- Each closure holds every terminal definition that the names lead to. -/
def EndsFound (ds : Definitions) : Prop :=
  ∀ a t, ds.Terminal t → TransGen (Pointer.names.Edge ds) a t → t ∈ ds.closure.getD a []

/-- The taints of `a` lead to a definition whose taint pointer holds the mark of a sink. -/
def Leaks (ds : Definitions) (a : String) : Prop :=
  ∃ b d m, ReflTransGen (Pointer.taints.Edge ds) a b ∧ ds.get? b = some d ∧ m ∈ d.taints.names ∧
    isSinkMark m = true

/-- The taints of each definition that leads to a sink hold the mark of one. -/
def MarksFound (ds : Definitions) : Prop :=
  ∀ a, ds.Leaks a → ∃ m ∈ ds.taints.getD a [], isSinkMark m = true

lemma hits_names : names.Hits ds (· = t) a ↔ TransGen (names.Edge ds) a t := by
  simp only [Hits, exists_eq_left, reaches_names_iff]

lemma hits_taints : Pointer.taints.Hits ds (isSinkMark ·) a ↔ ds.Leaks a := by
  constructor
  · rintro ⟨m, hm, b, hab, ⟨d, hd, hmem⟩, -⟩
    exact ⟨b, d, m, hab, hd, hmem, hm⟩
  · rintro ⟨b, d, m, hab, hd, hmem, hm⟩
    exact ⟨m, hm, b, hab, ⟨d, hd, hmem⟩, .inr hm⟩

lemma Leaks.head {b : String} (hab : Pointer.taints.Edge ds a b) (h : ds.Leaks b) : ds.Leaks a := by
  obtain ⟨e, d, m, hbe, hrest⟩ := h
  exact ⟨e, d, m, .head hab hbe, hrest⟩

lemma final_names (h : ds.Terminal t) : names.Final ds (· = t) := by
  refine ⟨nofun, ?_⟩
  rintro _ rfl
  refine .inr fun y hy => ?_
  obtain ⟨b, hb, -⟩ := TransGen.head'_iff.mp (reaches_names_iff.mp hy)
  exact h.2 b hb

lemma final_taints : Pointer.taints.Final ds (isSinkMark ·) := ⟨fun _ h => h, fun _ h => .inl h⟩

lemma renews_names : (∀ t, ds.Terminal t → names.Renews ds (· = t)) ↔
      ∀ a t, ds.Terminal t → TransGen (names.Edge ds) a t → t ∈ ds.closure.getD a [] ∨
        a ∈ affectedByNames ds ∧ ∃ m ∈ names.followed ds a,
            m = t ∨ TransGen (names.Edge ds) m t := by
  have honward : ∀ {t : String} {ns : Names}, ds.Terminal t → (names.Onward ds (· = t) ns ↔
        ∃ m ∈ ns, m = t ∨ TransGen (names.Edge ds) m t) := by
    intro t ns ht
    simp only [Onward, hits_names]
    refine exists_congr fun m => and_congr_right fun _ => and_iff_right_of_imp ?_
    rintro (rfl | hm)
    · exact .inl ht.1
    · exact .inl (hits_names.mpr hm).contains
  have hhas : ∀ {t : String} {xs : Names}, Has (· = t) xs ↔ t ∈ xs := by simp [Has]
  constructor
  · intro h a t ht hat
    exact (h t ht a (hits_names.mpr hat)).imp hhas.mp (And.imp_right (honward ht).mp)
  · intro h t ht a hat
    exact (h a t ht (hits_names.mp hat)).imp hhas.mpr (And.imp_right (honward ht).mpr)

lemma renews_taints : Pointer.taints.Renews ds (isSinkMark ·) ↔
      ∀ a, ds.Leaks a → (∃ m ∈ ds.taints.getD a [], isSinkMark m) ∨ a ∈ affectedByTaints ds ∧
          ∃ m ∈ Pointer.taints.followed ds a, isSinkMark m ∨ ds.Leaks m := by
  have honward : ∀ {ns : Names}, Pointer.taints.Onward ds (isSinkMark ·) ns ↔
      ∃ m ∈ ns, isSinkMark m ∨ ds.Leaks m := by
    intro ns
    simp only [Onward, hits_taints]
    refine exists_congr fun m => and_congr_right fun _ => and_iff_right_of_imp ?_
    rintro (hm | hm)
    · exact .inr hm
    · exact .inl (hits_taints.mpr hm).contains
  refine forall_congr' fun a => ?_
  rw [hits_taints, honward]
  rfl

lemma terminal_closing (hc : k.Closing ds ok p) (hk : ds.Keyed) :
    p.defs.Terminal t ↔ ds.Terminal t := by
  rw [Terminal, Terminal, hc.edge_eq hk, hc.contains hk]

lemma leaks_closing (hc : k.Closing ds ok p) (hk : ds.Keyed) : p.defs.Leaks a ↔ ds.Leaks a := by
  simp only [← hits_taints, Hits, hc.reaches_iff hk]

lemma endsFound_iff (h : ds.Tracked) (hc : names.Closing ds true p) (hacyclic : names.Acyclic ds) :
    p.defs.EndsFound ↔ ds.closure.isEmpty ∨ ∀ t, ds.Terminal t → names.Renews ds (· = t) := by
  have hk := h.wellFormed.keyed
  have hone : ∀ t, ds.Terminal t → ((∀ a, names.Hits ds (· = t) a →
          Has (· = t) (names.closure p.defs a)) ↔
        ds.closure.isEmpty ∨ names.Renews ds (· = t)) :=
    fun t ht => hc.found_iff h.wellFormed (h.sound _) hacyclic (h.listed _) (h.covered _)
      (final_names ht)
  constructor
  · intro hfound
    by_cases he : ds.closure.isEmpty
    · exact .inl he
    · refine .inr fun t ht => ((hone t ht).mp fun a ha => ?_).resolve_left he
      refine ⟨t, hfound a t ((terminal_closing hc hk).mpr ht) ?_, rfl⟩
      rw [hc.edge_eq hk]
      exact hits_names.mp ha
  · intro hr a t ht hat
    rw [terminal_closing hc hk] at ht
    rw [hc.edge_eq hk] at hat
    have hhas := (hone t ht).mpr (hr.imp_right fun h => h t ht) a (hits_names.mpr hat)
    obtain ⟨_, hmem, rfl⟩ := hhas
    exact hmem

lemma marksFound_iff (h : ds.Tracked) (hc : Pointer.taints.Closing ds true p)
    (hacyclic : Pointer.taints.Acyclic ds) :
    p.defs.MarksFound ↔ ds.taints.isEmpty ∨ Pointer.taints.Renews ds (isSinkMark ·) := by
  refine Iff.trans ?_ (hc.found_iff h.wellFormed (h.sound _) hacyclic (h.listed _) (h.covered _)
    final_taints)
  refine forall_congr' fun a => ?_
  rw [leaks_closing hc h.wellFormed.keyed, hits_taints]
  rfl

/-- After a run in which the computations come in order, without cycles, the next two find every end
and every mark exactly if they are the first ones, or each closure has what there is to find
already, or what a later computation follows leads there. -/
theorem closures_complete_iff (ops : List Op) (hops : orderly ops {} = true)
    (hnames : Pointer.names.Acyclic (run ops {}))
    (htaints : Pointer.taints.Acyclic (run ops {}))
    (hr : (Definitions.closeTaints (Definitions.closeNames (run ops {}))).1 = .ok ()) :
    let ds := run ops {}
    let closed := Definitions.closeNames ds
    let tainted := (Definitions.closeTaints closed).2
    (tainted.EndsFound ↔ ds.closure.isEmpty = true ∨
      ∀ a t, ds.Terminal t → TransGen (Pointer.names.Edge ds) a t → t ∈ ds.closure.getD a [] ∨
        a ∈ affectedByNames ds ∧
          ∃ m ∈ Pointer.names.followed ds a, m = t ∨ TransGen (Pointer.names.Edge ds) m t) ∧
    (tainted.MarksFound ↔ closed.taints.isEmpty = true ∨
      ∀ a, closed.Leaks a → (∃ m ∈ closed.taints.getD a [], isSinkMark m = true) ∨
        a ∈ affectedByTaints closed ∧
          ∃ m ∈ Pointer.taints.followed closed a, isSinkMark m = true ∨ closed.Leaks m) := by
  have h := tracked_run hops tracked_empty
  obtain ⟨p, q, hc, hc', hclosed, htainted⟩ := h.closings hr
  dsimp only
  rw [htainted, hclosed, ← renews_names, ← renews_taints]
  have hk := h.wellFormed.keyed
  have hp := h.closeNames hc
  refine ⟨Iff.trans ?_ (endsFound_iff h hc hnames), marksFound_iff hp hc' ?_⟩
  · -- the taints leave the names alone
    have hclosure : q.defs.closure = p.defs.closure :=
      hc'.other hp.wellFormed.keyed (j := .names) nofun
    simp only [EndsFound, terminal_closing hc' hp.wellFormed.keyed,
      hc'.edge_eq hp.wellFormed.keyed, hclosure]
  · exact htaints.anti (hc.shrinks hk .taints)

lemma leaks_of_any {m : String} (hm : isSinkMark m)
    (h : (ds.get? a).any (fun d => d.taints.names.contains m)) : ds.Leaks a := by
  obtain ⟨d, hd, hmem⟩ := (Option.any_eq_true _ _).mp h
  exact ⟨a, d, m, .refl, hd, List.contains_iff_mem.mp hmem, hm⟩

/-- A chain of definitions, and a change at its end after the closures were computed twice. -/
def endOps : List Op :=
  [.var "a", .var "b", .var "c", .addName { ns := "a" } (.str "b"),
    .addTaint { ns := "a" } (.str "b"), .closeNames, .closeTaints, .closeNames, .closeTaints,
    .addName { ns := "b" } (.str "c"), .addTaint { ns := "b" } (.str "Taint-Sink-s")]

/-- A change at the end of the chain comes to its beginning. -/
theorem closures_complete_chain :
    (run endOps {}).closure.isEmpty = false ∧ (run endOps {}).taints.isEmpty = false ∧
      (Definitions.closeTaints (Definitions.closeNames (run endOps {}))).2.EndsFound ∧
      (Definitions.closeTaints (Definitions.closeNames (run endOps {}))).2.MarksFound := by
  have hrank : ∀ k : Pointer, k.Acyclic (run endOps {}) := fun k =>
    acyclic_of_rank (fun x => if x = "a" then 0 else if x = "b" then 1 else 2)
      (by cases k <;> decide +kernel)
  obtain ⟨hends, hmarks⟩ := closures_complete_iff endOps (by decide +kernel) (hrank .names)
    (hrank .taints) (by decide +kernel)
  refine ⟨by decide +kernel, by decide +kernel, hends.mpr (.inr ?_), hmarks.mpr (.inr ?_)⟩
  · have hlinks : Pointer.names.links (run endOps {}) = [("a", "b"), ("b", "c")] := by
      decide +kernel
    have hbc : Pointer.names.Edge (run endOps {}) "b" "c" := by decide +kernel
    intro a t ht hat
    obtain ⟨b, hab, -⟩ := TransGen.head'_iff.mp hat
    obtain ⟨b', -, hbt⟩ := TransGen.tail'_iff.mp hat
    have hfirst := hab.mem_links
    have hlast := hbt.mem_links
    simp only [hlinks, List.mem_cons, Prod.mk.injEq, List.not_mem_nil, or_false] at hfirst hlast
    -- the only end is the last definition
    obtain rfl : t = "c" := by
      rcases hlast with ⟨-, rfl⟩ | ⟨-, rfl⟩
      · exact absurd hbc (ht.2 "c")
      · rfl
    rcases hfirst with ⟨rfl, -⟩ | ⟨rfl, -⟩
    · exact .inr ⟨by decide +kernel, "b", by decide +kernel, .inr (TransGen.single hbc)⟩
    · exact .inr ⟨by decide +kernel, "c", by decide +kernel, .inl rfl⟩
  · have hlinks : Pointer.taints.links (Definitions.closeNames (run endOps {})) =
        [("a", "b"), ("b", "Taint-Sink-s")] := by decide +kernel
    rintro a ⟨b, d, m, hab, hd, hmem, -⟩
    have hfirst : ∃ n, (a, n) ∈ Pointer.taints.links (Definitions.closeNames (run endOps {})) := by
      rcases hab.cases_head with rfl | ⟨n, han, -⟩
      · exact ⟨m, mem_links hd hmem⟩
      · exact ⟨n, han.mem_links⟩
    simp only [hlinks, List.mem_cons, Prod.mk.injEq, List.not_mem_nil, or_false] at hfirst
    obtain ⟨n, ⟨rfl, -⟩ | ⟨rfl, -⟩⟩ := hfirst
    · refine .inr ⟨by decide +kernel, "b", by decide +kernel, .inr ?_⟩
      exact leaks_of_any (m := "Taint-Sink-s") (by decide +kernel) (by decide +kernel)
    · exact .inr ⟨by decide +kernel, "Taint-Sink-s", by decide +kernel, .inl (by decide +kernel)⟩

/-- The same chain with one more definition, and a change in its middle. -/
def middleOps : List Op :=
  [.var "a", .var "b", .var "c", .var "d",
    .addName { ns := "a" } (.str "b"), .addName { ns := "b" } (.str "c"),
    .addTaint { ns := "a" } (.str "b"), .addTaint { ns := "b" } (.str "c"),
    .closeNames, .closeTaints,
    .addName { ns := "b" } (.str "d"), .addTaint { ns := "b" } (.str "Taint-Sink-s")]

/-- A change of `b` in the middle of the chain does not come to `a`. -/
theorem change_in_middle_lost :
    orderly middleOps {} = true ∧ Pointer.names.Acyclic (run middleOps {}) ∧
      Pointer.taints.Acyclic (run middleOps {}) ∧
      (Definitions.closeTaints (Definitions.closeNames (run middleOps {}))).1 = .ok () ∧
      ¬ (Definitions.closeTaints (Definitions.closeNames (run middleOps {}))).2.EndsFound ∧
      ¬ (Definitions.closeTaints (Definitions.closeNames (run middleOps {}))).2.MarksFound := by
  have hrank : ∀ k : Pointer, k.Acyclic (run middleOps {}) := fun k =>
    acyclic_of_rank (fun x => if x = "a" then 0 else if x = "b" then 1 else 2)
      (by cases k <;> decide +kernel)
  refine ⟨by decide +kernel, hrank .names, hrank .taints, by decide +kernel, fun hends => ?_,
    fun hmarks => ?_⟩
  · have hterminal :
        (Definitions.closeTaints (Definitions.closeNames (run middleOps {}))).2.Terminal "d" := by
      refine ⟨by decide +kernel, fun b hb => ?_⟩
      have hlinks := hb.mem_links
      rw [show Pointer.names.links _ = [("a", "b"), ("b", "c"), ("b", "d")] by
        decide +kernel] at hlinks
      simp at hlinks
    have hpath : TransGen (Pointer.names.Edge
        (Definitions.closeTaints (Definitions.closeNames (run middleOps {}))).2) "a" "d" :=
      TransGen.tail (TransGen.single (b := "b") (by decide +kernel)) (by decide +kernel)
    have hmem := hends "a" "d" hterminal hpath
    revert hmem
    decide +kernel
  · have hleaks :
        (Definitions.closeTaints (Definitions.closeNames (run middleOps {}))).2.Leaks "b" :=
      leaks_of_any (m := "Taint-Sink-s") (by decide +kernel) (by decide +kernel)
    have hedge : Pointer.taints.Edge
        (Definitions.closeTaints (Definitions.closeNames (run middleOps {}))).2 "a" "b" := by
      decide +kernel
    have hmark := hmarks "a" (hleaks.head hedge)
    revert hmark
    decide +kernel

end Definitions

end SinkTrace
