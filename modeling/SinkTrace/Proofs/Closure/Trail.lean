import Mathlib.Data.List.TakeWhile
import SinkTrace.Proofs.Closure.Soundness

/-!
# What a visit goes on from

A visit goes through what is fresh in the pointer of its definition and through what is left of the
old closure, but where it meets its own definition it goes no further or passes it over. What it
does follow is its trail. A later computation finds nothing that was not in the old closure and is
not reached along the trail, and `Search.traced` says so for the names of one kind, such as the
marks.
-/

namespace SinkTrace

open Definitions Pointer Relation List

variable {k : Pointer} {base ds : Definitions} {c : String → Prop} {d : Definition} {ns : Names}
  {p p₀ q : Pass} {a n : String}

namespace Pointer

/-! ### Paths to names of one kind -/

variable (k base c)

def Hits (a : String) : Prop := ∃ x, c x ∧ k.Reaches base a x

/-- One of the names is of the kind `c`, or a path leads from it to such a name. -/
def Onward (ns : Names) : Prop := ∃ m ∈ ns, k.Live base m ∧ (c m ∨ k.Hits base c m)

variable {k base c}

lemma Hits.contains (h : k.Hits base c a) : base.contains a := by
  obtain ⟨x, -, hx⟩ := h
  exact hx.contains

lemma Hits.of_under {b : String} (hab : k.Under base a b) (h : k.Hits base c b) :
    k.Hits base c a := by
  obtain ⟨x, hc, hx⟩ := h
  rcases hab with rfl | hab
  · exact ⟨x, hc, hx⟩
  · exact ⟨x, hc, hab.trans hx⟩

lemma hits_of_under {xs : Names} (hxs : ∀ x ∈ xs, k.Under base a x) (h : Has c xs) :
    c a ∨ k.Hits base c a := by
  obtain ⟨x, hx, hc⟩ := h
  rcases hxs x hx with rfl | hax
  · exact .inl hc
  · exact .inr ⟨x, hc, hax⟩

lemma Onward.mono {ms : Names} (h : k.Onward base c ns) (hsub : ∀ n ∈ ns, n ∈ ms) :
    k.Onward base c ms := by
  obtain ⟨m, hm, hrest⟩ := h
  exact ⟨m, hsub m hm, hrest⟩

lemma pointer_of_hits (hg : k.Grows base ds) (hd : ds.get? a = some d) (h : k.Hits base c a) :
    (k.pointer d).isEmpty = false := by
  obtain ⟨e, he⟩ := contains_iff.mp h.contains
  obtain ⟨d', hd', hsub⟩ := hg a e he
  obtain rfl : d = d' := Option.some.inj (hd.symm.trans hd')
  obtain ⟨x, -, hx⟩ := h
  obtain ⟨m, hm, -⟩ := hx.cases_head he
  have hne : (k.pointer d).names ≠ [] := ne_nil_of_mem (hsub m hm)
  simp [PointSet.isEmpty, hne]

lemma start_of_hits (hg : k.Grows base ds) (hd : ds.get? a = some d) (h : k.Hits base c a) :
    k.start d = [] := by simp [start, pointer_of_hits hg hd h]

/-! ### Trails -/

/-- What a visit to `a` follows in a list. Names found at `a` hold all that comes after; taints pass
it. -/
def heads : Pointer → String → Names → Names
  | names, a, ns => ns.takeWhile (· ≠ a)
  | taints, a, ns => ns.filter (· ≠ a)

def trail (k : Pointer) (p : Pass) (a : String) (d : Definition) : Names :=
  (k.fresh p d).names ++ k.heads a (k.rest p d)

lemma heads_cons_of_ne (h : n ≠ a) (ns : Names) : k.heads a (n :: ns) = n :: k.heads a ns := by
  cases k <;> simp [heads, h]

lemma heads_names_self (a : String) (ns : Names) : names.heads a (a :: ns) = [] := by simp [heads]

lemma heads_taints_self : taints.heads a (a :: ns) = taints.heads a ns := by simp [heads]

lemma mem_of_mem_heads {m : String} (h : m ∈ k.heads a ns) : m ∈ ns ∧ m ≠ a := by
  cases k with
  | names => exact ⟨(List.takeWhile_prefix _).subset h, by simpa using mem_takeWhile_imp h⟩
  | taints => simpa [heads] using h

lemma heads_of_not_mem (h : a ∉ ns) : k.heads a ns = ns := by
  have hne : ∀ n ∈ ns, decide (n ≠ a) :=
    fun n hn => decide_eq_true (ne_of_mem_of_not_mem hn h)
  cases k with
  | names => exact takeWhile_eq_self_iff.mpr hne
  | taints => exact filter_eq_self.mpr hne

/-! ### Searches in a graph -/

/-- A search in the graph of `base` that has gone well so far. -/
structure Ready (k : Pointer) (base : Definitions) (p : Pass) : Prop where
  sane : k.Sane p
  fits : k.Fits base p.defs
  sound : k.Sound base p.defs
  back : k.Grows base p.defs

lemma Ready.contains (h : k.Ready base p) (n : String) : p.defs.contains n = base.contains n :=
  Bool.eq_iff_iff.mpr ⟨h.fits.grows.contains, h.back.contains⟩

lemma Ready.live (h : k.Ready base p) : k.Live p.defs n ↔ k.Live base n := by
  unfold Live
  rw [h.contains]

lemma After.grows (h : k.After p q) : k.Grows p.defs q.defs := by
  intro n d hd
  obtain ⟨e, he, hs⟩ := h.kept hd
  exact ⟨e, he, fun x hx => hs.pointer k ▸ hx⟩

lemma Ready.of_after (h : k.Ready base p) (ha : k.After p q) (hq : k.Sane q)
    (hs : k.Sound base q.defs) : k.Ready base q where
  sane := hq
  fits := h.fits.of_after ha
  sound := hs
  back := h.back.trans ha.grows

lemma Ready.enter (h : k.Ready base p) {ns : String} (hd : p.defs.get? ns = some d)
    (hns : ns ∉ p.visited) : k.Ready base (k.enter p ns (k.start d)) :=
  h.of_after (frame_enter hns).after (sane_enter h.sane hns)
    (sound_enter h.sound (h.sane.keyed ns d hd))

lemma Ready.settle (h : k.Ready base p) {ns : String} (hns : ns ∈ p.visited) :
    k.Ready base (k.settle p ns) :=
  h.of_after (frame_settle hns).after (sane_settle h.sane hns) (sound_settle h.sound)

end Pointer

lemma Search.ready {k : Pointer} {base : Definitions} {p q : Pass} {t : Task} {o : Option Names}
    (h : Search k p t o q) (hp : k.Ready base p) : k.Ready base q := by
  obtain ⟨hq, hf⟩ := h.sane_frame hp.sane
  exact hp.of_after hf.after hq (h.sound hp.sane hp.fits hp.sound).1

lemma Search.under {k : Pointer} {base : Definitions} {p q : Pass} {ns : String} {r : Names}
    (h : Search k p (.visit ns) (some r) q) (hp : k.Ready base p) :
    ∀ x ∈ r, k.Under base ns x := (h.sound hp.sane hp.fits hp.sound).2 r rfl

lemma Search.visit_visited {k : Pointer} {p q : Pass} {ns : String} {r : Names}
    (h : Search k p (.visit ns) (some r) q) (hp : k.Sane p) (hns : ns ∈ p.visited)
    (hd : p.defs.contains ns) : q = p ∧ r = k.closure p.defs ns := by
  cases h with
  | absent hnone =>
    obtain ⟨d, hd⟩ := contains_iff.mp hd
    rw [hnone] at hd
    cases hd
  | known _ hk _ => exact ⟨rfl, (closure_of_cache hk).symm⟩
  | close hd ho _ _ _ => exact absurd hns (hp.not_visited hd ho)

lemma Search.follow_found {p q : Pass} {self : Option String} {ns acc r : Names}
    (h : Search .names p (.follow self ns acc) (some r) q) (ha : p.affected ≠ [])
    (hns : ∀ n ∈ ns, n ∈ acc) : r = acc := by
  induction ns with
  | nil => cases h with
    | nil => rfl
  | cons n ns ih =>
    cases h with
    | mark hn => cases hn
    | skip _ _ hs => exact ih hs fun m hm => hns m (mem_cons_of_mem n hm)
    | step _ _ hm _ _ =>
      rcases hm with hm | ⟨hm, -⟩
      · exact absurd hm ha
      · exact absurd (hns n mem_cons_self) hm

namespace Pointer

variable {me : Option String}

/-! ### Names followed in a visit -/

/-- The names `ns` are followed in a visit to `a`, where `a` itself comes up only in an old
closure. -/
structure Visiting (k : Pointer) (base : Definitions) (p : Pass) (a : String)
    (me : Option String) (ns : Names) : Prop where
  visited : a ∈ p.visited
  contains : base.contains a = true
  under : ∀ n ∈ ns, k.Live base n → k.Under base a n
  me_eq : me = none ∨ me = some a
  again : a ∈ ns → p.affected ≠ [] ∧ me = k.self a ∧ ∀ n ∈ ns, n ∈ k.closure p.defs a

lemma Visiting.tail {n : String} (h : k.Visiting base p a me (n :: ns)) :
    k.Visiting base p a me ns where
  visited := h.visited
  contains := h.contains
  under m hm := h.under m (mem_cons_of_mem n hm)
  me_eq := h.me_eq
  again hm := by
    obtain ⟨ha, hs, hall⟩ := h.again (mem_cons_of_mem n hm)
    exact ⟨ha, hs, fun m hm => hall m (mem_cons_of_mem n hm)⟩

lemma Visiting.frame (h : k.Visiting base p a me ns) (hf : k.Frame p q) :
    k.Visiting base q a me ns where
  visited := hf.visited a h.visited
  contains := h.contains
  under := h.under
  me_eq := h.me_eq
  again hm := by
    rw [hf.affected, closure_congr (hf.seen a h.visited)]
    exact h.again hm

lemma Visiting.not_under {n : String} (h : k.Visiting base p a me (n :: ns)) (hk : k.Acyclic base)
    (hn : base.contains n) (hne : n ≠ a) : ¬ k.Under base n a := by
  have han : k.Reaches base a n := (h.under n mem_cons_self (.inl hn)).resolve_left hne
  rintro (heq | hna)
  · exact hne heq.symm
  · exact (han.trans hna).ne hk h.contains rfl

/-! ### Where the names of a kind come from -/

variable (k base c) in
/-- What a visit to `a` finds in the names `ns`, with the closure `held` that it has meanwhile. -/
structure Draws (held : Names) (a : String) (ns acc r : Names) : Prop where
  source : a ∉ acc → Has c r → Has c acc ∨ Has c held ∨ k.Onward base c (k.heads a ns)
  other : a ∉ acc → a ∉ ns → a ∉ r

variable {held acc r items : Names}

lemma draws_nil : k.Draws base c held a [] acc acc := ⟨fun _ h => .inl h, fun h _ => h⟩

lemma draws_mark (hn : k.isMark n) (hheld : a ∈ n :: ns → ∀ m ∈ n :: ns, m ∈ held) :
    k.Draws base c held a (n :: ns) acc [n] where
  source _ h := by
    obtain ⟨x, hx, hc⟩ := h
    obtain rfl := mem_singleton.mp hx
    by_cases hxa : x = a
    · exact .inr (.inl ⟨x, hheld (hxa ▸ mem_cons_self) x mem_cons_self, hc⟩)
    · refine .inr (.inr ⟨x, ?_, .inr hn, .inl hc⟩)
      rw [heads_cons_of_ne hxa]
      exact mem_cons_self
  other _ hns := by
    rw [mem_singleton]
    exact fun h => hns (h ▸ mem_cons_self)

lemma draws_skip (h : k.Draws base c held a ns acc r) (hn : n = a → a ∈ acc ∨ k = .taints) :
    k.Draws base c held a (n :: ns) acc r where
  source hacc hr := by
    refine (h.source hacc hr).imp_right (Or.imp_right fun hon => ?_)
    by_cases hna : n = a
    · obtain rfl := (hn hna).resolve_left hacc
      rwa [hna, heads_taints_self]
    · rw [heads_cons_of_ne hna]
      exact hon.mono fun m hm => mem_cons_of_mem n hm
  other hacc hns := h.other hacc fun hmem => hns (mem_cons_of_mem n hmem)

lemma draws_step (hne : n ≠ a) (hl : k.Live base n) (hitems : ∀ x ∈ items, k.Under base n x)
    (hback : ¬ k.Under base n a)
    (h : k.Draws base c held a ns (acc.union (if items.isEmpty then [n] else items)) r) :
    k.Draws base c held a (n :: ns) acc r := by
  have hunder : ∀ x ∈ (if items.isEmpty then [n] else items), k.Under base n x := by
    intro x hx
    split_ifs at hx
    · exact .inl (mem_singleton.mp hx)
    · exact hitems x hx
  have hnew : a ∉ acc → a ∉ acc.union (if items.isEmpty then [n] else items) := by
    rw [Names.mem_union, not_or]
    exact fun hacc => ⟨hacc, fun hmem => hback (hunder a hmem)⟩
  refine ⟨fun hacc hr => ?_, fun hacc hns => ?_⟩
  · rw [heads_cons_of_ne hne]
    rcases h.source (hnew hacc) hr with hfound | hheld | hon
    · rcases has_union.mp hfound with hold | hfresh
      · exact .inl hold
      · exact .inr (.inr ⟨n, mem_cons_self, hl, hits_of_under hunder hfresh⟩)
    · exact .inr (.inl hheld)
    · exact .inr (.inr (hon.mono fun m hm => mem_cons_of_mem n hm))
  · exact h.other (hnew hacc) fun hmem => hns (mem_cons_of_mem n hmem)

lemma draws_self (ha : a ∈ held) :
    k.Draws base c held a (a :: ns) acc (acc.union (if held.isEmpty then [a] else held)) where
  source _ hr := by
    rw [if_neg (by simpa using ne_nil_of_mem ha)] at hr
    exact (has_union.mp hr).imp_right .inl
  other _ hns := absurd mem_cons_self hns

/-! ### The two parts of a visit -/

lemma Ready.not_mem_fresh (hp : k.Ready base p) (hk : k.Acyclic base)
    (hd : p.defs.get? a = some d) :
    a ∉ (k.fresh p d).names := by
  intro hmem
  have ha := contains_of_get? hd
  have hsub := fresh_sub (hp.fits.tidy a d hd) p a hmem
  exact ((reaches_of_pointer hd hsub (.inl ha)).mono hp.fits.grows).ne hk
    (hp.fits.grows.contains ha) rfl

lemma Ready.visiting_fresh (hp : k.Ready base p) (hk : k.Acyclic base)
    (hd : p.defs.get? a = some d) :
    k.Visiting base (k.enter p a (k.start d)) a none (k.fresh p d).names where
  visited := mem_visited_enter.mpr (.inl rfl)
  contains := hp.fits.grows.contains (contains_of_get? hd)
  under _ hn hl := under_fresh hp.fits hd hn (hp.live.mpr hl)
  me_eq := .inl rfl
  again hmem := absurd hmem (hp.not_mem_fresh hk hd)

lemma Ready.visiting_rest {p₁ : Pass} (hp : k.Ready base p) (hd : p.defs.get? a = some d)
    (hop : k.Opening p a d p₁) : k.Visiting base (k.settle p₁ a) a (k.self a) (k.rest p d) where
  visited := by
    rw [visited_settle]
    exact hop.visited
  contains := hp.fits.grows.contains (contains_of_get? hd)
  under n hn _ := under_rest hp.sound (hp.sane.keyed a d hd) hn
  me_eq := by cases k <;> simp [self]
  again hmem := by
    have ha : p.affected ≠ [] := fun ha => by
      rw [rest_of_first ha] at hmem
      cases hmem
    refine ⟨?_, rfl, fun n hn => ?_⟩
    · rwa [affected_settle, hop.frame.affected, affected_enter]
    · have hin : a ∈ (k.enter p a (k.start d)).visited := mem_visited_enter.mpr (.inl rfl)
      rw [closure_congr ((hop.frame.trans hop.frame_settle).seen a hin)]
      obtain rfl : d.ns = a := hp.sane.keyed a d hd
      rw [rest_of_later ha] at hn
      exact (Names.mem_diff.mp hn).1

lemma Frame.trail (hf : k.Frame p q) (ha : a ∉ q.visited) (hd : d.ns = a) :
    k.trail q a d = k.trail p a d := by
  subst hd
  have hc := closure_congr (hf.unseen _ ha).2
  simp only [Pointer.trail, fresh, rest, Pointer.held, hf.affected, hc]

/-! ### Searches of a later computation -/

variable (k base c) in
/-- Since `p₀`, only open definitions were visited, and they hold what is reached along their
trails. -/
def Traced (p₀ p : Pass) : Prop :=
  ∀ a ∈ p.visited, ∃ d, p₀.defs.get? a = some d ∧
    ((k.cache p₀.defs).get? a = none ∨ k.changed d = true) ∧
    (k.Hits base c a → Has c (k.closure p.defs a) →
      Has c (k.closure p₀.defs a) ∨ k.Onward base c (k.trail p₀ a d))

lemma Traced.of_cache (h : k.Traced base c p₀ p) (hv : ∀ a ∈ q.visited, a ∈ p.visited)
    (hc : ∀ a ∈ p.visited, (k.cache q.defs).get? a = (k.cache p.defs).get? a) :
    k.Traced base c p₀ q := by
  intro a ha
  have hap := hv a ha
  obtain ⟨d, hd, ho, hsource⟩ := h a hap
  refine ⟨d, hd, ho, fun hhits hhas => hsource hhits ?_⟩
  rwa [closure_congr (hc a hap)] at hhas

variable (k base c) in
/-- A search of a later computation that began with `p₀` and has come to `p`. -/
structure Tracing (p₀ p : Pass) : Prop where
  ready : k.Ready base p
  frame : k.Frame p₀ p
  later : p.affected ≠ []
  traced : k.Traced base c p₀ p

lemma Tracing.enter (h : k.Tracing base c p₀ p) (hd : p.defs.get? a = some d)
    (ho : (k.cache p.defs).get? a = none ∨ k.changed d) :
    k.Tracing base c p₀ (k.enter p a (k.start d)) := by
  have ha : a ∉ p.visited := h.ready.sane.not_visited hd ho
  refine ⟨h.ready.enter hd ha, h.frame.trans (frame_enter ha),
    (affected_enter p a _).symm ▸ h.later, fun b hb => ?_⟩
  rw [mem_visited_enter] at hb
  by_cases hba : b = a
  · subst hba
    obtain ⟨hget, hcache⟩ := h.frame.unseen b ha
    refine ⟨d, hget ▸ hd, hcache ▸ ho, fun hhits hhas => .inl ?_⟩
    -- a definition that leads on has its old closure meanwhile
    obtain rfl : d.ns = b := h.ready.sane.keyed b d hd
    rw [closure_enter, held, start_of_hits h.ready.back hd hhits] at hhas
    split_ifs at hhas
    · obtain ⟨x, hx, -⟩ := hhas
      cases hx
    · rwa [closure_congr hcache] at hhas
  · obtain ⟨e, he, hoe, hsource⟩ := h.traced b (hb.resolve_left hba)
    refine ⟨e, he, hoe, fun hhits hhas => hsource hhits ?_⟩
    rwa [closure_congr] at hhas
    rw [cache_enter, if_neg fun hc => hba hc.1]

lemma Tracing.settle (h : k.Tracing base c p₀ p) (ha : a ∈ p.visited) :
    k.Tracing base c p₀ (k.settle p a) where
  ready := h.ready.settle ha
  frame := h.frame.trans (frame_settle ha)
  later := by
    rw [affected_settle]
    exact h.later
  traced := h.traced.of_cache (fun b hb => by rwa [visited_settle] at hb) fun b _ => by
    rw [cache_settle]

lemma Traced.store (h : k.Traced base c p₀ p) (hd : p₀.defs.get? a = some d)
    (ho : (k.cache p₀.defs).get? a = none ∨ k.changed d)
    (hr : k.Hits base c a → Has c r → Has c (k.closure p₀.defs a) ∨
      k.Onward base c (k.trail p₀ a d)) :
    k.Traced base c p₀ (k.store p a r) := by
  intro b hb
  rw [visited_store] at hb
  by_cases hba : b = a
  · subst hba
    have hget : (k.cache (k.store p b r).defs).get? b = some r := by rw [cache_store, if_pos rfl]
    refine ⟨d, hd, ho, fun hhits hhas => hr hhits ?_⟩
    rwa [closure_of_cache hget] at hhas
  · obtain ⟨e, he, hoe, hsource⟩ := h b hb
    refine ⟨e, he, hoe, fun hhits hhas => hsource hhits ?_⟩
    rwa [closure_congr] at hhas
    rw [cache_store, if_neg hba]

end Pointer

namespace Search

variable {t : Task} {o : Option Names}

variable (k base c) in
/-- What is found in the names that a visit follows. -/
def OutcomeDrawn (p : Pass) (r : Names) : Task → Prop
  | .visit _ => True
  | .follow me ns acc => ∀ a, k.Visiting base p a me ns →
      k.Draws base c (k.closure p.defs a) a ns acc r

lemma source_of_draws {a : String} {d : Definition} {found result : Names} (hp : k.Ready base p)
    (hk : k.Acyclic base) (hd : p.defs.get? a = some d)
    (hfresh : k.Draws base c (k.held p d) a (k.fresh p d).names (k.start d) found)
    (hrest : k.Draws base c (k.held p d) a (k.rest p d) found result) (hhits : k.Hits base c a)
    (hhas : Has c result) :
    Has c (k.closure p.defs a) ∨ k.Onward base c (k.trail p a d) := by
  have hstart := start_of_hits hp.back hd hhits
  have hnot := hp.not_mem_fresh hk hd
  have hheld : Has c (k.held p d) → Has c (k.closure p.defs a) := by
    obtain rfl : d.ns = a := hp.sane.keyed a d hd
    unfold held
    rw [hstart]
    split_ifs
    · rintro ⟨x, hx, -⟩
      cases hx
    · exact id
  rw [hstart] at hfresh
  have hfound : a ∉ found := hfresh.other not_mem_nil hnot
  rcases hrest.source hfound hhas with hhas | hhas | hon
  · rcases hfresh.source not_mem_nil hhas with ⟨x, hx, -⟩ | hhas | hon
    · cases hx
    · exact .inl (hheld hhas)
    · rw [heads_of_not_mem hnot] at hon
      exact .inr (hon.mono fun m hm => mem_append_left _ hm)
  · exact .inl (hheld hhas)
  · exact .inr (hon.mono fun m hm => mem_append_right _ hm)

lemma tracing (h : Search k p t o q) (hp : k.Tracing base c p₀ p) (hq : k.Traced base c p₀ q) :
    k.Tracing base c p₀ q := by
  have hf := (h.sane_frame hp.ready.sane).2
  exact ⟨h.ready hp.ready, hp.frame.trans hf, hf.affected ▸ hp.later, hq⟩

lemma traced (h : Search k p t o q) (hk : k.Acyclic base) (hp : k.Tracing base c p₀ p) :
    k.Traced base c p₀ q ∧ ∀ r, o = some r → OutcomeDrawn k base c p r t := by
  induction h with
  | absent hd => exact ⟨hp.traced, fun r _ => trivial⟩
  | known hd hk hc => exact ⟨hp.traced, fun r _ => trivial⟩
  | @close p p₁ p₂ ns d found result hd ho hf hr hs ihf ihs =>
    have hop := hp.ready.sane.opening hd ho hf.sane_frame
    have hns := hop.not_visited
    have hp₀ := hp.enter hd ho
    obtain ⟨htr₁, hfound⟩ := ihf hp₀
    obtain ⟨htr₂, hresult⟩ := ihs ((hf.tracing hp₀ htr₁).settle hop.visited)
    have hfresh := hfound found rfl ns (hp.ready.visiting_fresh hk hd)
    have hrest := hresult result rfl ns (hp.ready.visiting_rest hd hop)
    -- meanwhile the definition has one and the same closure
    have hkey := hp.ready.sane.keyed ns d hd
    have hheld : k.closure (k.enter p ns (k.start d)).defs ns = k.held p d := by
      rw [← hkey, closure_enter]
    have hheld' : k.closure (k.settle p₁ ns).defs ns = k.held p d := by
      rw [← hheld]
      refine closure_congr ((hop.frame.trans hop.frame_settle).seen ns ?_)
      exact mem_visited_enter.mpr (.inl rfl)
    rw [hheld] at hfresh
    rw [hheld'] at hrest
    obtain ⟨hget, hcache⟩ := hp.frame.unseen ns hns
    refine ⟨htr₂.store (hget ▸ hd) (hcache ▸ ho) fun hhits hhas => ?_, fun r _ => trivial⟩
    rw [← hp.frame.trail hns hkey, ← closure_congr hcache]
    exact source_of_draws hp.ready hk hd hfresh hrest hhits hhas
  | stopFresh hd ho hf hr ihf => exact ⟨(ihf (hp.enter hd ho)).1, nofun⟩
  | stopRest hd ho hf hs ihf ihs =>
    have hop := hp.ready.sane.opening hd ho hf.sane_frame
    have hp₀ := hp.enter hd ho
    exact ⟨(ihs ((hf.tracing hp₀ (ihf hp₀).1).settle hop.visited)).1, nofun⟩
  | nil =>
    refine ⟨hp.traced, fun r hr => ?_⟩
    cases hr
    exact fun a _ => draws_nil
  | mark hn =>
    refine ⟨hp.traced, fun r hr => ?_⟩
    cases hr
    exact fun a hvis => draws_mark hn fun hmem => (hvis.again hmem).2.2
  | @skip p q self n ns acc o hn hskip hs ih =>
    obtain ⟨htr', hr'⟩ := ih hp
    refine ⟨htr', fun r hr a hvis => draws_skip (hr' r hr a hvis.tail) ?_⟩
    rintro rfl
    rcases hskip with hnone | ⟨-, hacc | hself⟩
    · rw [hp.ready.contains, hvis.contains] at hnone
      cases hnone
    · exact .inl hacc
    · have hme := (hvis.again mem_cons_self).2.1
      cases k with
      | names => cases hself.symm.trans hme
      | taints => exact .inr rfl
  | @step p p₁ q self n ns acc items o hn hdef hm hv hs ihv ihs =>
    have hfr := (hv.sane_frame hp.ready.sane).2
    obtain ⟨htr₂, hr₂⟩ := ihs (hv.tracing hp (ihv hp).1)
    refine ⟨htr₂, fun r hr a hvis => ?_⟩
    have hrest := hr₂ r hr a (hvis.tail.frame hfr)
    rw [closure_congr (hfr.seen a hvis.visited)] at hrest
    have hdef' : base.contains n := (hp.ready.contains n).symm.trans hdef
    by_cases hna : n = a
    · -- the definition itself comes up: all that follows is in the closure it has
      subst hna
      obtain ⟨-, hself, hheld⟩ := hvis.again mem_cons_self
      obtain ⟨rfl, rfl⟩ := hv.visit_visited hp.ready.sane hvis.visited hdef
      cases k with
      | taints => exact absurd hself (hm.resolve_left hp.later).2
      | names =>
        subst hr
        rw [hs.follow_found hp.later fun m hmem => ?_]
        · exact draws_self (hheld n mem_cons_self)
        · have hm' := hheld m (mem_cons_of_mem n hmem)
          rw [Names.mem_union, if_neg (by simpa using ne_nil_of_mem hm')]
          exact .inr hm'
    · exact draws_step hna (.inl hdef') (hv.under hp.ready) (hvis.not_under hk hdef' hna) hrest
  | stop hn hd hm hv ih => exact ⟨(ih hp).1, nofun⟩

end Search

end SinkTrace
