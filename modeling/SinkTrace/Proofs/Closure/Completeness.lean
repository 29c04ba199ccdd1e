import SinkTrace.Proofs.Closure.Trail

/-!
# What a search finds

In a graph without cycles, a visit finds a name of a kind at which paths end, such as a mark,
whenever a path leads from its definition to one and the closures it can rely on have it: those that
are known, and for a definition that is still to be visited the old closure or the trail. While the
visit of a definition goes on its closure is not to be relied on, but then a path leads from it to
all that is visited meanwhile, so none of these leads back to it.
-/

namespace SinkTrace

open Definitions Pointer Relation List

variable {k : Pointer} {base : Definitions} {c : String → Prop} {p q : Pass}

namespace Pointer

variable (k base c) in
/-- A kind of names at which paths end. -/
structure Final : Prop where
  mark : ∀ x, k.isMark x = true → c x
  last : ∀ x, c x → k.isMark x = true ∨ ∀ y, ¬ k.Reaches base x y

lemma Final.isMark {a : String} (h : k.Final base c) (hc : c a) (hhits : k.Hits base c a) :
    k.isMark a := by
  obtain ⟨x, -, hx⟩ := hhits
  exact (h.last a hc).resolve_right fun hnone => hnone x hx

/-! ### What was visited, and what was not -/

variable (k base c)

def Done (p : Pass) (b : String) : Prop := k.Hits base c b → Has c (k.closure p.defs b)

/-- All that was visited since `p` is done. -/
def Fills (p q : Pass) : Prop := ∀ b ∈ q.visited, b ∉ p.visited → k.Done base c q b

/-- What was visited is done, but for those whose visits are still going on. -/
def DoneBut (p : Pass) (busy : String → Prop) : Prop := ∀ b ∈ p.visited, k.Done base c p b ∨ busy b

/-- What was not visited can be relied on: it has what there is to find, or finds it along its
trail. -/
def Promises (p : Pass) : Prop :=
  ∀ a d, a ∉ p.visited → p.defs.get? a = some d → k.Hits base c a →
    (∀ xs, (k.cache p.defs).get? a = some xs → k.changed d = false → Has c xs) ∧
    ((k.cache p.defs).get? a = none ∨ k.changed d = true →
      p.affected ≠ [] ∧ Has c (k.closure p.defs a) ∨ k.Onward base c (k.trail p a d))

variable {k base c}

lemma Done.of_cache {b : String} (h : k.Done base c p b)
    (hc : (k.cache q.defs).get? b = (k.cache p.defs).get? b) : k.Done base c q b := by
  intro hhits
  rw [closure_congr hc]
  exact h hhits

lemma fills_refl : k.Fills base c p p := fun _ hb hnb => absurd hb hnb

lemma Fills.trans {r : Pass} (h : k.Fills base c p q) (h' : k.Fills base c q r) (hf : k.Frame q r) :
    k.Fills base c p r := by
  intro b hb hnb
  by_cases hbq : b ∈ q.visited
  · exact (h b hbq hnb).of_cache (hf.seen b hbq)
  · exact h' b hb hbq

lemma DoneBut.fills {busy : String → Prop} (h : k.DoneBut base c p busy)
    (hfill : k.Fills base c p q)
    (hf : k.Frame p q) : k.DoneBut base c q busy := by
  intro b hb
  by_cases hbp : b ∈ p.visited
  · exact (h b hbp).imp_left fun hdone => hdone.of_cache (hf.seen b hbp)
  · exact .inl (hfill b hb hbp)

lemma DoneBut.mono {o o' : String → Prop} (h : k.DoneBut base c p o) (ho : ∀ b, o b → o' b) :
    k.DoneBut base c p o' := fun b hb => (h b hb).imp_right (ho b)

lemma Promises.frame (h : k.Promises base c p) (hp : k.Sane p) (hf : k.Frame p q) :
    k.Promises base c q := by
  intro a d ha hd hhits
  obtain ⟨hget, hcache⟩ := hf.unseen a ha
  rw [hget] at hd
  have hold := h a d (fun hv => ha (hf.visited a hv)) hd hhits
  rwa [hcache, hf.affected, closure_congr hcache, hf.trail ha (hp.keyed a d hd)]

/-! ### What is found in the names that are followed -/

variable (k base c)

/-- What was found other than `a` has led to what there is to find. -/
def Trusty (a : String) (acc : Names) : Prop := ∀ x ∈ acc, x ≠ a → k.Hits base c x → Has c acc

/-- What a visit to `a` finds in the names `ns`, after it had found `acc`. -/
structure Gathers (a : String) (ns acc r : Names) : Prop where
  keeps : Has c acc → Has c r
  finds : ∀ m ∈ ns, k.Live base m → c m → (m = a → k.isMark m = true) → Has c r
  follows : k.Trusty base c a acc → ∀ m ∈ k.heads a ns, k.Live base m → k.Hits base c m → Has c r
  trusty : k.Trusty base c a acc → a ∉ ns → k.Trusty base c a r

variable {a n : String} {ns acc r items : Names}

variable {k base c}

lemma gathers_nil : k.Gathers base c a [] acc acc where
  keeps := id
  finds _ hm := absurd hm not_mem_nil
  follows _ _ hm := absurd (mem_of_mem_heads hm).1 not_mem_nil
  trusty h _ := h

lemma gathers_mark (hc : c n) : k.Gathers base c a (n :: ns) acc [n] := by
  have h : Has c [n] := ⟨n, mem_singleton_self n, hc⟩
  exact ⟨fun _ => h, fun _ _ _ _ _ => h, fun _ _ _ _ _ => h, fun _ _ _ _ _ _ => h⟩

lemma mem_heads_cons {m : String} (h : m ∈ k.heads a (n :: ns)) :
    m ≠ a ∧ (m = n ∨ m ∈ k.heads a ns) := by
  refine ⟨(mem_of_mem_heads h).2, ?_⟩
  by_cases hna : n = a
  · subst hna
    cases k with
    | names =>
      rw [heads_names_self] at h
      cases h
    | taints => exact .inr (heads_taints_self ▸ h)
  · rw [heads_cons_of_ne hna] at h
    exact mem_cons.mp h

lemma gathers_skip (hn : k.isMark n = false)
    (hskip : base.contains n = false ∨ n ∈ acc ∨ n = a) (h : k.Gathers base c a ns acc r) :
    k.Gathers base c a (n :: ns) acc r where
  keeps := h.keeps
  finds m hm hl hc hma := by
    rcases mem_cons.mp hm with rfl | hm
    · rcases hskip with hnone | hacc | hself
      · simp [Live, hnone, hn] at hl
      · exact h.keeps ⟨m, hacc, hc⟩
      · rw [hma hself] at hn
        cases hn
    · exact h.finds m hm hl hc hma
  follows ht m hm hl hhits := by
    obtain ⟨hma, rfl | hm⟩ := mem_heads_cons hm
    · rcases hskip with hnone | hacc | hself
      · simp [Live, hnone, hn] at hl
      · exact h.keeps (ht m hacc hma hhits)
      · exact absurd hself hma
    · exact h.follows ht m hm hl hhits
  trusty ht hns := h.trusty ht fun hmem => hns (mem_cons_of_mem n hmem)

lemma gathers_step (hfin : k.Final base c) (hn : k.isMark n = false)
    (hitems : ∀ x ∈ items, k.Under base n x) (hhits : k.Hits base c n → Has c items)
    (h : k.Gathers base c a ns (acc.union (if items.isEmpty then [n] else items)) r) :
    k.Gathers base c a (n :: ns) acc r := by
  have hfresh : Has c items → Has c r := by
    intro hhas
    refine h.keeps (has_union.mpr (.inr ?_))
    rwa [if_neg]
    obtain ⟨x, hx, -⟩ := hhas
    simpa using ne_nil_of_mem hx
  have htrusty : k.Trusty base c a acc →
      k.Trusty base c a (acc.union (if items.isEmpty then [n] else items)) := by
    intro ht x hx hxa hx'
    rcases Names.mem_union.mp hx with hx | hx
    · exact (ht x hx hxa hx').union
    · refine has_union.mpr (.inr ?_)
      split_ifs at hx ⊢ with he
      · rw [mem_singleton.mp hx] at hx'
        obtain ⟨y, hy, -⟩ := hhits hx'
        rw [isEmpty_iff.mp he] at hy
        cases hy
      · exact hhits (hx'.of_under (hitems x hx))
  refine ⟨fun hacc => h.keeps hacc.union, fun m hm hl hc hma => ?_, fun ht m hm hl hm' => ?_,
    fun ht hns => h.trusty (htrusty ht) fun hmem => hns (mem_cons_of_mem n hmem)⟩
  · rcases mem_cons.mp hm with rfl | hm
    · -- no path leads further, so the closure holds nothing else
      have hend : ∀ y, ¬ k.Reaches base m y :=
        (hfin.last m hc).resolve_left (by rw [hn]; exact Bool.false_ne_true)
      refine h.keeps (has_union.mpr (.inr ⟨m, ?_, hc⟩))
      split_ifs with he
      · exact mem_singleton_self m
      · obtain ⟨x, hx⟩ := exists_mem_of_ne_nil items (by simpa using he)
        obtain rfl : x = m := (hitems x hx).resolve_right (hend x)
        exact hx
    · exact h.finds m hm hl hc hma
  · obtain ⟨-, rfl | hm⟩ := mem_heads_cons hm
    · exact hfresh (hhits hm')
    · exact h.follows (htrusty ht) m hm hl hm'

lemma gathers_self (hn : names.isMark a = false) {xs : Names}
    (h : names.Gathers base c a ns (acc.union xs) r) : names.Gathers base c a (a :: ns) acc r where
  keeps hacc := h.keeps hacc.union
  finds m hm hl hc hma := by
    rcases mem_cons.mp hm with rfl | hm
    · rw [hma rfl] at hn
      cases hn
    · exact h.finds m hm hl hc hma
  follows _ m hm := by
    rw [heads_names_self] at hm
    cases hm
  trusty _ hns := absurd mem_cons_self hns

lemma has_of_gathers {d : Definition} {found result : Names} (hfin : k.Final base c)
    (hk : k.Acyclic base) (hp : k.Ready base p) (hd : p.defs.get? a = some d)
    (hfresh : k.Gathers base c a (k.fresh p d).names (k.start d) found)
    (hrest : k.Gathers base c a (k.rest p d) found result) (hhits : k.Hits base c a)
    (hpromise : p.affected ≠ [] ∧ Has c (k.closure p.defs a) ∨ k.Onward base c (k.trail p a d)) :
    Has c result := by
  have hnot := hp.not_mem_fresh hk hd
  have hkey := hp.sane.keyed a d hd
  have hstart : k.Trusty base c a (k.start d) := by
    rw [start_of_hits hp.back hd hhits]
    exact nofun
  rcases hpromise with ⟨haff, x, hx, hc⟩ | ⟨m, hm, hl, hc | hm'⟩
  · -- what the old closure holds is among the additions or in the rest
    have hl : k.Live base x := by
      rcases hp.sound a x hx with rfl | hax
      · exact .inl hhits.contains
      · exact hax.live
    have hxa : x = a → k.isMark x := fun heq => hfin.isMark hc (heq ▸ hhits)
    by_cases hadd : x ∈ (k.added d).names
    · refine hrest.keeps (hfresh.finds x ?_ hl hc hxa)
      rwa [fresh_of_later haff]
    · refine hrest.finds x ?_ hl hc hxa
      subst hkey
      have hne : k.closure p.defs d.ns ≠ [] := ne_nil_of_mem hx
      simpa [rest, haff, held, hne] using ⟨hx, hadd⟩
  · rcases mem_append.mp hm with hm | hm
    · refine hrest.keeps (hfresh.finds m hm hl hc fun heq => absurd (heq ▸ hm) hnot)
    · obtain ⟨hm, hma⟩ := mem_of_mem_heads hm
      exact hrest.finds m hm hl hc fun heq => absurd heq hma
  · rcases mem_append.mp hm with hm | hm
    · rw [← heads_of_not_mem hnot] at hm
      exact hrest.keeps (hfresh.follows hstart m hm hl hm')
    · exact hrest.follows (hfresh.trusty hstart hnot) m hm hl hm'

lemma Fills.settle (h : k.Fills base c p q) (ns : String) : k.Fills base c p (k.settle q ns) := by
  intro b hb hnb
  rw [visited_settle] at hb
  exact (h b hb hnb).of_cache (by rw [cache_settle])

lemma Fills.store {ns : String} {s result : Names} (h : k.Fills base c (k.enter p ns s) q)
    (hresult : k.Hits base c ns → Has c result) : k.Fills base c p (k.store q ns result) := by
  intro b hb hnb
  rw [visited_store] at hb
  by_cases hbn : b = ns
  · subst hbn
    have hget : (k.cache (k.store q b result).defs).get? b = some result := by
      rw [cache_store, if_pos rfl]
    intro hhits
    rw [closure_of_cache hget]
    exact hresult hhits
  · refine (h b hb ?_).of_cache (by rw [cache_store, if_neg hbn])
    rw [mem_visited_enter, not_or]
    exact ⟨hbn, hnb⟩

lemma DoneBut.enter {ns : String} {s : Names} (h : k.DoneBut base c p (k.Reaches base · ns))
    (hf : k.Frame p (k.enter p ns s)) : k.DoneBut base c (k.enter p ns s) (k.Under base · ns) := by
  intro b hb
  rw [mem_visited_enter] at hb
  rcases hb with rfl | hb
  · exact .inr (.inl rfl)
  · exact (h b hb).imp (fun h => h.of_cache (hf.seen b hb)) .inr

end Pointer

namespace Search

variable {t : Task} {o : Option Names}

variable (k base c) in
/-- What a search that ends finds. Its visits may come back to nothing that is not done. -/
def Finds (p q : Pass) (r : Names) : Task → Prop
  | .visit ns => k.DoneBut base c p (k.Reaches base · ns) →
      k.Fills base c p q ∧ (k.Hits base c ns → Has c r)
  | .follow me ns acc => ∀ a, k.Visiting base p a me ns → k.DoneBut base c p (k.Under base · a) →
      k.Fills base c p q ∧ k.Gathers base c a ns acc r

lemma finds (h : Search k p t o q) (hfin : k.Final base c) (hk : k.Acyclic base)
    (hp : k.Ready base p) (hpr : k.Promises base c p) :
    ∀ r, o = some r → Finds k base c p q r t := by
  induction h with
  | absent hd =>
    intro r hr _
    refine ⟨fills_refl, fun hhits => ?_⟩
    obtain ⟨d, hd'⟩ := contains_iff.mp ((hp.contains _).trans hhits.contains)
    rw [hd] at hd'
    cases hd'
  | @known p ns d xs hd hknown hc =>
    intro r hr hdone
    cases hr
    refine ⟨fills_refl, fun hhits => ?_⟩
    by_cases hv : ns ∈ p.visited
    · rcases hdone ns hv with hdone | hcycle
      · rw [← closure_of_cache hknown]
        exact hdone hhits
      · exact absurd rfl (hcycle.ne hk hhits.contains)
    · exact (hpr ns d hv hd hhits).1 xs hknown hc
  | @close p p₁ p₂ ns d found result hd ho hf hr hs ihf ihs =>
    intro r heq hdone
    cases heq
    have hop := hp.sane.opening hd ho hf.sane_frame
    have hns := hop.not_visited
    have hp₀ := hp.enter hd hns
    have hp₁ := (hf.ready hp₀).settle hop.visited
    have hfr₂ := (hs.sane_frame hop.sane_settle).2
    have hdone₀ := hdone.enter hop.frame_enter
    obtain ⟨hfill₁, hfresh⟩ := ihf hp₀ (hpr.frame hp.sane hop.frame_enter) found rfl ns
      (hp.visiting_fresh hk hd) hdone₀
    have hfill₁' := hfill₁.settle ns
    have hframe₁ := hop.frame.trans hop.frame_settle
    obtain ⟨hfill₂, hrest⟩ := ihs hp₁
      (hpr.frame hp.sane (hop.frame_fresh.trans hop.frame_settle)) result rfl ns
      (hp.visiting_rest hd hop) (hdone₀.fills hfill₁' hframe₁)
    have hresult : k.Hits base c ns → Has c result := fun hhits =>
      has_of_gathers hfin hk hp hd hfresh hrest hhits ((hpr ns d hns hd hhits).2 ho)
    exact ⟨(hfill₁'.trans hfill₂ hfr₂).store hresult, hresult⟩
  | nil =>
    intro r hr a _ _
    cases hr
    exact ⟨fills_refl, gathers_nil⟩
  | mark hn =>
    intro r hr a _ _
    cases hr
    exact ⟨fills_refl, gathers_mark (hfin.mark _ hn)⟩
  | @skip p q self n ns acc o hn hskip hs ih =>
    intro r hr a hvis hdone
    obtain ⟨hfill, hg⟩ := ih hp hpr r hr a hvis.tail hdone
    refine ⟨hfill, gathers_skip hn ?_ hg⟩
    rcases hskip with hnone | ⟨-, hacc | hself⟩
    · exact .inl ((hp.contains n).symm.trans hnone)
    · exact .inr (.inl hacc)
    · rcases hvis.me_eq with hme | hme
      · cases hself.symm.trans hme
      · exact .inr (.inr (Option.some.inj (hself.symm.trans hme)))
  | @step p p₁ q self n ns acc items o hn hdef hm hv hs ihv ihs =>
    intro r hr a hvis hdone
    have hfr := (hv.sane_frame hp.sane).2
    have hdef' : base.contains n := (hp.contains n).symm.trans hdef
    by_cases hna : n = a
    · subst hna
      obtain ⟨ha, hself, -⟩ := hvis.again mem_cons_self
      obtain ⟨rfl, rfl⟩ := hv.visit_visited hp.sane hvis.visited hdef
      cases k with
      | taints => exact absurd hself (hm.resolve_left ha).2
      | names =>
        obtain ⟨hfill, hg⟩ := ihs hp hpr r hr n hvis.tail hdone
        exact ⟨hfill, gathers_self hn hg⟩
    · have han : k.Reaches base a n :=
        (hvis.under n mem_cons_self (.inl hdef')).resolve_left hna
      -- a path leads to `n` from all that is not done
      obtain ⟨hfill₁, hhits⟩ := ihv hp hpr items rfl (hdone.mono fun b hba => by
        rcases hba with rfl | hba
        · exact han
        · exact hba.trans han)
      obtain ⟨hfill₂, hg⟩ := ihs (hv.ready hp) (hpr.frame hp.sane hfr) r hr a
        (hvis.tail.frame hfr) (hdone.fills hfill₁ hfr)
      refine ⟨hfill₁.trans hfill₂ ?_, gathers_step hfin hn (hv.under hp) hhits hg⟩
      exact (hs.sane_frame (hv.ready hp).sane).2
  | _ => exact nofun

end Search

namespace Pointer

variable {ds : Definitions} {halts : Bool}

/-! ### Turns -/

lemma Turns.ready (h : k.Turns halts p q) (hp : k.Ready base p) : k.Ready base q := by
  obtain ⟨hq, hafter⟩ := Turns.sane_after h hp.sane
  exact hp.of_after hafter hq (h.sound hp.sane hp.fits hp.sound)

lemma Turns.done (h : k.Turns false p q) (hfin : k.Final base c) (hk : k.Acyclic base)
    (hp : k.Ready base p) (hpr : ∀ q, k.Turns false p q → k.Promises base c q)
    (hv : p.visited = []) :
    ∀ b ∈ q.visited, k.Done base c q b := by
  induction h with
  | refl =>
    intro b hb
    rw [hv] at hb
    cases hb
  | @tail q r hinit hlast ih =>
    cases hlast with
    | reset ns ha => exact fun b hb => (ih b hb).of_cache (by cases k <;> rfl)
    | drop hv => exact fun b hb => (ih b hb).of_cache (by cases k <;> rfl)
    | @visit _ _ o hs ho =>
      cases o with
      | none => cases ho rfl
      | some items =>
        have hq := Turns.ready hinit hp
        have hfr := (hs.sane_frame hq.sane).2
        obtain ⟨hfill, -⟩ := hs.finds hfin hk hq (hpr _ hinit) items rfl
          fun b hb => .inl (ih b hb)
        intro b hb
        by_cases hbq : b ∈ q.visited
        · exact (ih b hbq).of_cache (hfr.seen b hbq)
        · exact hfill b hb hbq

lemma Turns.traced (h : k.Turns halts p q) (hk : k.Acyclic base) (hp : k.Ready base p)
    (ha : p.affected ≠ []) (hv : p.visited = []) : k.Traced base c p q := by
  induction h with
  | refl =>
    intro a hmem
    rw [hv] at hmem
    cases hmem
  | @tail q r hinit hlast ih =>
    cases hlast with
    | reset ns ha' => exact ih.of_cache (fun _ hb => hb) fun _ _ => by cases k <;> rfl
    | drop hv => exact ih.of_cache (fun _ hb => hb) fun _ _ => by cases k <;> rfl
    | visit hs _ =>
      have hfr := Turns.frame hinit ha hp.sane
      exact (hs.traced hk ⟨Turns.ready hinit hp, hfr, hfr.affected ▸ ha, ih⟩).1

/-! ### The first computation -/

lemma promises_first (hp : k.Ready base p) (ha : p.affected = [])
    (hnone : ∀ a, a ∉ p.visited → (k.cache p.defs).get? a = none) : k.Promises base c p := by
  intro a d hv hd hhits
  refine ⟨fun _ hxs => ?_, fun _ => .inr ?_⟩
  · rw [hnone a hv] at hxs
    cases hxs
  · obtain ⟨e, he⟩ := contains_iff.mp hhits.contains
    obtain ⟨d', hd', hsub⟩ := hp.back a e he
    obtain rfl : d = d' := Option.some.inj (hd.symm.trans hd')
    obtain ⟨x, hc, hx⟩ := hhits
    obtain ⟨m, hm, hl, hxm⟩ := hx.cases_head he
    refine ⟨m, mem_append_left _ ?_, hl, ?_⟩
    · rw [fresh_of_first ha]
      exact hsub m hm
    · rcases hxm with rfl | hxm
      · exact .inl hc
      · exact .inr ⟨x, hc, hxm⟩

lemma ready_start (hwf : ds.WellFormed) (hs : k.Sound ds ds) (affected : Names) :
    k.Ready ds { defs := ds, affected } where
  sane := sane_start hwf.keyed affected
  fits := ⟨grows_refl k ds, hwf.tidy⟩
  sound := hs
  back := grows_refl k ds

lemma closure_of_first (hwf : ds.WellFormed) (hs : k.Sound ds ds) (he : (k.cache ds).isEmpty)
    (hfin : k.Final ds c) (hk : k.Acyclic ds) (ht : k.Turns false { defs := ds } p)
    (hset : ∀ n ∈ ds.current.keys, k.Settled p n) {a : String} (hhits : k.Hits ds c a) :
    Has c (k.closure p.defs a) := by
  have hp := ready_start hwf hs []
  have hnone : ∀ {q : Pass}, k.Turns false { defs := ds } q → ∀ b, b ∉ q.visited →
      (k.cache q.defs).get? b = none := by
    intro q hq b hb
    rw [(Turns.sane_after hq hp.sane).2.unseen b hb]
    exact Table.get?_eq_none_of_isEmpty he b
  have hdone := ht.done hfin hk hp (fun q hq => promises_first (hq.ready hp)
    (Turns.sane_after hq hp.sane).2.affected (hnone hq)) rfl
  have hkey : a ∈ ds.current.keys := Table.mem_keys_iff.mpr hhits.contains
  obtain ⟨e, hget⟩ := contains_iff.mp ((ht.ready hp).back.contains hhits.contains)
  obtain ⟨-, xs, hxs⟩ := hset a hkey e hget
  -- what has a closure in the end was visited
  by_cases hv : a ∈ p.visited
  · exact hdone a hv hhits
  · rw [hnone ht a hv] at hxs
    cases hxs

end Pointer

end SinkTrace
