import SinkTrace.Proofs.Closure.Closing

/-!
# Closures hold nothing that is not reached

Whatever stands in the closure of a namespace is that namespace or the end of a path from it. A
search adds only what it finds below the definition it visits, and no operation other than an
assignment takes an edge away, so this holds after every run without assignments.
-/

namespace SinkTrace

open Definitions Pointer Relation

variable {k : Pointer} {base ds ds' : Definitions} {p q : Pass}

namespace Pointer

variable {d : Definition} {a ns x : String}

/-- `x` is `a` or is reached from it. -/
def Under (k : Pointer) (base : Definitions) (a x : String) : Prop := x = a ∨ k.Reaches base a x

lemma Under.trans {b : String} (hab : k.Under base a b) (hbx : k.Under base b x) :
    k.Under base a x := by
  rcases hbx with rfl | hbx
  · exact hab
  · rcases hab with rfl | hab
    · exact .inr hbx
    · exact .inr (hab.trans hbx)

lemma Under.mono (h : k.Grows ds base) (hax : k.Under ds a x) : k.Under base a x :=
  hax.imp_right (Reaches.mono h)

/-- In the graph of `base`, every closure holds only what is under its namespace. -/
def Sound (k : Pointer) (base ds : Definitions) : Prop :=
  ∀ ns, ∀ x ∈ k.closure ds ns, k.Under base ns x

/-- The pointers of `ds` are part of the graph of `base`, and so is what is noted down as added. -/
structure Fits (k : Pointer) (base ds : Definitions) : Prop where
  grows : k.Grows ds base
  tidy : ∀ ns d, ds.get? ns = some d → d.Tidy

lemma Fits.of_alike (h : k.Fits base ds)
    (ha : ∀ ns e, ds'.get? ns = some e → ∃ d, ds.get? ns = some d ∧ Alike d e) :
    k.Fits base ds' where
  grows ns e he := by
    obtain ⟨d, hd, hde⟩ := ha ns e he
    rw [hde.pointer k]
    exact h.grows ns d hd
  tidy ns e he := by
    obtain ⟨d, hd, hde⟩ := ha ns e he
    exact hde.tidy (h.tidy ns d hd)

lemma Fits.of_frame (h : k.Fits base p.defs) (hf : k.Frame p q) : k.Fits base q.defs :=
  h.of_alike fun ns e he => by
    obtain ⟨d, hd, hde⟩ := hf.fades ns e he
    exact ⟨d, hd, hde.settles.toAlike⟩

lemma Live.of_frame (hx : k.Live q.defs x) (hf : k.Frame p q) : k.Live p.defs x := by
  unfold Live at hx ⊢
  rwa [hf.contains] at hx

lemma Fits.under (h : k.Fits base ds) (hd : ds.get? ns = some d) (hx : x ∈ (k.pointer d).names)
    (hl : k.Live ds x) : k.Under base ns x := .inr ((reaches_of_pointer hd hx hl).mono h.grows)

/-! ### The steps of a visit -/

lemma sound_of_cache (h : k.Sound base ds)
    (hc : ∀ ns xs, (k.cache ds').get? ns = some xs → (k.cache ds).get? ns = some xs ∨
      ∀ x ∈ xs, k.Under base ns x) :
    k.Sound base ds' := by
  intro ns x hx
  cases hget : (k.cache ds').get? ns with
  | none =>
    rw [closure_of_none hget] at hx
    cases hx
  | some xs =>
    rw [closure_of_cache hget] at hx
    rcases hc ns xs hget with hold | hnew
    · exact h ns x (closure_of_cache hold ▸ hx)
    · exact hnew x hx

lemma under_start (hns : d.ns = ns) (hx : x ∈ k.start d) : k.Under base ns x := by
  unfold start at hx
  split_ifs at hx
  · rw [List.mem_singleton, hns] at hx
    exact .inl hx
  · cases hx

lemma sound_enter (h : k.Sound base p.defs) (hns : d.ns = ns) :
    k.Sound base (k.enter p ns (k.start d)).defs := by
  refine sound_of_cache h fun m _ hm => ?_
  rw [cache_enter] at hm
  split_ifs at hm with hc
  · rw [Option.some.injEq] at hm
    subst hm
    exact .inr fun x hx => hc.1 ▸ under_start hns hx
  · exact .inl hm

lemma sound_settle (h : k.Sound base p.defs) : k.Sound base (k.settle p ns).defs :=
  sound_of_cache h fun m _ hm => .inl (by rwa [cache_settle] at hm)

lemma sound_store (h : k.Sound base p.defs) {r : Names} (hr : ∀ x ∈ r, k.Under base ns x) :
    k.Sound base (k.store p ns r).defs := by
  refine sound_of_cache h fun m _ hm => ?_
  rw [cache_store] at hm
  split_ifs at hm with hc
  · rw [Option.some.injEq] at hm
    subst hm
    exact .inr (hc ▸ hr)
  · exact .inl hm

lemma fresh_sub (hd : d.Tidy) (p : Pass) : ∀ x ∈ (k.fresh p d).names, x ∈ (k.pointer d).names := by
  unfold fresh
  split_ifs
  · exact fun x hx => hx
  · exact added_sub hd k

lemma under_fresh (h : k.Fits base p.defs) (hd : p.defs.get? ns = some d)
    (hx : x ∈ (k.fresh p d).names) (hl : k.Live p.defs x) : k.Under base ns x :=
  h.under hd (fresh_sub (h.tidy ns d hd) p x hx) hl

lemma under_rest (h : k.Sound base p.defs) (hns : d.ns = ns) (hx : x ∈ k.rest p d) :
    k.Under base ns x := by
  unfold rest at hx
  split_ifs at hx
  · cases hx
  · have hheld := (Names.mem_diff.mp hx).1
    unfold held at hheld
    split_ifs at hheld
    · exact under_start hns hheld
    · exact hns ▸ h d.ns x hheld

end Pointer

namespace Search

variable {t : Task} {o : Option Names}

/-- The outcome of a task is under the visited namespace and what all there is to follow is
under. -/
def OutcomeUnder (k : Pointer) (base : Definitions) (p : Pass) (r : Names) : Task → Prop
  | .visit ns => ∀ x ∈ r, k.Under base ns x
  | .follow _ ns acc => ∀ a, (∀ n ∈ ns, k.Live p.defs n → k.Under base a n) →
      (∀ x ∈ acc, k.Under base a x) → ∀ x ∈ r, k.Under base a x

lemma sound (h : Search k p t o q) (hp : k.Sane p) (hfit : k.Fits base p.defs)
    (hs : k.Sound base p.defs) :
    k.Sound base q.defs ∧ ∀ r, o = some r → OutcomeUnder k base p r t := by
  induction h with
  | absent hd =>
    refine ⟨hs, fun r hr => ?_⟩
    cases hr
    exact nofun
  | @known p ns d xs hd hk hc =>
    refine ⟨hs, fun r hr => ?_⟩
    cases hr
    exact fun x hx => hs ns x (closure_of_cache hk ▸ hx)
  | @close p p₁ p₂ ns d found result hd ho hf hr hrest ihf ihs =>
    have hop := hp.opening hd ho hf.sane_frame
    have hns := hp.keyed ns d hd
    have hfit₀ := hfit.of_frame hop.frame_enter
    obtain ⟨hs₁, hfound⟩ := ihf hop.sane_enter hfit₀ (sound_enter hs hns)
    have hfit₁ := hfit.of_frame (hop.frame_fresh.trans hop.frame_settle)
    obtain ⟨hs₂, hresult⟩ := ihs hop.sane_settle hfit₁ (sound_settle hs₁)
    have hunder : ∀ x ∈ result, k.Under base ns x := by
      refine hresult result rfl ns (fun n hn _ => under_rest hs hns hn) ?_
      refine hfound found rfl ns (fun n hn hl => ?_) fun x hx => under_start hns hx
      exact under_fresh hfit hd hn (hl.of_frame hop.frame_enter)
    refine ⟨sound_store hs₂ hunder, fun r hr => ?_⟩
    cases hr
    exact hunder
  | stopFresh hd ho hf hr ihf =>
    have hop := hp.opening hd ho hf.sane_frame
    have hfit₀ := hfit.of_frame hop.frame_enter
    exact ⟨(ihf hop.sane_enter hfit₀ (sound_enter hs (hp.keyed _ _ hd))).1, nofun⟩
  | stopRest hd ho hf hrest ihf ihs =>
    have hop := hp.opening hd ho hf.sane_frame
    have hfit₀ := hfit.of_frame hop.frame_enter
    have hs₁ := (ihf hop.sane_enter hfit₀ (sound_enter hs (hp.keyed _ _ hd))).1
    have hfit₁ := hfit.of_frame (hop.frame_fresh.trans hop.frame_settle)
    exact ⟨(ihs hop.sane_settle hfit₁ (sound_settle hs₁)).1, nofun⟩
  | nil =>
    refine ⟨hs, fun r hr => ?_⟩
    cases hr
    exact fun a _ hacc => hacc
  | mark hn =>
    refine ⟨hs, fun r hr => ?_⟩
    cases hr
    intro a hnames _ x hx
    rw [List.mem_singleton.mp hx]
    exact hnames _ List.mem_cons_self (.inr hn)
  | skip hn h hsearch ih =>
    obtain ⟨hs', hr'⟩ := ih hp hfit hs
    exact ⟨hs', fun r hr a hnames =>
      hr' r hr a fun n hmem => hnames n (List.mem_cons_of_mem _ hmem)⟩
  | @step p p₁ q self n ns acc items o hn hd hm hv hsearch ihv ihs =>
    obtain ⟨hp₁, hfr⟩ := hv.sane_frame hp
    obtain ⟨hs₁, hitems⟩ := ihv hp hfit hs
    obtain ⟨hs₂, hr₂⟩ := ihs hp₁ (hfit.of_frame hfr) hs₁
    refine ⟨hs₂, fun r hr a hnames hacc => hr₂ r hr a (fun m hm hl => ?_) fun x hx => ?_⟩
    · exact hnames m (List.mem_cons_of_mem n hm) (hl.of_frame hfr)
    · have hn' : k.Under base a n := hnames n List.mem_cons_self (.inl hd)
      rcases Names.mem_union.mp hx with hx | hx
      · exact hacc x hx
      · split_ifs at hx
        · rwa [List.mem_singleton.mp hx]
        · exact hn'.trans (hitems items rfl x hx)
  | stop hn hd hm hv ih => exact ⟨(ih hp hfit hs).1, nofun⟩

end Search

namespace Pointer

variable {j : Pointer} {halts : Bool}

/-! ### Whole computations -/

lemma Turn.sound (h : k.Turn halts p q) (hp : k.Sane p) (hfit : k.Fits base p.defs)
    (hs : k.Sound base p.defs) : k.Sound base q.defs := by
  cases h with
  | reset ns ha => exact sound_of_cache hs fun m xs hm => .inl (by cases k <;> exact hm)
  | drop hv => exact sound_of_cache hs fun m _ hm => .inl (by cases k <;> exact hm)
  | visit h _ => exact (h.sound hp hfit hs).1

lemma Fits.of_after (h : k.Fits base p.defs) (hf : k.After p q) : k.Fits base q.defs :=
  h.of_alike fun ns e he => by
    obtain ⟨d, hd, hde⟩ := hf.settles ns e he
    exact ⟨d, hd, hde.toAlike⟩

lemma Turns.sound (h : k.Turns halts p q) (hp : k.Sane p) (hfit : k.Fits base p.defs)
    (hs : k.Sound base p.defs) : k.Sound base q.defs := by
  induction h with
  | refl => exact hs
  | tail hinit hlast ih =>
    obtain ⟨hq, hafter⟩ := Turns.sane_after hinit hp
    exact hlast.sound hq (hfit.of_after hafter) ih

lemma Marked.cache {ns : Names} (h : k.Marked ns ds ds') (j : Pointer) :
    j.cache ds' = j.cache ds := by
  have := congrArg j.cache h.rest
  cases j <;> exact this

lemma cache_unnoted : j.cache (k.unnoted ds) = j.cache ds := by
  cases k <;> cases j <;> rfl

variable {ok : Bool}

lemma Closing.sound (h : k.Closing ds ok p)
    (hk : ds.Keyed) (hfit : k.Fits base ds) (hs : k.Sound base ds) : k.Sound base p.defs := by
  have hun : k.Sound base (k.unnoted ds) :=
    sound_of_cache hs fun m xs hm => .inl (by rwa [cache_unnoted] at hm)
  have hfun : k.Fits base (k.unnoted ds) :=
    hfit.of_alike fun ns e he => ⟨e, by rwa [get?_unnoted] at he, alike_refl e⟩
  cases h with
  | first _ ht _ _ => exact ht.sound (sane_start hk []) hfit hs
  | idle _ _ => exact hun
  | later _ _ hm ht _ _ =>
    refine ht.sound (hm.sane (keyed_unnoted hk) _) (hfun.of_alike fun _ e he => hm.alike he) ?_
    exact sound_of_cache hun fun m xs hmx => .inl (by rwa [hm.cache] at hmx)
  | refused _ hm _ =>
    exact sound_of_cache hun fun m _ hmx => .inl (by rwa [hm.cache] at hmx)

lemma Closing.grows (h : k.Closing ds ok p) (hk : ds.Keyed) (j : Pointer) : j.Grows ds p.defs := by
  intro ns d hd
  have hkey : ns ∈ p.defs.current.keys := by
    rw [h.keys hk]
    exact Table.mem_keys_iff.mpr (contains_of_get? hd)
  obtain ⟨e, he⟩ := contains_iff.mp (Table.mem_keys_iff.mp hkey)
  obtain ⟨d', hd', ha⟩ := h.alike hk he
  obtain rfl : d = d' := Option.some.inj (hd.symm.trans hd')
  exact ⟨e, he, fun x _ => by rwa [ha.pointer j]⟩

lemma Closing.other (h : k.Closing ds ok p) (hk : ds.Keyed) (hj : j ≠ k) :
    j.cache p.defs = j.cache ds := by
  have hsame := congrArg j.cache (h.untouched hk)
  cases k <;> cases j
  · exact absurd rfl hj
  · exact hsame
  · exact hsame
  · exact absurd rfl hj

lemma Sound.edit (hs : k.Sound ds ds) (he : Edit false ds ds') : k.Sound ds' ds' := by
  intro ns x hx
  have hclosure : k.closure ds' ns = k.closure ds ns := closure_congr (by rw [cache_of_edit he])
  rw [hclosure] at hx
  exact (hs ns x hx).mono (grows_of_edit he)

lemma Sound.closing (hs : k.Sound ds ds) (hwf : ds.WellFormed) (hc : j.Closing ds ok p) :
    k.Sound p.defs p.defs := by
  have hgrows := hc.grows hwf.keyed k
  have hs' : k.Sound p.defs ds := fun ns x hx => (hs ns x hx).mono hgrows
  by_cases hj : k = j
  · subst hj
    exact hc.sound hwf.keyed ⟨hgrows, hwf.tidy⟩ hs'
  · exact sound_of_cache hs' fun _ _ hx => .inl (by rwa [hc.other hwf.keyed hj] at hx)

end Pointer

namespace Definitions

lemma sound_run {ops : List Op} (h : ∀ op ∈ ops, op.isAssign = false) (k : Pointer) :
    k.Sound (run ops {}) (run ops {}) := by
  refine (run_induction false (I := fun ds => k.Sound ds ds) ?_ ?_ ?_ wellFormed_empty ?_).2
  · exact fun ds _ _ he hs => hs.edit he
  · exact fun j _ _ p hwf _ hc hs => hs.closing hwf hc
  · intro op hop ha
    rw [h op hop] at ha
    cases ha
  · intro ns x hx
    cases k <;> cases hx

/-- In every state of a run without assignments, a closure holds nothing but the namespace and what
its pointers lead to, and so do its taints, with the marks of sinks. -/
theorem mem_caches_reached (ops : List Op) (h : ∀ op ∈ ops, op.isAssign = false) (d x : String) :
    (x ∈ (run ops {}).closure.getD d [] → x = d ∨ TransGen (Pointer.names.Edge (run ops {})) d x) ∧
    (x ∈ (run ops {}).taints.getD d [] → x = d ∨ TransGen (Pointer.taints.Edge (run ops {})) d x ∨
        isSinkMark x = true ∧ ∃ b e, ReflTransGen (Pointer.taints.Edge (run ops {})) d b ∧
          (run ops {}).get? b = some e ∧ x ∈ e.taints.names) := by
  refine ⟨fun hx => ?_, fun hx => ?_⟩
  · exact (sound_run h .names d x hx).imp_right reaches_names_iff.mp
  · exact (sound_run h .taints d x hx).imp_right reaches_taints_iff.mp

/-- Two definitions that point to each other, and a taint that leads to a sink. -/
def cycleOps : List Op :=
  [.var "a", .var "b",
    .addName { ns := "a" } (.str "b"), .addName { ns := "b" } (.str "a"), .closeNames,
    .addTaint { ns := "a" } (.str "b"), .addTaint { ns := "b" } (.str "Taint-Sink-s"),
    .closeNames, .closeTaints]

theorem mem_caches_reached_cycle : "Taint-Sink-s" ∈ (run cycleOps {}).taints.getD "a" [] ∧
      ("Taint-Sink-s" = "a" ∨ TransGen (Pointer.taints.Edge (run cycleOps {})) "a" "Taint-Sink-s" ∨
        isSinkMark "Taint-Sink-s" = true ∧
          ∃ b e, ReflTransGen (Pointer.taints.Edge (run cycleOps {})) "a" b ∧
            (run cycleOps {}).get? b = some e ∧ "Taint-Sink-s" ∈ e.taints.names) := by
  have hmem : "Taint-Sink-s" ∈ (run cycleOps {}).taints.getD "a" [] := by decide +kernel
  have hops : ∀ op ∈ cycleOps, op.isAssign = false := by simp [cycleOps, Op.isAssign]
  exact ⟨hmem, (mem_caches_reached cycleOps hops "a" "Taint-Sink-s").2 hmem⟩

end Definitions

end SinkTrace
