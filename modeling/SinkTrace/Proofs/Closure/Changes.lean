import SinkTrace.Proofs.Closure.Soundness

/-!
# Noted changes

Every definition with a change is noted down, so a later computation finds it among the affected
namespaces and takes its change in. After the closures of the names have been computed no change of
names is left, and the computation of the taints can mark what it affects.
-/

namespace SinkTrace

open Definitions Pointer Relation List

variable {x : String}

namespace Definitions

/-! ### What is affected -/

lemma mem_firsts {names : Names} : x ∈ firsts names ↔ x ∈ names := by
  have h : ∀ (names out : Names),
      x ∈ names.foldl (fun out n => if out.contains n then out else out ++ [n]) out ↔
        x ∈ out ∨ x ∈ names := by
    intro names
    induction names with
    | nil => simp
    | cons n names ih =>
      intro out
      rw [foldl_cons, ih, mem_cons]
      split_ifs with hc
      · have hn : n ∈ out := contains_iff_mem.mp hc
        constructor
        · exact Or.imp_right .inr
        · rintro (hx | rfl | hx)
          exacts [.inl hx, .inl hn, .inr hx]
      · rw [mem_append, mem_singleton, or_assoc]
  exact (h names []).trans (by simp)

lemma mem_above (reverse : NameTable) (known : Names) (first : Bool) (depth : Nat)
    (ns : String) (s : Names × Names) (hx : x ∈ s.2) :
    x ∈ (above reverse known first depth ns s).2 := by
  induction depth generalizing first ns s with
  | zero => exact hx
  | succ depth ih =>
    obtain ⟨visited, out⟩ := s
    have hfold : ∀ (ups : Names) (s : Names × Names), x ∈ s.2 →
        x ∈ (ups.foldl (fun s up => above reverse known false depth up s) s).2 := fun ups s hs =>
      foldlRecOn ups _ (motive := fun s => x ∈ s.2) hs fun s hs up _ => ih false up s hs
    rw [above]
    split_ifs
    · exact hx
    · exact hfold _ _ (mem_append_left _ hx)
    · exact mem_append_left _ (hfold _ _ hx)

lemma mem_above_self {reverse : NameTable} {known : Names} {first : Bool} {depth : Nat}
    {ns : String} (hns : known.contains ns = false) :
    ns ∈ (above reverse known first (depth + 1) ns ([], [])).2 := by
  have hfold : ∀ (ups : Names) (s : Names × Names), ns ∈ s.2 →
      ns ∈ (ups.foldl (fun s up => above reverse known false depth up s) s).2 := fun ups s hs =>
    foldlRecOn ups _ (motive := fun s => ns ∈ s.2) hs fun s hs up _ =>
      mem_above reverse known false depth up s hs
  rw [above]
  simp only [contains_nil, hns, Bool.or_false, Bool.false_eq_true, if_false]
  cases first with
  | true => exact hfold _ _ (mem_append_right _ mem_cons_self)
  | false => exact mem_append_right _ mem_cons_self

end Definitions

namespace Pointer

variable {k : Pointer} {d : Definition} {ds ds' : Definitions} {p : Pass} {j : Pointer}
  {ns : String} {ok : Bool} {r : DefRef} {work : Names}

/-- What lies above a namespace and is not in the list yet. -/
def upwards : Pointer → Definitions → Names → String → Names
  | names, ds, work, ns => (above ds.reverseClosure work true 6 ns ([], [])).2
  | taints, ds, work, ns => (above ds.reverseTaints work false 11 ns ([], [])).2

def affect (k : Pointer) (ds : Definitions) (work : Names) (r : DefRef) : Names :=
  match ds.find? r with
  | none => work
  | some d =>
    let work := work ++ (k.added d).names
    if work.contains d.ns then work
    else if k.changed d || !(k.cache ds).contains d.ns then work ++ k.upwards ds work d.ns
    else work

lemma affectedBy_eq (k : Pointer) (ds : Definitions) :
    k.affectedBy ds = firsts ((k.noted ds).foldl (k.affect ds) []) := by
  cases k <;> rfl

lemma mem_affect_of_mem (hx : x ∈ work) : x ∈ k.affect ds work r := by
  unfold affect
  cases ds.find? r with
  | none => exact hx
  | some d =>
    dsimp only
    split_ifs
    · exact mem_append_left _ hx
    · exact mem_append_left _ (mem_append_left _ hx)
    · exact mem_append_left _ hx

lemma mem_upwards_self (hns : work.contains ns = false) : ns ∈ k.upwards ds work ns := by
  cases k <;> exact mem_above_self hns

lemma mem_affect_self (work : Names) (hf : ds.find? r = some d) (hc : k.changed d) :
    d.ns ∈ k.affect ds work r := by
  simp only [affect, hf, hc, Bool.true_or, if_true]
  split_ifs with hw
  · exact contains_iff_mem.mp hw
  · exact mem_append_right _ (mem_upwards_self (Bool.eq_false_iff.mpr hw))

lemma mem_affectedBy (hk : ds.Keyed) (hd : ds.get? ns = some d) (hc : k.changed d)
    (hn : ⟨ns, d.revision⟩ ∈ k.noted ds) : ns ∈ k.affectedBy ds := by
  have hf : ds.find? ⟨ns, d.revision⟩ = some d := find?_of_current hd rfl
  have hmono : ∀ (rs : List DefRef) (work : Names), ns ∈ work →
      ns ∈ rs.foldl (k.affect ds) work := fun rs work h =>
    foldlRecOn rs _ h fun _ h r _ => mem_affect_of_mem h
  have hfold : ∀ (rs : List DefRef) (work : Names), ⟨ns, d.revision⟩ ∈ rs →
      ns ∈ rs.foldl (k.affect ds) work := by
    intro rs
    induction rs with
    | nil => exact nofun
    | cons r rs ih =>
      intro work hr
      rcases mem_cons.mp hr with rfl | hr
      · have hself := mem_affect_self work hf hc
        rw [hk ns d hd] at hself
        exact hmono rs _ hself
      · exact ih _ hr
  rw [affectedBy_eq, mem_firsts]
  exact hfold _ [] hn

/-! ### Every change is noted down -/

def Listed (k : Pointer) (ds : Definitions) : Prop :=
  ∀ ns d, ds.get? ns = some d → k.changed d = true → ⟨ns, d.revision⟩ ∈ k.noted ds

lemma Listed.edit {replace : Bool} (h : k.Listed ds) (he : Edit replace ds ds') : k.Listed ds' := by
  intro ns e hget hc
  rcases he.origin hget with ⟨hb, -, -⟩ | ⟨d, hd, hg⟩
  · cases k <;> simp [changed, hb.change, Change.hasNames, Change.hasTaints] at hc
  · have hnew : k.changed d ∨ ⟨ns, e.revision⟩ ∈ k.noted ds' := by
      cases k
      · exact hg.names_listed hc
      · exact hg.taints_listed hc
    rcases hnew with hold | hnew
    · have hmem := h ns d hd hold
      rw [← hg.gains.revision] at hmem
      cases k
      · exact he.lists.names _ hmem
      · exact he.lists.taints _ hmem
    · exact hnew

lemma Closing.calm (h : k.Closing ds true p) (hk : ds.Keyed) (hl : k.Listed ds) {e : Definition}
    (he : p.defs.get? ns = some e) : k.changed e = false := by
  have haffected : ∀ d, ds.get? ns = some d → k.changed d → ns ∈ k.affectedBy ds :=
    fun d hd hc => mem_affectedBy hk hd hc (hl ns d hd hc)
  cases h with
  | first _ ht hs _ =>
    have hkey : ns ∈ p.defs.current.keys := Table.mem_keys_iff.mpr (contains_of_get? he)
    rw [(ht.sane_after (sane_start hk [])).2.keys] at hkey
    exact (hs rfl ns hkey e he).1
  | idle _ ha =>
    rw [get?_unnoted] at he
    rw [Bool.eq_false_iff]
    intro hc
    have hmem := haffected e he hc
    rw [ha] at hmem
    cases hmem
  | later _ _ hm ht hs _ =>
    by_cases hin : ns ∈ k.affectedBy ds
    · exact (hs rfl ns hin e he).1
    · obtain ⟨d, hd, hset⟩ := (ht.sane_after (hm.sane (keyed_unnoted hk) _)).2.settles ns e he
      rw [hm.get, if_neg hin, get?_unnoted] at hd
      rw [Bool.eq_false_iff]
      exact fun hc => hin (haffected d hd (hset.changed k hc))

lemma noted_outside (h : k.outside ds' = k.outside ds) : j.noted ds' = j.noted ds := by
  have := congrArg j.noted h
  cases k <;> cases j <;> exact this

lemma Marked.noted {ns : Names} (h : k.Marked ns ds ds') : j.noted ds' = j.noted ds := by
  have := congrArg j.noted h.rest
  cases j <;> exact this

lemma noted_unnoted (hj : j ≠ k) : j.noted (k.unnoted ds) = j.noted ds := by
  cases k <;> cases j
  · exact absurd rfl hj
  · rfl
  · rfl
  · exact absurd rfl hj

lemma changed_mark (hj : j ≠ k) (h : j.changed (k.mark d)) : j.changed d := by
  cases k <;> cases j
  · exact absurd rfl hj
  · simpa [changed, mark] using h
  · cases h
  · exact absurd rfl hj

lemma Closing.unchanged_other (h : k.Closing ds ok p) (hk : ds.Keyed) (hj : j ≠ k) :
    j.noted p.defs = j.noted ds ∧ ∀ ns e, p.defs.get? ns = some e → j.changed e →
      ∃ d, ds.get? ns = some d ∧ d.revision = e.revision ∧ j.changed d := by
  have hmark : ∀ {done : Names} {ds' : Definitions}, k.Marked done (k.unnoted ds) ds' →
      ∀ ns e, ds'.get? ns = some e → j.changed e →
        ∃ d, ds.get? ns = some d ∧ d.revision = e.revision ∧ j.changed d := by
    intro done ds' hm ns e he hc
    obtain ⟨d, hd, ha⟩ := hm.alike he
    rw [hm.get] at he
    rw [get?_unnoted] at hd he
    refine ⟨d, hd, ha.revision.symm, ?_⟩
    split_ifs at he
    · rw [hd, Option.map_some, Option.some.injEq] at he
      exact changed_mark hj (he ▸ hc)
    · obtain rfl := Option.some.inj (hd.symm.trans he)
      exact hc
  have hnoted : ∀ {done : Names} {ds' : Definitions}, k.Marked done (k.unnoted ds) ds' →
      j.noted ds' = j.noted ds :=
    fun hm => hm.noted.trans (noted_unnoted hj)
  cases h with
  | first _ ht _ _ =>
    have hafter := (ht.sane_after (sane_start hk [])).2
    refine ⟨noted_outside hafter.outside, fun ns e he hc => ?_⟩
    obtain ⟨d, hd, hs⟩ := hafter.settles ns e he
    exact ⟨d, hd, hs.revision.symm, hs.changed j hc⟩
  | idle _ _ =>
    refine ⟨noted_unnoted hj, fun ns e he hc => ⟨e, ?_, rfl, hc⟩⟩
    rwa [get?_unnoted] at he
  | later _ _ hm ht _ _ =>
    have hafter := (ht.sane_after (hm.sane (keyed_unnoted hk) _)).2
    refine ⟨(noted_outside hafter.outside).trans (hnoted hm), fun ns f hf hc => ?_⟩
    obtain ⟨e, he, hs⟩ := hafter.settles ns f hf
    obtain ⟨d, hd, hr, hcd⟩ := hmark hm ns e he (hs.changed j hc)
    exact ⟨d, hd, hr.trans hs.revision.symm, hcd⟩
  | refused _ hm _ => exact ⟨hnoted hm, hmark hm⟩

lemma Listed.other (h : j.Listed ds) (hk : ds.Keyed) (hc : k.Closing ds ok p) (hj : j ≠ k) :
    j.Listed p.defs := by
  obtain ⟨hnoted, hch⟩ := hc.unchanged_other hk hj
  intro ns e he hce
  obtain ⟨d, hd, hr, hcd⟩ := hch ns e he hce
  rw [hnoted, ← hr]
  exact h ns d hd hcd

lemma Listed.closing (h : k.Listed ds) (hk : ds.Keyed) (hc : k.Closing ds true p) :
    k.Listed p.defs := by
  intro ns e he hce
  rw [hc.calm hk h he] at hce
  cases hce

end Pointer

namespace Search

variable {k : Pointer} {p q : Pass} {t : Task} {o : Option Names}

def AllReadable (k : Pointer) (ds : Definitions) : Prop :=
  ∀ ns d, ds.get? ns = some d → k.Readable (k.pointer d) ∧ k.Readable (k.added d)

lemma AllReadable.of_alike {ds ds' : Definitions} (h : AllReadable k ds)
    (ha : ∀ ns e, ds'.get? ns = some e → ∃ d, ds.get? ns = some d ∧ Alike d e) :
    AllReadable k ds' := by
  intro ns e he
  obtain ⟨d, hd, hde⟩ := ha ns e he
  obtain ⟨hpointer, hadded⟩ := h ns d hd
  refine ⟨hde.pointer k ▸ hpointer, ?_⟩
  rcases hde.added k with hadd | hadd
  · exact hadd ▸ hadded
  · rw [hadd]
    cases k
    · trivial
    · exact .inl rfl

lemma AllReadable.of_frame (h : AllReadable k p.defs) (hf : k.Frame p q) : AllReadable k q.defs :=
  h.of_alike fun ns e he => by
    obtain ⟨d, hd, hde⟩ := hf.fades ns e he
    exact ⟨d, hd, hde.settles.toAlike⟩

lemma outcome (h : Search k p t o q) (hp : k.Sane p) (hr : AllReadable k p.defs) : o ≠ none := by
  induction h with
  | stopFresh hd ho hf hstop ihf =>
    have hop := hp.opening hd ho hf.sane_frame
    have hread := hr _ _ hd
    rcases hstop with hnone | hnot
    · exact absurd hnone (ihf hop.sane_enter (hr.of_frame hop.frame_enter))
    · refine absurd ?_ hnot
      unfold fresh
      split_ifs
      · exact hread.1
      · exact hread.2
  | stopRest hd ho hf hs ihf ihs =>
    have hop := hp.opening hd ho hf.sane_frame
    exact ihs hop.sane_settle (hr.of_frame (hop.frame_fresh.trans hop.frame_settle))
  | skip hn hskip hs ih => exact ih hp hr
  | step hn hd hm hv hs ihv ihs =>
    obtain ⟨hp₁, hfr⟩ := hv.sane_frame hp
    exact ihs hp₁ (hr.of_frame hfr)
  | stop hn hd hm hv ih => exact absurd rfl (ih hp hr)
  | _ => exact nofun

end Search

namespace Definitions

lemma listed_run (ops : List Op) : (run ops {}).WellFormed ∧ Pointer.names.Listed (run ops {}) := by
  refine run_induction true ?_ ?_ (fun _ _ _ => rfl) wellFormed_empty nofun
  · exact fun ds _ _ he h => h.edit he
  · intro k ds ok p hwf hok hc h
    cases k with
    | names =>
      obtain rfl : ok := hok rfl
      exact h.closing hwf.keyed hc
    | taints => exact h.other hwf.keyed hc nofun

lemma markTaints_ok (ns : Names) {p : Pass}
    (hp : ∀ n d, p.defs.get? n = some d → d.change.hasNames = false) :
    (ns.forM markTaints p).1 = .ok () := by
  rcases marked_forM (k := .taints) ns p with ⟨ds', heq, -⟩ | ⟨-, n, -, d, hd, hc⟩
  · exact congrArg Prod.fst heq
  · cases (hp n d hd).symm.trans hc

lemma allReadable_taints {ds : Definitions} (hwf : ds.WellFormed)
    (hnames : ∀ ns d, ds.get? ns = some d → d.taints.scalars = []) :
    Search.AllReadable .taints ds := by
  intro ns d hd
  have hnil := hnames ns d hd
  exact ⟨.inl hnil, .inl ((hwf.tidy ns d hd).addedTaints_names hnil)⟩

lemma not_stops_of_readable {k : Pointer} {p : Pass} (hp : k.Sane p)
    (hr : Search.AllReadable k p.defs) : ¬ k.Stops p := by
  rintro ⟨q, r, n, hq, hs⟩
  obtain ⟨hq', hafter⟩ := Turns.sane_after hq hp
  refine hs.outcome hq' (hr.of_alike fun ns e he => ?_) rfl
  obtain ⟨d, hd, hset⟩ := hafter.settles ns e he
  exact ⟨d, hd, hset.toAlike⟩

/-- Taint pointers that hold names only get their taints where no names have changed. -/
lemma closeTaints_ok {ds : Definitions} (hwf : ds.WellFormed)
    (hcalm : ds.taints.isEmpty ∨ ∀ ns d, ds.get? ns = some d → d.change.hasNames = false)
    (hnames : ∀ ns d, ds.get? ns = some d → d.taints.scalars = []) :
    (closeTaints ds).1 = .ok () := by
  have hread := allReadable_taints hwf hnames
  obtain ⟨ok, p, hc, -, hok⟩ := closing_closeTaints hwf.keyed
  cases ok with
  | true => exact hok.mp rfl
  | false =>
    exfalso
    cases hc with
    | first _ _ _ hst => exact not_stops_of_readable (sane_start hwf.keyed []) hread (hst rfl)
    | later _ _ hm _ _ hst =>
      refine not_stops_of_readable (hm.sane (keyed_unnoted hwf.keyed) _)
        (hread.of_alike fun _ e he => ?_) (hst rfl)
      obtain ⟨d, hd, ha⟩ := hm.alike he
      exact ⟨d, by rwa [get?_unnoted] at hd, ha⟩
    | refused hne _ hn =>
      obtain ⟨n, -, d, hd, hch⟩ := hn
      rcases hcalm with he | hcalm
      · cases hne.symm.trans he
      · cases (hcalm n d hd).symm.trans hch

/-- After any run the closures of the names leave no change of names, so the computation of the
taints comes to its end if the taint pointers hold names only. -/
theorem closeTaints_unhindered (ops : List Op) :
    (∀ ns d, (closeNames (run ops {})).get? ns = some d → d.change ≠ .names ∧ d.change ≠ .both) ∧
    ((affectedByTaints (closeNames (run ops {}))).forM markTaints
      { defs := { closeNames (run ops {}) with changedTaints := [] }
        affected := affectedByTaints (closeNames (run ops {})) }).1 = .ok () ∧
    ((∀ ns d, (run ops {}).get? ns = some d → d.taints.scalars = []) →
      (closeTaints (closeNames (run ops {}))).1 = .ok ()) := by
  obtain ⟨hwf, hlisted⟩ := listed_run ops
  obtain ⟨p, hc, heq⟩ := closing_closeNames hwf.keyed
  have hcalm : ∀ ns d, (closeNames (run ops {})).get? ns = some d → d.change.hasNames = false := by
    rw [heq]
    exact fun ns d hd => hc.calm hwf.keyed hlisted hd
  refine ⟨fun ns d hd => ?_, markTaints_ok _ hcalm, fun hnames => ?_⟩
  · have := hcalm ns d hd
    constructor <;> intro hch <;> rw [hch] at this <;> cases this
  · refine closeTaints_ok (heq ▸ hwf.closing hc) (.inr hcalm) fun ns e he => ?_
    rw [heq] at he
    obtain ⟨d, hd, ha⟩ := hc.alike hwf.keyed he
    exact (congrArg PointSet.scalars (ha.pointer .taints)).trans (hnames ns d hd)

/-- Both pointers of a definition change after its closures were computed. -/
def bothOps : List Op :=
  [.var "a", .var "b", .addName { ns := "a" } (.str "b"), .addTaint { ns := "a" } (.str "b"),
    .closeNames, .closeTaints,
    .assign "b" { ns := "a" } (some "m"), .addTaint { ns := "a" } (.str "Taint-Sink-s"),
    .addName { ns := "a" } (.str "c")]

theorem closeTaints_unhindered_both : ((run bothOps {}).get? "a").map (·.change) = some .both ∧
      (∀ ns d, (run bothOps {}).get? ns = some d → d.taints.scalars = []) ∧
        (closeTaints (closeNames (run bothOps {}))).1 = .ok () := by
  have hnames : ∀ ns d, (run bothOps {}).get? ns = some d → d.taints.scalars = [] := by
    have hall : (run bothOps {}).current.entries.all (·.2.taints.scalars.isEmpty) = true := by
      decide +kernel
    intro ns d hd
    exact List.isEmpty_iff.mp (List.all_eq_true.mp hall _ (Table.mem_entries_of_get? hd))
  exact ⟨by decide +kernel, hnames, (closeTaints_unhindered bothOps).2.2 hnames⟩

end Definitions

end SinkTrace
