import SinkTrace.Proofs.Closure.Closing

/-!
# What stays of a definition table

No operation takes a definition away, and what a definition points to it goes on pointing to, until
another definition takes its place. The closures change nothing that a definition points to.
-/

namespace SinkTrace

open Pointer Act

/-- The definition `d` is there as `e`, unless another one has taken its place. -/
def Definition.Persists (d e : Definition) : Prop :=
  d.revision < e.revision ∨ (e.revision = d.revision ∧ d.name.Within e.name ∧ d.lits ⊆ e.lits ∧
      d.taints.Within e.taints)

namespace Definition

lemma Gains.persists {d e : Definition} (h : d.Gains e) : d.Persists e :=
  .inr ⟨h.revision, h.name, h.lits, h.taints⟩

lemma Persists.refl (d : Definition) : d.Persists d := (Quiet.refl d).gains.persists

lemma Persists.trans {d e f : Definition} (h : d.Persists e) (h' : e.Persists f) :
    d.Persists f := by
  rcases h with h | ⟨hr, hn, hl, ht⟩ <;> rcases h' with h' | ⟨hr', hn', hl', ht'⟩
  · exact .inl (Nat.lt_trans h h')
  · exact .inl (hr' ▸ h)
  · exact .inl (hr ▸ h')
  · exact .inr ⟨hr'.trans hr, hn.trans hn', List.Subset.trans hl hl', ht.trans ht'⟩

end Definition

namespace Definitions

open Relation

variable {replace : Bool} {f : Definition → Definition} {ds ds' : Definitions} {ns : String}
  {module : Option String} {d : Definition} {l : Literal}

def Develops (ds ds' : Definitions) : Prop :=
  ∀ ns d, ds.get? ns = some d → ∃ e, ds'.get? ns = some e ∧ d.Persists e

lemma Develops.refl : Develops ds ds := fun _ d h => ⟨d, h, .refl d⟩

lemma Develops.trans {a b c : Definitions} (h : Develops a b) (h' : Develops b c) :
    Develops a c := by
  intro ns d hd
  obtain ⟨e, he, hde⟩ := h ns d hd
  obtain ⟨f, hf, hef⟩ := h' ns e he
  exact ⟨f, hf, hde.trans hef⟩

lemma Develops.contains (h : Develops ds ds') (hns : ds.contains ns) : ds'.contains ns := by
  obtain ⟨d, hd⟩ := contains_iff.mp hns
  obtain ⟨e, he, -⟩ := h ns d hd
  exact contains_of_get? he

lemma develops_adjustAt (ds : Definitions) (h : ∀ d : Definition, d.Persists (f d)) :
    Develops ds (ds.adjustAt ns f) := by
  intro m d hd
  rw [get?_adjustAt]
  split_ifs
  · exact ⟨f d, congrArg (Option.map f) hd, h d⟩
  · exact ⟨d, hd, .refl d⟩

lemma develops_put {kind : DefKind} : Develops ds (ds.put ns kind module) := by
  intro m d hd
  by_cases hm : m = ns
  · subst hm
    refine ⟨{ ns := m, kind, module, revision := d.revision + 1 }, ?_, .inl (Nat.lt_succ_self _)⟩
    simp only [put, hd]
    exact Table.get?_set_self
  · obtain ⟨e, -, -, hget⟩ := get?_put ds ns m kind module
    exact ⟨d, by rw [hget, if_neg hm, hd], .refl d⟩

lemma Edit.develops (h : Edit replace ds ds') : Develops ds ds' := by
  have hkept : Edit false ds ds' → Develops ds ds' := by
    intro h ns d hd
    obtain ⟨e, he, hg⟩ := h.kept hd
    exact ⟨e, he, hg.persists⟩
  cases h with
  | put kind module h => exact develops_put
  | quiet h => exact hkept (.quiet h)
  | past retired => exact hkept (.past retired)
  | names r s => exact hkept (.names r s)
  | taints r s => exact hkept (.taints r s)

lemma Edits.develops (h : Edits replace ds ds') : Develops ds ds' := by
  induction h with
  | refl => exact .refl
  | tail _ hlast ih => exact ih.trans hlast.develops

/-! ### Operations -/

/-- Every definition of `ds` is there in `ds'`. -/
structure Enriches (ds ds' : Definitions) : Prop where
  develops : Develops ds ds'
  keyed : ds.Keyed → ds'.Keyed

lemma Enriches.trans {a b c : Definitions} (h : Enriches a b) (h' : Enriches b c) : Enriches a c :=
  ⟨h.develops.trans h'.develops, fun ha => h'.keyed (h.keyed ha)⟩

lemma Edits.enriches (h : Edits replace ds ds') : Enriches ds ds' where
  develops := h.develops
  keyed hkeyed := by
    induction h with
    | refl => exact hkeyed
    | tail _ hlast ih => exact ih.edit hlast

lemma Edit.enriches (h : Edit replace ds ds') : Enriches ds ds' := Edits.enriches (.single h)

variable (ds) (r : DefRef)

lemma enriches_addName : Enriches ds (ds.addName r l) :=
  Edit.enriches (edit_addOneTo .names ds r l : Edit false _ _)

lemma enriches_addTaint : Enriches ds (ds.addTaint r l) :=
  Edit.enriches (edit_addOneTo .taints ds r l : Edit false _ _)

lemma enriches_addNames {s : PointSet} : Enriches ds (ds.addNames r s) :=
  Edit.enriches (.names r s : Edit false _ _)

lemma enriches_adjust (h : ∀ d, Definition.Quiet d (f d)) : Enriches ds (ds.adjust r f) :=
  Edit.enriches (edit_adjust_quiet fun d _ _ => h d : Edit false _ _)

lemma enriches_addLiteral : Enriches ds (ds.addLiteral r l) :=
  ds.enriches_adjust r fun d => d.quiet_lits (Scalars.subset_add _)

lemma enriches_merge {e : Definition} : Enriches ds (ds.merge r e) :=
  Edits.enriches (edits_merge : Edits false _ _)

variable {ds}

lemma enriches_assign (ds : Definitions) {r : DefRef} :
    Enriches ds (ds.assign ns r module) := Edits.enriches edits_assign

lemma enriches_complete (ds : Definitions) : Enriches ds ds.complete :=
  Edits.enriches edits_complete

/-! ### References -/

lemma gives_create {tag : String} : Gives (fun r => r.ns = ns) (create ns tag module) := by
  intro ds r ds' h
  rcases create_cases ds ns tag module with ⟨e, he⟩ | ⟨-, he⟩
  · rw [he] at h
    cases h
  · rw [he] at h
    cases h
    rfl

section Keyed

variable {r : DefRef} {parent name : String}

lemma Keyed.ns_ref? (hkeyed : ds.Keyed) (h : ds.ref? ns = some r) : r.ns = ns := by
  obtain ⟨d, hd, rfl⟩ := Option.map_eq_some_iff.mp h
  exact hkeyed ns d hd

lemma Keyed.ns_classDef (hkeyed : ds.Keyed) (h : classDef parent name module ds = (.ok r, ds')) :
    r.ns = Text.dotted [parent, name] := by
  unfold classDef at h
  rw [run_bind, run_get] at h
  dsimp only at h
  cases href : ds.ref? (Text.dotted [parent, name]) with
  | some found =>
    rw [href] at h
    cases h
    exact hkeyed.ns_ref? href
  | none =>
    rw [href] at h
    exact gives_create _ _ _ h

lemma Keyed.ns_function (hkeyed : ds.Keyed) (h : function parent name module ds = (.ok r, ds')) :
    r.ns = Text.dotted [parent, name] := by
  have hret (r : DefRef) :
      Gives (· = r) (ensureReturn (returnNs (Text.dotted [parent, name])) r) := by
    refine gives_bind _ fun ds => ?_
    split_ifs
    · exact .pure rfl
    · refine gives_bind _ fun _ => gives_bind _ fun _ => gives_bind _ fun _ => ?_
      exact .pure rfl
  unfold function at h
  rw [run_bind, run_get] at h
  dsimp only at h
  cases href : ds.ref? (Text.dotted [parent, name]) with
  | some found =>
    rw [href] at h
    rw [hret found _ _ _ h]
    exact hkeyed.ns_ref? href
  | none =>
    rw [href] at h
    obtain ⟨made, ds₁, hmade, h⟩ := of_bind h
    obtain ⟨_, ds₂, -, h⟩ := of_bind h
    rw [hret made _ _ _ h]
    exact gives_create _ _ _ hmade

end Keyed

/-! ### The closures -/

def Pass.Develops (p q : Pass) : Prop := Definitions.Develops p.defs q.defs

lemma persists_note {change : Change} {addedNames addedTaints : PointSet} :
    d.Persists { d with change, addedNames, addedTaints } :=
  .inr ⟨rfl, .refl _, List.Subset.refl _, .refl _⟩

section Closures

variable {k : Pointer} {visit : String → TaintPass Names} {fuel : Nat}

lemma leads_adjustAt (h : ∀ d : Definition, d.Persists (f d)) : Leads Pass.Develops
      (modify fun p : Pass => { p with defs := p.defs.adjustAt ns f }) :=
  .modify fun p => .single (p.defs.develops_adjustAt h)

lemma leads_follow (hvisit : ∀ n, Leads Pass.Develops (visit n)) {later : Bool}
    (self : Option String) {ns : Names} (acc : Names) :
    Leads Pass.Develops (k.follow visit later self ns acc) := by
  induction ns generalizing acc with
  | nil => exact .pure
  | cons n ns ih =>
    refine .ite .pure (Leads.get.bind fun p => ?_)
    exact .ite (ih acc) ((hvisit n).bind fun _ => ih _)

lemma leads_one (hvisit : ∀ n, Leads Pass.Develops (visit n)) :
    Leads Pass.Develops (k.one visit d) := by
  refine Leads.get.bind fun p => Leads.bind (.modify fun p => ?_) fun _ => ?_
  · cases k <;> exact .single (p.defs.develops_adjustAt fun d => persists_note)
  refine (leads_follow hvisit _ _).bind fun found => ?_
  refine Leads.bind (.ite .pure .throw) fun _ => ?_
  refine Leads.bind (.modify fun p => ?_) fun _ => ?_
  · split_ifs
    · exact .refl
    · cases k <;> exact .single (p.defs.develops_adjustAt fun d => persists_note)
  refine (leads_follow hvisit _ _).bind fun _ => ?_
  refine Leads.bind (.modify fun p => ?_) fun _ => .pure
  cases k <;> exact .single Develops.refl

lemma leads_visit (ns : String) : Leads Pass.Develops (k.visit fuel ns) := by
  induction fuel generalizing ns with
  | zero => exact Leads.get.bind fun p => .pure
  | succ fuel ih =>
    refine Leads.get.bind fun p => ?_
    cases p.defs.get? ns with
    | none => exact .pure
    | some d =>
      cases (k.cache p.defs).get? ns with
      | none => exact leads_one ih
      | some known => exact .ite .pure (leads_one ih)

lemma leads_first : Leads Pass.Develops (k.first fuel ns) := by
  refine (leads_adjustAt fun d => persists_note).bind fun _ => ?_
  refine Leads.get.bind fun p => .ite .pure ?_
  exact (leads_visit ns).bind fun _ => .pure

lemma leads_markOne : Leads Pass.Develops (k.markOne ns) := by
  refine Leads.get.bind fun p => ?_
  cases p.defs.get? ns with
  | none => exact .pure
  | some d =>
    refine Leads.throw.when (leads_adjustAt fun d => ?_)
    cases k <;> exact persists_note

lemma leads_later : Leads Pass.Develops (k.later fuel ns) := by
  refine Leads.get.bind fun p => .ite .pure ?_
  refine Leads.get.bind fun p => .ite (leads_adjustAt fun d => ?_) ?_
  · cases k <;> exact persists_note
  · exact (leads_visit ns).bind fun _ => .pure

lemma develops_compute (ds : Definitions) : Develops ds (k.compute ds).2 := by
  have hrun {a : TaintPass Unit} (ha : Leads Pass.Develops a) (p : Pass) :
      Pass.Develops p (a p).2 :=
    ha.run (fun p => Develops.refl) (fun _ _ _ => Develops.trans) p
  have hunnoted : Develops ds (k.unnoted ds) := by cases k <;> exact Develops.refl
  unfold compute
  split_ifs
  · exact hrun (.forM fun ns _ => leads_first) { defs := ds }
  · refine hunnoted.trans (hrun (Leads.bind ?_ fun _ => ?_) { defs := _, affected := _ })
    · exact .forM fun ns _ => leads_markOne
    · exact .forM fun _ _ => leads_later

end Closures

lemma develops_closeNames (ds : Definitions) : Develops ds ds.closeNames := by
  have h := develops_compute (k := .names) ds
  rwa [compute_names] at h

lemma develops_closeTaints (ds : Definitions) : Develops ds (closeTaints ds).2 := by
  rw [← compute_taints]
  exact develops_compute ds

lemma enriches_closeNames (ds : Definitions) : Enriches ds ds.closeNames := by
  refine ⟨ds.develops_closeNames, fun hkeyed => ?_⟩
  obtain ⟨p, hp, heq⟩ := closing_closeNames hkeyed
  rw [heq]
  exact hkeyed.closing hp

lemma enriches_closeTaints : Enriches ds (closeTaints ds).2 := by
  refine ⟨ds.develops_closeTaints, fun hkeyed => ?_⟩
  obtain ⟨ok, p, hp, heq, -⟩ := closing_closeTaints hkeyed
  rw [heq]
  exact hkeyed.closing hp

end Definitions

end SinkTrace
