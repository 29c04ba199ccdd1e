import SinkTrace.Definition.Completion
import SinkTrace.Proofs.Act
import SinkTrace.Proofs.Definition.Gains

/-!
# What an operation does to a definition table

Every operation other than the closures is a chain of a few elementary edits. `Edit.origin` says
where a definition of the edited table comes from, and that is all a later proof needs to know: it
is a new one that points to nothing, or the old one with gains, and a change that is new is listed.

The flag of `Edit` tells whether a definition may take the place of another one. Only an assignment
does that.
-/

namespace SinkTrace

open Option

namespace Pointer

/-! ### The parts of a table that belong to a kind -/

def noted : Pointer → Definitions → List DefRef
  | names, ds => ds.changedNames
  | taints, ds => ds.changedTaints

def noteIn : Pointer → Definitions → DefRef → Definitions
  | names => Definitions.noteNames
  | taints => Definitions.noteTaints

def addTo : Pointer → Definitions → DefRef → PointSet → Definitions
  | names => Definitions.addNames
  | taints => Definitions.addTaints

def addOneTo : Pointer → Definitions → DefRef → Literal → Definitions
  | names => Definitions.addName
  | taints => Definitions.addTaint

end Pointer

namespace Definitions

open Relation

variable {k : Pointer} {replace : Bool} {r : DefRef} {d e : Definition} {ds ds' : Definitions}
  {m ns : String} {s : PointSet} {f : Definition → Definition}

/-! ### Looking up after a change -/

lemma contains_iff : ds.contains ns ↔ ∃ d, ds.get? ns = some d := Table.contains_iff

lemma contains_of_get? (h : ds.get? ns = some d) : ds.contains ns := contains_iff.mpr ⟨d, h⟩

lemma get?_adjustAt : (ds.adjustAt ns f).get? m = if m = ns then (ds.get? m).map f else ds.get? m :=
  Table.get?_modify ds.current ns m f

@[simp] lemma contains_adjustAt : (ds.adjustAt ns f).contains m = ds.contains m :=
  Table.contains_modify ds.current ns m f

lemma find?_of_current (h : ds.get? r.ns = some d) (hr : d.revision = r.revision) :
    ds.find? r = some d := by simp [find?, h, hr]

lemma adjust_of_current (h : ds.get? r.ns = some d) (hr : d.revision = r.revision)
    (f : Definition → Definition) : ds.adjust r f = ds.adjustAt r.ns f := by
  simp [adjust, adjustAt, h, hr]

lemma adjust_of_past (h : ∀ d, ds.get? r.ns = some d → d.revision ≠ r.revision)
    (f : Definition → Definition) :
    ds.adjust r f =
      { ds with retired := ds.retired.map fun d => if d.ref = r then f d else d } := by
  have hne : ((ds.get? r.ns).map (·.revision)) ≠ some r.revision := by
    intro heq
    obtain ⟨d, hd, hr⟩ := map_eq_some_iff.mp heq
    exact h d hd hr
  simp [adjust, hne]

lemma current_or_past (ds : Definitions) (r : DefRef) :
    (∃ d, ds.get? r.ns = some d ∧ d.revision = r.revision) ∨
      ∀ d, ds.get? r.ns = some d → d.revision ≠ r.revision := by
  by_cases h : ∃ d, ds.get? r.ns = some d ∧ d.revision = r.revision
  · exact .inl h
  · exact .inr fun d hd hr => h ⟨d, hd, hr⟩

lemma find?_adjust {x : DefRef} (hf : ∀ d, (f d).ref = d.ref) :
    (ds.adjust r f).find? x = if x = r then (ds.find? x).map f else ds.find? x := by
  have hrev (d : Definition) : (f d).revision = d.revision := congrArg DefRef.revision (hf d)
  rcases current_or_past ds r with ⟨d, hd, hr⟩ | hpast
  · rw [adjust_of_current hd hr]
    unfold find?
    rw [get?_adjustAt]
    by_cases hns : x.ns = r.ns
    · by_cases hx : x.revision = r.revision
      · obtain rfl : x = r := by cases x; cases r; simp_all
        simp [hd, hr, hrev, Option.filter]
      · have hne : x ≠ r := fun h => hx (h ▸ rfl)
        simp [hns, hd, hr, hrev, hne, Ne.symm hx, adjustAt, Option.filter]
    · have hne : x ≠ r := fun h => hns (h ▸ rfl)
      simp [hns, hne, adjustAt]
  · have hretired : (ds.retired.map fun d => if d.ref = r then f d else d).find? (·.ref = x) =
        if x = r then (ds.retired.find? (·.ref = x)).map f else ds.retired.find? (·.ref = x) := by
      induction ds.retired with
      | nil => simp
      | cons d ds ih => grind
    rw [adjust_of_past hpast]
    change ((ds.get? x.ns).filter _ <|> List.find? _ (ds.retired.map _)) = _
    rw [hretired]
    split_ifs with hx
    · have hnone : (ds.get? x.ns).filter (·.revision = x.revision) = none := by
        subst hx
        simpa [Option.filter_eq_none_iff] using hpast
      rw [find?, hnone]
      rfl
    · rfl

lemma get?_put_of_none (h : ds.get? ns = none) (kind : DefKind) (module : Option String)
    (m : String) :
    (ds.put ns kind module).get? m = if m = ns then some { ns, kind, module } else ds.get? m := by
  simp only [put, h]
  exact Table.get?_set

lemma get?_put (ds : Definitions) (ns m : String) (kind : DefKind) (module : Option String) :
    ∃ e : Definition, e.Blank ∧ e.ns = ns ∧
      (ds.put ns kind module).get? m = if m = ns then some e else ds.get? m := by
  cases h : ds.get? ns with
  | none => exact ⟨_, ⟨rfl, rfl, rfl, rfl, rfl⟩, rfl, get?_put_of_none h kind module m⟩
  | some old =>
    refine ⟨{ ns, kind, module, revision := old.revision + 1 }, ⟨rfl, rfl, rfl, rfl, rfl⟩, rfl, ?_⟩
    simp only [put, h]
    exact Table.get?_set

/-! ### Elementary edits -/

inductive Edit (replace : Bool) : Definitions → Definitions → Prop where
  /-- A new definition, for a namespace that has none or in the place of the old one. -/
  | put {ds : Definitions} {ns : String} (kind : DefKind) (module : Option String)
      (h : replace = true ∨ ds.get? ns = none) : Edit replace ds (ds.put ns kind module)
  /-- A change that the closures do not look at. -/
  | quiet {ds : Definitions} {ns : String} {f : Definition → Definition}
      (h : ∀ d, ds.get? ns = some d → d.Quiet (f d)) : Edit replace ds (ds.adjustAt ns f)
  /-- A change of definitions that are no longer current. -/
  | past {ds : Definitions} (retired : List Definition) : Edit replace ds { ds with retired }
  | names {ds : Definitions} (r : DefRef) (s : PointSet) :
      Edit replace ds (ds.addNames r s)
  | taints {ds : Definitions} (r : DefRef) (s : PointSet) :
      Edit replace ds (ds.addTaints r s)

abbrev Edits (replace : Bool) : Definitions → Definitions → Prop := ReflTransGen (Edit replace)

/-- The two tables have the same closures, in both directions. -/
structure SameCaches (ds ds' : Definitions) : Prop where
  closure : ds'.closure = ds.closure
  reverseClosure : ds'.reverseClosure = ds.reverseClosure
  taints : ds'.taints = ds.taints
  reverseTaints : ds'.reverseTaints = ds.reverseTaints

lemma SameCaches.trans {a b c : Definitions} (h : SameCaches a b) (h' : SameCaches b c) :
    SameCaches a c :=
  ⟨h'.closure.trans h.closure, h'.reverseClosure.trans h.reverseClosure,
    h'.taints.trans h.taints, h'.reverseTaints.trans h.reverseTaints⟩

lemma sameCaches_adjust : SameCaches ds (ds.adjust r f) := by
  unfold adjust
  split_ifs <;> exact ⟨rfl, rfl, rfl, rfl⟩

lemma sameCaches_put {kind : DefKind} {module : Option String} :
    SameCaches ds (ds.put ns kind module) := by
  unfold put
  split <;> exact ⟨rfl, rfl, rfl, rfl⟩

lemma addTo_eq (k : Pointer) (ds : Definitions) (r : DefRef) (s : PointSet) : k.addTo ds r s =
      (if s.toList.any fun l => ((ds.find? r).map (k.notes · l)).getD false then k.noteIn ds r
        else ds).adjust r (k.add · s) := by
  cases k <;> rfl

lemma sameCaches_addTo (k : Pointer) (ds : Definitions) (r : DefRef) (s : PointSet) :
    SameCaches ds (k.addTo ds r s) := by
  rw [addTo_eq]
  refine SameCaches.trans ?_ sameCaches_adjust
  cases k <;> split_ifs <;> exact ⟨rfl, rfl, rfl, rfl⟩

lemma Edit.sameCaches (h : Edit replace ds ds') : SameCaches ds ds' := by
  cases h with
  | put kind module h => exact sameCaches_put
  | quiet h => exact ⟨rfl, rfl, rfl, rfl⟩
  | past retired => exact ⟨rfl, rfl, rfl, rfl⟩
  | names r s => exact sameCaches_addTo .names ds r s
  | taints r s => exact sameCaches_addTo .taints ds r s

/-! ### Additions to the pointers of a current definition -/

lemma get?_noteIn : (k.noteIn ds r).get? = ds.get? := by
  cases k <;> rfl

lemma addTo_of_current (h : ds.get? r.ns = some d) (hr : d.revision = r.revision) : k.addTo ds r s =
      (if s.toList.any (k.notes d) then k.noteIn ds r else ds).adjustAt r.ns (k.add · s) := by
  simp only [addTo_eq, find?_of_current h hr, map_some, getD_some]
  refine adjust_of_current ?_ hr _
  split_ifs
  · rwa [get?_noteIn]
  · exact h

lemma get?_addTo_of_past (h : ∀ d, ds.get? r.ns = some d → d.revision ≠ r.revision) (m : String) :
    (k.addTo ds r s).get? m = ds.get? m := by
  rw [addTo_eq]
  split_ifs
  · rw [adjust_of_past (by rwa [get?_noteIn])]
    exact congrFun get?_noteIn m
  · rw [adjust_of_past h]
    rfl

/-! ### Lists of changed definitions -/

/-- The definitions listed as changed in `ds` are still listed in `ds'`. -/
structure Lists (ds ds' : Definitions) : Prop where
  names : ∀ r ∈ ds.changedNames, r ∈ ds'.changedNames
  taints : ∀ r ∈ ds.changedTaints, r ∈ ds'.changedTaints

lemma lists_adjust : Lists ds (ds.adjust r f) := by
  unfold adjust
  split_ifs <;> exact ⟨fun r hr => hr, fun r hr => hr⟩

lemma Lists.trans {a b c : Definitions} (h : Lists a b) (h' : Lists b c) : Lists a c :=
  ⟨fun r hr => h'.names r (h.names r hr), fun r hr => h'.taints r (h.taints r hr)⟩

lemma lists_addTo (k : Pointer) (ds : Definitions) (r : DefRef) (s : PointSet) :
    Lists ds (k.addTo ds r s) := by
  have hmem {q : DefRef} {rs : List DefRef} (hq : q ∈ rs) : q ∈ rs.insertEnd r :=
    List.mem_insertEnd_iff.mpr (.inr hq)
  rw [addTo_eq]
  refine Lists.trans ?_ lists_adjust
  split_ifs
  · cases k with
    | names => exact ⟨fun q => hmem, fun q hq => hq⟩
    | taints => exact ⟨fun q hq => hq, fun q => hmem⟩
  · exact ⟨fun q hq => hq, fun q hq => hq⟩

lemma Edit.lists (h : Edit replace ds ds') : Lists ds ds' := by
  cases h with
  | put kind module h =>
    unfold Definitions.put
    split <;> exact ⟨fun r hr => hr, fun r hr => hr⟩
  | quiet h => exact ⟨fun r hr => hr, fun r hr => hr⟩
  | past retired => exact ⟨fun r hr => hr, fun r hr => hr⟩
  | names r s => exact lists_addTo .names ds r s
  | taints r s => exact lists_addTo .taints ds r s

/-! ### Where the definitions of an edited table come from -/

/-- In the table `ds`, the definition `e` of `ns` is `d` with gains, and its new changes are
listed. -/
structure Gained (ds : Definitions) (ns : String) (d e : Definition) : Prop where
  gains : d.Gains e
  names_listed : e.change.hasNames = true →
    d.change.hasNames = true ∨ ⟨ns, e.revision⟩ ∈ ds.changedNames
  taints_listed : e.change.hasTaints = true →
    d.change.hasTaints = true ∨ ⟨ns, e.revision⟩ ∈ ds.changedTaints

lemma gained_of_quiet (ds : Definitions) (ns : String) (h : d.Quiet e) : Gained ds ns d e :=
  ⟨h.gains, fun hn => .inl (h.change ▸ hn), fun ht => .inl (h.change ▸ ht)⟩

lemma gained_refl (ns : String) (d : Definition) : Gained ds ns d d :=
  gained_of_quiet ds ns (.refl d)

lemma origin_addTo (he : (k.addTo ds r s).get? ns = some e) :
    ∃ d, ds.get? ns = some d ∧ Gained (k.addTo ds r s) ns d e := by
  rcases current_or_past ds r with ⟨d, hd, hr⟩ | hpast
  · have hstep := addTo_of_current (k := k) (s := s) hd hr
    have hget : (if s.toList.any (k.notes d) then k.noteIn ds r else ds).get? = ds.get? := by
      split_ifs
      · exact get?_noteIn
      · rfl
    rw [hstep, get?_adjustAt, hget] at he
    split_ifs at he with hns
    · subst hns
      rw [hd, map_some, some.injEq] at he
      subst he
      have hgains := k.gains_add d s
      have hlisted : k.changed (k.add d s) →
          k.changed d ∨ ⟨r.ns, (k.add d s).revision⟩ ∈ k.noted (k.addTo ds r s) := by
        rw [Pointer.changed_add, Bool.or_eq_true]
        refine Or.imp_right fun hany => ?_
        rw [hstep, if_pos hany, hgains.revision, hr]
        cases k <;> exact List.mem_insertEnd_iff.mpr (.inl rfl)
      have hother := k.other_changed_add d s
      refine ⟨d, hd, ?_⟩
      cases k with
      | names => exact ⟨hgains, hlisted, fun h => .inl (hother.symm.trans h)⟩
      | taints => exact ⟨hgains, fun h => .inl (hother.symm.trans h), hlisted⟩
    · exact ⟨e, he, gained_refl ns e⟩
  · rw [get?_addTo_of_past hpast] at he
    exact ⟨e, he, gained_refl ns e⟩

lemma Edit.origin (h : Edit replace ds ds') (he : ds'.get? ns = some e) :
    (e.Blank ∧ e.ns = ns ∧ (replace ∨ ds.get? ns = none)) ∨
      ∃ d, ds.get? ns = some d ∧ Gained ds' ns d e := by
  cases h with
  | @put m kind module h =>
    obtain ⟨b, hb, hbns, hget⟩ := get?_put ds m ns kind module
    rw [hget] at he
    split_ifs at he with hm
    · rw [some.injEq] at he
      subst he hm
      exact .inl ⟨hb, hbns, h⟩
    · exact .inr ⟨e, he, gained_refl ns e⟩
  | @quiet m f h =>
    rw [get?_adjustAt] at he
    split_ifs at he with hm
    · subst hm
      obtain ⟨d, hd, rfl⟩ := map_eq_some_iff.mp he
      exact .inr ⟨d, hd, gained_of_quiet _ ns (h d hd)⟩
    · exact .inr ⟨e, he, gained_refl ns e⟩
  | past retired => exact .inr ⟨e, he, gained_refl ns e⟩
  | names r s => exact .inr (origin_addTo (k := .names) he)
  | taints r s => exact .inr (origin_addTo (k := .taints) he)

@[simp] lemma contains_adjust (ds : Definitions) (r : DefRef) (f : Definition → Definition)
    (m : String) : (ds.adjust r f).contains m = ds.contains m := by
  unfold adjust
  split_ifs
  · exact contains_adjustAt
  · rfl

lemma contains_addTo (k : Pointer) (ds : Definitions) (r : DefRef) (s : PointSet) (m : String) :
    (k.addTo ds r s).contains m = ds.contains m := by
  rw [addTo_eq, contains_adjust]
  cases k <;> split_ifs <;> rfl

lemma Edit.contains (h : Edit replace ds ds') (hns : ds.contains ns) : ds'.contains ns := by
  cases h with
  | @put m kind module h =>
    obtain ⟨b, -, -, hget⟩ := get?_put ds m ns kind module
    rw [contains_iff] at hns ⊢
    rw [hget]
    split_ifs
    · exact ⟨b, rfl⟩
    · exact hns
  | quiet h => rwa [contains_adjustAt]
  | past retired => exact hns
  | names r s => exact (contains_addTo .names ds r s ns).trans hns
  | taints r s => exact (contains_addTo .taints ds r s ns).trans hns

lemma Edit.kept (h : Edit false ds ds') (hd : ds.get? ns = some d) :
    ∃ e, ds'.get? ns = some e ∧ d.Gains e := by
  obtain ⟨e, he⟩ := contains_iff.mp (h.contains (contains_of_get? hd))
  rcases h.origin he with ⟨-, -, hrep | hnone⟩ | ⟨d', hd', hg⟩
  · cases hrep
  · rw [hnone] at hd
    cases hd
  · rw [hd, some.injEq] at hd'
    subst hd'
    exact ⟨e, he, hg.gains⟩

/-! ### Operations as chains of edits -/

lemma edit_adjust_quiet (h : ∀ d, ds.get? r.ns = some d → d.revision = r.revision → d.Quiet (f d)) :
    Edit replace ds (ds.adjust r f) := by
  rcases current_or_past ds r with ⟨d, hd, hr⟩ | hpast
  · rw [adjust_of_current hd hr]
    refine Edit.quiet fun d' hd' => ?_
    obtain rfl : d = d' := some.inj (hd.symm.trans hd')
    exact h d hd hr
  · rw [adjust_of_past hpast]
    exact Edit.past _

lemma edit_addTo (k : Pointer) (ds : Definitions) (r : DefRef) (s : PointSet) :
    Edit replace ds (k.addTo ds r s) := by
  cases k with
  | names => exact .names r s
  | taints => exact .taints r s

lemma edit_addOneTo (k : Pointer) (ds : Definitions) (r : DefRef) (l : Literal) :
    Edit replace ds (k.addOneTo ds r l) := by
  have heq : k.addOneTo ds r l =
      (if l.truthy && ((ds.find? r).map (k.notes · l)).getD false then k.noteIn ds r
        else ds).adjust r
        (k.addOne · l) := by
    cases k <;> rfl
  rw [heq]
  by_cases hl : l.truthy
  · have hadd : Edit replace ds _ := edit_addTo k ds r (.ofList [l])
    rw [addTo_eq] at hadd
    simpa [Pointer.addOne_eq, hl, PointSet.toList_ofList_singleton] using hadd
  · simp only [hl, Bool.false_and, Bool.false_eq_true, if_false, Pointer.addOne_eq]
    exact edit_adjust_quiet fun d _ _ => .refl d

end Definitions

end SinkTrace
