import SinkTrace.Definition.Basic
import SinkTrace.Proofs.Data.Table

/-!
# What one definition gains

An addition to a pointer leaves a trail: the definition points to at least what it pointed to, and
what is new is noted down unless both kinds of change were noted before. `Definition.Gains` says
what all such additions have in common. It is all that the closures rely on.
-/

namespace SinkTrace

open Table List

variable {p : NamePointer}

namespace Change

@[simp] lemma hasNames_addNames (c : Change) : c.addNames.hasNames := by cases c <;> rfl
@[simp] lemma hasTaints_addNames (c : Change) : c.addNames.hasTaints = c.hasTaints := by
  cases c <;> rfl
@[simp] lemma hasNames_addTaints (c : Change) : c.addTaints.hasNames = c.hasNames := by
  cases c <;> rfl
@[simp] lemma hasTaints_addTaints (c : Change) : c.addTaints.hasTaints := by cases c <;> rfl
@[simp] lemma hasNames_dropNames {c : Change} : c.dropNames.hasNames = false := by cases c <;> rfl
@[simp] lemma hasTaints_dropNames (c : Change) : c.dropNames.hasTaints = c.hasTaints := by
  cases c <;> rfl
@[simp] lemma hasNames_dropTaints (c : Change) : c.dropTaints.hasNames = c.hasNames := by
  cases c <;> rfl
@[simp] lemma hasTaints_dropTaints {c : Change} : c.dropTaints.hasTaints = false := by
  cases c <;> rfl

end Change

namespace Scalars

lemma subset_add (s : Scalars) {l : Literal} : s ⊆ s.add l := by
  unfold add
  split_ifs
  · exact Subset.refl s
  · exact subset_append_left s [l]

lemma subset_union (s : Scalars) {t : Scalars} : s ⊆ s.union t := by
  unfold union
  induction t generalizing s with
  | nil => exact Subset.refl s
  | cons l t ih => exact Subset.trans (subset_add s) (ih (s.add l))

end Scalars

namespace PointSet

variable {l : Literal} {s t : PointSet} {x : String}

/-- Every element of `s`, a name or a literal, is one of `t`. -/
structure Within (s t : PointSet) : Prop where
  names : s.names ⊆ t.names
  scalars : s.scalars ⊆ t.scalars

lemma Within.refl (s : PointSet) : s.Within s := ⟨Subset.refl _, Subset.refl _⟩

lemma Within.of_eq (h : t = s) : s.Within t := h ▸ Within.refl s

lemma Within.trans {u : PointSet} (h : s.Within t) (h' : t.Within u) : s.Within u :=
  ⟨Subset.trans h.names h'.names, Subset.trans h.scalars h'.scalars⟩

lemma within_add : s.Within (s.add l) := by
  cases l with
  | str n => exact ⟨fun x hx => mem_insertEnd_iff.mpr (.inr hx), Subset.refl _⟩
  | _ => exact ⟨Subset.refl _, Scalars.subset_add s.scalars⟩

lemma within_union (s t : PointSet) : s.Within (s.union t) := by
  unfold union
  generalize t.toList = ls
  induction ls generalizing s with
  | nil => exact Within.refl s
  | cons l ls ih => exact within_add.trans (ih (s.add l))

lemma mem_toList_iff : l ∈ s.toList ↔ (∃ n ∈ s.names, .str n = l) ∨ l ∈ s.scalars := by
  rw [toList, mem_append, mem_map]

lemma mem_names_add : x ∈ (s.add l).names ↔ l = .str x ∨ x ∈ s.names := by
  cases l with
  | str n =>
    rw [add, addName, mem_insertEnd_iff, Literal.str.injEq]
    exact or_congr_left eq_comm
  | _ => simp [add]

@[simp] lemma mem_names_union : x ∈ (s.union t).names ↔ x ∈ s.names ∨ Literal.str x ∈ t.toList := by
  have h : ∀ (ls : List Literal) (s : PointSet),
      x ∈ (ls.foldl add s).names ↔ x ∈ s.names ∨ Literal.str x ∈ ls := by
    intro ls
    induction ls with
    | nil => simp
    | cons l ls ih =>
      intro s
      rw [foldl_cons, ih, mem_names_add, mem_cons, eq_comm]
      tauto
  exact h t.toList s

lemma scalars_add_eq_nil : (s.add l).scalars = [] ↔ s.scalars = [] ∧ ∃ n, l = .str n := by
  cases l with
  | str n => simp [add, addName]
  | _ =>
    simp only [add, Scalars.add, reduceCtorEq, exists_false, and_false, iff_false]
    split_ifs with h
    · rintro heq
      simp [heq, Scalars.has] at h
    · simp

lemma scalars_union_eq_nil :
    (s.union t).scalars = [] ↔ s.scalars = [] ∧ ∀ l ∈ t.toList, ∃ n, l = .str n := by
  have h : ∀ (ls : List Literal) (s : PointSet),
      (ls.foldl add s).scalars = [] ↔ s.scalars = [] ∧ ∀ l ∈ ls, ∃ n, l = .str n := by
    intro ls
    induction ls with
    | nil => simp
    | cons l ls ih =>
      intro s
      rw [foldl_cons, ih, scalars_add_eq_nil, forall_mem_cons, and_assoc]
  exact h t.toList s

lemma toList_ne_nil_of_union (hs : s.isEmpty) (h : (s.union t).isEmpty = false) :
    t.toList ≠ [] := by
  intro ht
  rw [union, ht, foldl_nil, hs] at h
  cases h

lemma has_of_isEmpty (h : s.isEmpty) (l : Literal) : s.has l = false := by
  obtain ⟨sn, sl⟩ := s
  simp only [isEmpty, Bool.and_eq_true, List.isEmpty_iff] at h
  obtain ⟨rfl, rfl⟩ := h
  cases l <;> rfl

lemma toList_ofList_singleton (l : Literal) : (ofList [l]).toList = [l] := by cases l <;> rfl

lemma union_ofList_singleton (s : PointSet) (l : Literal) : s.union (ofList [l]) = s.add l := by
  rw [union, toList_ofList_singleton, foldl_cons, foldl_nil]

end PointSet

namespace NamePointer

variable {name : Option String}

/-- Every element, argument and position of `p` is one of `q`. -/
structure Within (p q : NamePointer) : Prop where
  points : p.points.Within q.points
  args : p.args.keys ⊆ q.args.keys
  posNames : p.posNames.keys ⊆ q.posNames.keys
  namePos : p.namePos.keys ⊆ q.namePos.keys

lemma Within.refl (p : NamePointer) : p.Within p :=
  ⟨.refl _, Subset.refl _, Subset.refl _, Subset.refl _⟩

lemma Within.trans {q r : NamePointer} (h : p.Within q) (h' : q.Within r) : p.Within r :=
  ⟨h.points.trans h'.points, Subset.trans h.args h'.args,
    Subset.trans h.posNames h'.posNames, Subset.trans h.namePos h'.namePos⟩

/-- `q` is `p` after changes to its arguments: it points to the same. -/
structure Refits (p q : NamePointer) : Prop extends Within p q where
  points_eq : q.points = p.points

lemma Refits.refl : p.Refits p := ⟨.refl p, rfl⟩

lemma Refits.trans {q r : NamePointer} (h : p.Refits q) (h' : q.Refits r) : p.Refits r :=
  ⟨h.toWithin.trans h'.toWithin, h'.points_eq.trans h.points_eq⟩

lemma refits_args (p : NamePointer) {args : Table (Option String) PointSet}
    (h : p.args.keys ⊆ args.keys) : p.Refits { p with args } :=
  ⟨⟨.refl _, h, Subset.refl _, Subset.refl _⟩, rfl⟩

lemma refits_touch (p : NamePointer) (name : Option String) : p.Refits (p.touch name) :=
  p.refits_args keys_subset_setNew

lemma refits_addArgSet (p : NamePointer) {s : PointSet} : p.Refits (p.addArgSet name s) :=
  p.refits_args keys_subset_set

lemma refits_eraseArg (p : NamePointer) {v : String} :
    p.Refits { p with args := p.args.modify name (·.eraseName v) } :=
  p.refits_args (by rw [keys_modify]; exact Subset.refl _)

lemma refits_setPos (p : NamePointer) {pos : Position} {name : String} :
    p.Refits (p.setPos pos name) := by
  refine ⟨⟨.refl _, Subset.refl _, keys_subset_set, ?_⟩, rfl⟩
  unfold namePos
  rw [keys_mapValues, keys_mapValues]
  exact keys_subset_set

lemma refits_mergeArgs (p : NamePointer) {q : NamePointer} : p.Refits (p.mergeArgs q) := by
  have h (es : List (Option String × PointSet)) (p : NamePointer) :
      p.Refits (es.foldl (fun p e => p.addArgSet e.1 e.2) p) := by
    induction es generalizing p with
    | nil => exact .refl
    | cons e es ih => exact p.refits_addArgSet.trans (ih (p.addArgSet e.1 e.2))
  have hpos : p.Refits { p with posNames := p.posNames.update q.posNames } :=
    ⟨⟨.refl _, Subset.refl _, keys_subset_update _, Subset.refl _⟩, rfl⟩
  exact hpos.trans (h q.args.entries _)

end NamePointer

/-- The pointers of a definition that are followed. -/
inductive Pointer where
  | names | taints
deriving DecidableEq

namespace Pointer

/-! ### The parts of a definition that belong to a kind -/

def pointer : Pointer → Definition → PointSet
  | names, d => d.name.points
  | taints, d => d.taints

def added : Pointer → Definition → PointSet
  | names, d => d.addedNames
  | taints, d => d.addedTaints

def changed : Pointer → Definition → Bool
  | names, d => d.change.hasNames
  | taints, d => d.change.hasTaints

def other : Pointer → Pointer
  | names => taints
  | taints => names

/-- Whether a value is noted down when it is added to the pointer. -/
def notes : Pointer → Definition → Literal → Bool
  | names => Definition.notesName
  | taints => Definition.notesTaint

def note : Pointer → Definition → Literal → Definition
  | names => Definition.noteName
  | taints => Definition.noteTaint

def add : Pointer → Definition → PointSet → Definition
  | names => Definition.addNames
  | taints => Definition.addTaints

def addOne : Pointer → Definition → Literal → Definition
  | names => Definition.addName
  | taints => Definition.addTaint

def repoint : Pointer → Definition → PointSet → Definition
  | names, d, s => { d with name := { d.name with points := s } }
  | taints, d, s => { d with taints := s }

end Pointer

namespace Definition

/-! ### Definitions in good order -/

/-- What is noted down as new is among what the definition points to. -/
structure Tidy (d : Definition) : Prop where
  addedNames_sub : ∀ x ∈ d.addedNames.names, x ∈ d.name.points.names
  addedTaints_sub : ∀ x ∈ d.addedTaints.names, x ∈ d.taints.names
  /-- A pointer that holds names only has had names added only. -/
  addedTaints_names : d.taints.scalars = [] → d.addedTaints.scalars = []

/-- The definition points to nothing and nothing is noted down for it. -/
structure Blank (d : Definition) : Prop where
  points : d.name.points = {}
  taints : d.taints = {}
  change : d.change = .nothing
  addedNames : d.addedNames = {}
  addedTaints : d.addedTaints = {}

lemma Blank.tidy {d : Definition} (h : d.Blank) : d.Tidy where
  addedNames_sub := by simp [h.addedNames]
  addedTaints_sub := by simp [h.addedTaints]
  addedTaints_names := by simp [h.addedTaints]

/-- `e` is `d` in all that the closures look at, and has its arguments, positions and literals. -/
structure Quiet (d e : Definition) : Prop where
  ns : e.ns = d.ns
  revision : e.revision = d.revision
  name : d.name.Refits e.name
  taints : e.taints = d.taints
  change : e.change = d.change
  addedNames : e.addedNames = d.addedNames
  addedTaints : e.addedTaints = d.addedTaints
  lits : d.lits ⊆ e.lits

lemma Quiet.refl (d : Definition) : Quiet d d :=
  ⟨rfl, rfl, .refl, rfl, rfl, rfl, rfl, Subset.refl _⟩

lemma quiet_name (d : Definition) (h : d.name.Refits p) : Quiet d { d with name := p } :=
  { Quiet.refl d with name := h }

lemma quiet_lits (d : Definition) {lits : Scalars} (h : d.lits ⊆ lits) : Quiet d { d with lits } :=
  { Quiet.refl d with lits := h }

lemma quiet_decorators (d : Definition) {decorators : Option (List String)} :
    Quiet d { d with decorators } := { Quiet.refl d with }

/-- `e` is `d` after additions to its pointers. -/
structure Gains (d e : Definition) : Prop where
  ns : e.ns = d.ns
  revision : e.revision = d.revision
  name : d.name.Within e.name
  taints : d.taints.Within e.taints
  lits : d.lits ⊆ e.lits
  tidy : d.Tidy → e.Tidy
  /-- Where there was nothing to point to, the first addition is a noted change. -/
  names_noted : e.name.points.isEmpty = false →
    d.name.points.isEmpty = false ∨ e.change.hasNames = true
  taints_noted : e.taints.isEmpty = false → d.taints.isEmpty = false ∨ e.change.hasTaints = true
  hasNames : d.change.hasNames = true → e.change.hasNames = true
  hasTaints : d.change.hasTaints = true → e.change.hasTaints = true

lemma Quiet.gains {d e : Definition} (h : Quiet d e) : Gains d e where
  ns := h.ns
  revision := h.revision
  name := h.name.toWithin
  taints := .of_eq h.taints
  lits := h.lits
  tidy hd := by
    refine ⟨?_, ?_, ?_⟩
    · rw [h.addedNames, h.name.points_eq]
      exact hd.addedNames_sub
    · rw [h.addedTaints, h.taints]
      exact hd.addedTaints_sub
    · rw [h.addedTaints, h.taints]
      exact hd.addedTaints_names
  names_noted he := .inl (h.name.points_eq ▸ he)
  taints_noted he := .inl (h.taints ▸ he)
  hasNames hd := h.change ▸ hd
  hasTaints hd := h.change ▸ hd

end Definition

namespace Pointer

open Definition

variable {k : Pointer} {d : Definition} {l : Literal} {s : PointSet}

/-! ### Noting down -/

/-- `e` is `d` after values were gone through, which changes only what is noted down. -/
structure Notes (k : Pointer) (ls : List Literal) (d e : Definition) : Prop where
  same : ∃ change names taints,
    e = { d with change := change, addedNames := names, addedTaints := taints }
  others : k.other.added e = k.other.added d ∧ k.other.changed e = k.other.changed d
  changed : k.changed e = (k.changed d || ls.any (k.notes d))
  names : ∀ x ∈ (k.added e).names, x ∈ (k.added d).names ∨ Literal.str x ∈ ls
  scalars : (k.added d).scalars = [] → (∀ l ∈ ls, ∃ n, l = .str n) → (k.added e).scalars = []

lemma note_of_notes (h : k.notes d l) : (∃ change names taints,
      k.note d l = { d with change := change, addedNames := names, addedTaints := taints }) ∧
      (k.other.added (k.note d l) = k.other.added d ∧
        k.other.changed (k.note d l) = k.other.changed d) ∧
      k.added (k.note d l) = (k.added d).add l ∧ k.changed (k.note d l) := by
  cases k with
  | names =>
    have hnote : names.note d l =
      { d with addedNames := d.addedNames.add l, change := d.change.addNames } := if_pos h
    rw [hnote]
    exact ⟨⟨_, _, _, rfl⟩, ⟨rfl, d.change.hasTaints_addNames⟩, rfl, d.change.hasNames_addNames⟩
  | taints =>
    have hnote : taints.note d l =
      { d with addedTaints := d.addedTaints.add l, change := d.change.addTaints } := if_pos h
    rw [hnote]
    exact ⟨⟨_, _, _, rfl⟩, ⟨rfl, d.change.hasNames_addTaints⟩, rfl, d.change.hasTaints_addTaints⟩

lemma notes_foldl (k : Pointer) (ls : List Literal) (d : Definition) :
    Notes k ls d (ls.foldl k.note d) := by
  induction ls generalizing d with
  | nil => exact ⟨⟨_, _, _, rfl⟩, ⟨rfl, rfl⟩, by simp, fun _ => .inl, fun h _ => h⟩
  | cons l ls ih =>
    have h := ih (k.note d l)
    rw [foldl_cons]
    by_cases hl : k.notes d l
    · obtain ⟨⟨_, _, _, hd⟩, hothers, hadded, hchanged⟩ := note_of_notes hl
      refine ⟨?_, ⟨h.others.1.trans hothers.1, h.others.2.trans hothers.2⟩, ?_, fun x hx => ?_,
        fun hnil hls => ?_⟩
      · obtain ⟨change, names, taints, he⟩ := h.same
        exact ⟨change, names, taints, he.trans (by rw [hd])⟩
      · rw [h.changed, hchanged, any_cons, hl, Bool.true_or, Bool.true_or, Bool.or_true]
      · rcases h.names x hx with hx | hx
        · rw [hadded] at hx
          rcases PointSet.mem_names_add.mp hx with rfl | hx
          · exact .inr mem_cons_self
          · exact .inl hx
        · exact .inr (mem_cons_of_mem l hx)
      · obtain ⟨hl', hls'⟩ := forall_mem_cons.mp hls
        refine h.scalars ?_ hls'
        rw [hadded]
        exact PointSet.scalars_add_eq_nil.mpr ⟨hnil, hl'⟩
    · have hd : k.note d l = d := by cases k <;> exact if_neg hl
      rw [hd] at h ⊢
      refine ⟨h.same, h.others, ?_, fun x hx => (h.names x hx).imp_right (mem_cons_of_mem l),
        fun hnil hls => h.scalars hnil (forall_mem_cons.mp hls).2⟩
      rw [h.changed, any_cons, Bool.eq_false_iff.mpr hl, Bool.false_or]

/-! ### Additions to a pointer -/

lemma add_eq (k : Pointer) (d : Definition) (s : PointSet) :
    k.add d s = k.repoint (s.toList.foldl k.note d) ((k.pointer
      (s.toList.foldl k.note d)).union s) := by
  cases k <;> rfl

lemma changed_repoint (j : Pointer) : j.changed (k.repoint d s) = j.changed d := by
  cases j <;> cases k <;> rfl

lemma changed_add (k : Pointer) (d : Definition) (s : PointSet) :
    k.changed (k.add d s) = (k.changed d || s.toList.any (k.notes d)) := by
  rw [add_eq, changed_repoint, (notes_foldl k s.toList d).changed]

lemma other_changed_add (k : Pointer) (d : Definition) (s : PointSet) :
    k.other.changed (k.add d s) = k.other.changed d := by
  rw [add_eq, changed_repoint, (notes_foldl k s.toList d).others.2]

/-- The first value that a definition gets is noted down, unless both kinds of change are. -/
lemma notes_of_isEmpty (hd : (k.pointer d).isEmpty) (hs : s.toList ≠ []) :
    (k.changed d || s.toList.any (k.notes d)) := by
  obtain ⟨l, ls, hl⟩ := exists_cons_of_ne_nil hs
  by_cases hb : d.change = .both
  · cases k <;> simp [changed, hb, Change.hasNames, Change.hasTaints]
  · have hnotes : k.notes d l := by
      have hnew := PointSet.has_of_isEmpty hd l
      cases k <;> simpa [notes, notesName, notesTaint, pointer, hb] using hnew
    rw [hl, any_cons, hnotes, Bool.true_or, Bool.or_true]

lemma gains_add (k : Pointer) (d : Definition) (s : PointSet) : Gains d (k.add d s) := by
  have hnoted (hne : ((k.pointer d).union s).isEmpty = false) :
      (k.pointer d).isEmpty = false ∨ k.changed (k.add d s) := by
    by_cases hd : (k.pointer d).isEmpty
    · rw [changed_add]
      exact .inr (notes_of_isEmpty hd (PointSet.toList_ne_nil_of_union hd hne))
    · exact .inl (Bool.eq_false_iff.mpr hd)
  have hkept (hd : k.changed d) : k.changed (k.add d s) := by
    rw [changed_add, hd, Bool.true_or]
  have hother := other_changed_add k d s
  have h := notes_foldl k s.toList d
  obtain ⟨_, _, _, he⟩ := h.same
  rw [add_eq, he] at hnoted hkept hother ⊢
  rw [he] at h
  cases k with
  | names =>
    obtain rfl := h.others.1
    refine ⟨rfl, rfl, { NamePointer.Within.refl d.name with points := PointSet.within_union _ s },
      .refl _, Subset.refl _, fun hd => ?_, hnoted, .inl, hkept, hother.trans⟩
    refine ⟨fun x hx => ?_, hd.addedTaints_sub, hd.addedTaints_names⟩
    exact PointSet.mem_names_union.mpr ((h.names x hx).imp_left (hd.addedNames_sub x))
  | taints =>
    obtain rfl := h.others.1
    refine ⟨rfl, rfl, .refl _, PointSet.within_union _ s, Subset.refl _, fun hd => ?_, .inl,
      hnoted, hother.trans, hkept⟩
    refine ⟨hd.addedNames_sub, fun x hx => ?_, fun hnil => ?_⟩
    · exact PointSet.mem_names_union.mpr ((h.names x hx).imp_left (hd.addedTaints_sub x))
    · obtain ⟨hnil, hs⟩ := PointSet.scalars_union_eq_nil.mp hnil
      exact h.scalars (hd.addedTaints_names hnil) hs

lemma addOne_eq (k : Pointer) (d : Definition) (l : Literal) :
    k.addOne d l = if l.truthy then k.add d (.ofList [l]) else d := by
  by_cases hl : l.truthy
  · rw [if_pos hl, add_eq, PointSet.toList_ofList_singleton, PointSet.union_ofList_singleton]
    cases k <;> simp [addOne, addName, addTaint, hl, repoint, note, pointer]
  · cases k <;> simp [addOne, addName, addTaint, hl]

end Pointer

end SinkTrace
