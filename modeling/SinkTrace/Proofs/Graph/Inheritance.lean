import Mathlib.Data.List.Nodup
import SinkTrace.Graph.Inheritance
import SinkTrace.Proofs.Data.Table

/-!
# Subclasses

A class is asked for its parents only once. So the question whether a class is below another one has
an answer also where classes inherit from each other in a circle, and `isSubclass` is the reflexive
and transitive closure of the parents.
-/

namespace SinkTrace

open List

namespace Inheritance

open Relation

variable {g : Inheritance} {parent : String} {v visited w : Names} {c p : String} {fuel : Nat}

def IsParent (g : Inheritance) (c p : String) : Prop := p ∈ g.parentsOf c

def Flat (g : Inheritance) : Prop := ∀ c p, g.IsParent c p → p = c

lemma IsParent.contains (h : g.IsParent c p) : g.parents.contains c := by
  by_contra hc
  have hnone := Table.not_contains_iff.mp (Bool.eq_false_iff.mpr hc)
  simp [IsParent, parentsOf, Table.getD, hnone] at h

/-! ### Classes that were asked -/

/-- Classes that have parents, each of them once. -/
structure Asked (g : Inheritance) (visited : Names) : Prop where
  nodup : visited.Nodup
  contains : ∀ c ∈ visited, g.parents.contains c = true

lemma Asked.length_le (h : g.Asked visited) : visited.length ≤ g.parents.size :=
  Table.length_le_size h.nodup h.contains

lemma Asked.insert (h : g.Asked visited) (hc : g.parents.contains c) :
    g.Asked (visited.insertEnd c) where
  nodup := nodup_insertEnd h.nodup
  contains x hx := by
    rcases mem_insertEnd_iff.mp hx with rfl | hx
    · exact hc
    · exact h.contains x hx

/-- The class is not `parent`, and nothing above it is, unless that is above one of `visited`. -/
def Rejected (g : Inheritance) (parent : String) (visited : Names) (c : String) : Prop :=
  c ≠ parent ∧ (c ∈ visited ∨ g.parents.contains c = false)

lemma Rejected.mono (hvw : v ⊆ w) (h : g.Rejected parent v c) : g.Rejected parent w c :=
  h.imp_right fun hc => hc.imp_left fun hc => hvw hc

/-- All that was asked after `v` is without success. -/
structure Failed (g : Inheritance) (parent : String) (v w : Names) : Prop where
  asked : g.Asked w
  subset : v ⊆ w
  rejected : ∀ c ∈ w, c ∉ v → ∀ p, g.IsParent c p → g.Rejected parent w p

lemma Asked.failed (h : g.Asked v) : g.Failed parent v v :=
  ⟨h, fun _ hc => hc, fun _ hc hnot => absurd hc hnot⟩

lemma Failed.trans {u : Names} (huv : g.Failed parent u v) (hvw : g.Failed parent v w) :
    g.Failed parent u w where
  asked := hvw.asked
  subset _ hc := hvw.subset (huv.subset hc)
  rejected c hc hnot p hp := by
    by_cases hv : c ∈ v
    · exact (huv.rejected c hv hnot p hp).mono hvw.subset
    · exact hvw.rejected c hc hv p hp

lemma Failed.length_le (h : g.Failed parent v w) (hv : v.Nodup) : v.length ≤ w.length :=
  (hv.subperm h.subset).length_le

/-! ### Answers -/

/-- The answer to the question whether one of `cs` is below `parent`, after `v` was asked. -/
inductive Answers (g : Inheritance) (parent : String) (cs : List String) (v : Names) :
    Bool × Names → Prop
  | yes {c : String} {w : Names} (hc : c ∈ cs) (h : ReflTransGen g.IsParent c parent) :
      Answers g parent cs v (true, w)
  | no {w : Names} (h : g.Failed parent v w) (hcs : ∀ c ∈ cs, g.Rejected parent w c) :
      Answers g parent cs v (false, w)

lemma Failed.of_parents (h : g.Failed parent (v.insertEnd c) w)
    (hps : ∀ p ∈ g.parentsOf c, g.Rejected parent w p) : g.Failed parent v w where
  asked := h.asked
  subset _ hx := h.subset (mem_insertEnd_iff.mpr (.inr hx))
  rejected x hx hnot p hp := by
    by_cases hxc : x = c
    · subst hxc
      exact hps p hp
    · have hx' : x ∉ v.insertEnd c := fun hmem => (mem_insertEnd_iff.mp hmem).elim hxc hnot
      exact h.rejected x hx hx' p hp

/-! ### Questions -/

/-- The questions that lead to an answer: whether one of `cs` is below `parent`, but for those in
`v`. -/
inductive Asks (g : Inheritance) (parent : String) : List String → Names → Bool × Names → Prop
  | nobody {v : Names} : Asks g parent [] v (false, v)
  | found {cs : List String} {v : Names} : Asks g parent (parent :: cs) v (true, v)
  | skipped {c : String} {cs : List String} {v : Names} {out : Bool × Names}
      (hc : g.Rejected parent v c) (hcs : Asks g parent cs v out) : Asks g parent (c :: cs) v out
  | above {c : String} {cs : List String} {v w : Names} (hne : c ≠ parent) (hnew : c ∉ v)
      (hc : g.parents.contains c = true)
      (h : Asks g parent (g.parentsOf c) (v.insertEnd c) (true, w)) :
      Asks g parent (c :: cs) v (true, w)
  | beside {c : String} {cs : List String} {v w : Names} {out : Bool × Names} (hne : c ≠ parent)
      (hnew : c ∉ v) (hc : g.parents.contains c = true)
      (h : Asks g parent (g.parentsOf c) (v.insertEnd c) (false, w))
      (hcs : Asks g parent cs w out) :
      Asks g parent (c :: cs) v out

variable {cs : List String} {out : Bool × Names}

lemma Asks.answers (h : g.Asks parent cs v out) (hv : g.Asked v) : g.Answers parent cs v out := by
  induction h with
  | nobody => exact .no hv.failed nofun
  | found => exact .yes mem_cons_self .refl
  | skipped hc _ ih =>
    cases ih hv with
    | yes hmem h => exact .yes (mem_cons_of_mem _ hmem) h
    | no h hcs => exact .no h (forall_mem_cons.mpr ⟨hc.mono h.subset, hcs⟩)
  | above _ _ hc _ ih =>
    cases ih (hv.insert hc) with
    | yes hp h => exact .yes mem_cons_self (.head hp h)
  | beside hne _ hc _ _ ih ih' =>
    cases ih (hv.insert hc) with
    | no h hps =>
      cases ih' h.asked with
      | yes hmem h => exact .yes (mem_cons_of_mem _ hmem) h
      | no h' hcs =>
        have hasked := h'.subset (h.subset (mem_insertEnd_iff.mpr (.inl rfl)))
        exact .no ((h.of_parents hps).trans h') (forall_mem_cons.mpr ⟨⟨hne, .inl hasked⟩, hcs⟩)

lemma Asks.first (h : g.Asks parent [c] v (true, w)) : g.Asks parent (c :: cs) v (true, w) := by
  cases h with
  | found => exact .found
  | skipped _ h => cases h
  | above hne hnew hc h => exact .above hne hnew hc h
  | beside _ _ _ _ h => cases h

lemma Asks.next (h : g.Asks parent [c] v (false, w)) (hcs : g.Asks parent cs w out) :
    g.Asks parent (c :: cs) v out := by
  cases h with
  | skipped hc h =>
    cases h
    exact .skipped hc hcs
  | beside hne hnew hc hps h =>
    cases h
    exact .beside hne hnew hc hps hcs

lemma asks_anyOf {ask : String → Names → Bool × Names} {n : Nat}
    (hask : ∀ c v, g.Asked v → n ≤ v.length → g.Asks parent [c] v (ask c v)) (hv : g.Asked v)
    (hn : n ≤ v.length) : g.Asks parent cs v (anyOf ask cs v) := by
  induction cs generalizing v with
  | nil => exact .nobody
  | cons c cs ih =>
    have hfirst := hask c v hv hn
    unfold anyOf
    generalize ask c v = answer at hfirst ⊢
    obtain ⟨_ | _, w⟩ := answer
    · cases hfirst.answers hv with
      | no h _ => exact hfirst.next (ih h.asked (Nat.le_trans hn (h.length_le hv.nodup)))
    · exact hfirst.first

/-- With enough fuel for all classes that were not asked, the questions come to an end. -/
lemma asks_reaches (fuel : Nat) (c : String) (hv : g.Asked v)
    (hfuel : g.parents.size < fuel + v.length) :
    g.Asks parent [c] v (g.reaches parent fuel c v) := by
  induction fuel generalizing c v with
  | zero =>
    have hlen := hv.length_le
    omega
  | succ fuel ih =>
    unfold reaches
    split_ifs with hparent hstop
    · subst hparent
      exact .found
    · simp only [Bool.or_eq_true, contains_iff_mem, Bool.not_eq_true'] at hstop
      exact .skipped ⟨hparent, hstop⟩ .nobody
    · simp only [Bool.or_eq_true, contains_iff_mem, Bool.not_eq_true', not_or,
        Bool.not_eq_false] at hstop
      obtain ⟨hnew, hc⟩ := hstop
      have hlen : (v.insertEnd c).length = v.length + 1 := by simp [insertEnd, hnew]
      have hparents : g.Asks parent (g.parentsOf c) (v.insertEnd c)
          (anyOf (g.reaches parent fuel) (g.parentsOf c) (v.insertEnd c)) := by
        refine asks_anyOf (fun p u hu _ => ih p hu ?_) (hv.insert hc) (Nat.le_refl _)
        omega
      generalize anyOf (g.reaches parent fuel) (g.parentsOf c) (v.insertEnd c) =
        answer at hparents ⊢
      obtain ⟨_ | _, w⟩ := answer
      · exact .beside hparent hnew hc hparents .nobody
      · exact .above hparent hnew hc hparents

lemma Rejected.of_reflTransGen (hw : g.Failed parent [] w) (h : ReflTransGen g.IsParent c p)
    (hc : g.Rejected parent w c) : g.Rejected parent w p := by
  induction h with
  | refl => exact hc
  | @tail x y _ hxy ih =>
    rcases ih.2 with hx | hx
    · exact hw.rejected x hx not_mem_nil y hxy
    · exact absurd hxy.contains (Bool.eq_false_iff.mp hx)

lemma reaches_iff (hfuel : g.parents.size < fuel) (c : String) :
    (g.reaches parent fuel c []).1 ↔ ReflTransGen g.IsParent c parent := by
  have hanswer : g.Answers parent [c] [] (g.reaches parent fuel c []) :=
    (asks_reaches fuel c ⟨nodup_nil, nofun⟩ hfuel).answers ⟨nodup_nil, nofun⟩
  generalize g.reaches parent fuel c [] = out at hanswer
  cases hanswer with
  | yes hc h =>
    obtain rfl := mem_singleton.mp hc
    exact ⟨fun _ => h, fun _ => rfl⟩
  | no hw hcs =>
    refine ⟨nofun, fun h => ?_⟩
    exact absurd rfl (Rejected.of_reflTransGen hw h (hcs c mem_cons_self)).1

lemma isSubclass_iff : g.isSubclass c p ↔ ReflTransGen g.IsParent c p :=
  reaches_iff (Nat.lt_succ_self _) c

lemma reaches_eq_isSubclass (hfuel : g.parents.size < fuel) (c p : String) :
    (g.reaches p fuel c []).1 = g.isSubclass c p := by
  rw [Bool.eq_iff_iff, reaches_iff hfuel, isSubclass_iff]

/-! ### Flat inheritance -/

lemma Flat.eq_of_isSubclass (h : g.Flat) (hcp : g.isSubclass c p) : c = p := by
  rw [isSubclass_iff] at hcp
  induction hcp with
  | refl => rfl
  | tail _ hlast ih => rw [ih, h _ _ hlast]

lemma Flat.eq_of_related (h : g.Flat) {a b : String} (hab : g.related a b) : a = b := by
  unfold related at hab
  simp only [Bool.or_eq_true, Bool.not_eq_true', isEmpty_eq_false_iff_exists_mem] at hab
  rcases hab with (⟨p, hp⟩ | hab) | hba
  · obtain ⟨ha, hb⟩ := Names.mem_inter.mp hp
    rw [← h a p ha, ← h b p hb]
  · exact h.eq_of_isSubclass hab
  · exact (h.eq_of_isSubclass hba).symm

/-! ### Graphs made of edges -/

def ofEdges (es : List (String × String)) : Inheritance :=
  es.foldl (fun g e => g.addEdge e.1 e.2) {}

def Edge (es : List (String × String)) (c p : String) : Prop := (c, p) ∈ es

variable {es : List (String × String)}

lemma isParent_addEdge {child : String} :
    (g.addEdge child parent).IsParent c p ↔ (c, p) = (child, parent) ∨ g.IsParent c p := by
  simp only [IsParent, parentsOf, addEdge, Names.insertAt, Table.getD_set, Prod.mk.injEq]
  split_ifs with hc
  · subst hc
    simp [mem_insertEnd_iff]
  · simp [hc]

lemma isParent_ofEdges : (ofEdges es).IsParent = Edge es := by
  have hfold (g : Inheritance) (c p : String) :
      (es.foldl (fun g e => g.addEdge e.1 e.2) g).IsParent c p ↔ g.IsParent c p ∨ (c, p) ∈ es := by
    induction es generalizing g with
    | nil => simp
    | cons e es ih =>
      rw [foldl_cons, ih, isParent_addEdge, mem_cons, or_comm (a := _ = _), or_assoc]
  funext c p
  exact propext ((hfold {} c p).trans (or_iff_right not_mem_nil))

lemma mem_subclasses_iff : c ∈ g.subclasses p ↔ g.IsParent c p := by
  simp only [subclasses, mem_filter, contains_iff_mem]
  exact ⟨And.right, fun h => ⟨Table.mem_keys_iff.mpr (IsParent.contains h), h⟩⟩

/-- Also where classes inherit in a circle, the question whether a class is below another one comes
to an end: it is for the class itself and all that edges lead to. -/
theorem isSubclass_ofEdges_iff (es : List (String × String)) (c p : String) :
    (∃ visited, (ofEdges es).Asks p [c] [] ((ofEdges es).isSubclass c p, visited)) ∧
      ((ofEdges es).isSubclass c p = true ↔ p = c ∨ TransGen (Edge es) c p) := by
  constructor
  · exact ⟨_, asks_reaches _ c ⟨List.nodup_nil, nofun⟩ (Nat.lt_succ_self _)⟩
  · rw [isSubclass_iff, reflTransGen_iff_eq_or_transGen, isParent_ofEdges]

/-- Without circles the direct subclasses are all classes below just when no class has one of them
as a parent and not the class itself. -/
theorem subclasses_ofEdges_iff (hes : ∀ c, ¬ TransGen (Edge es) c c) (p : String) :
    (∀ c, c ∈ (ofEdges es).subclasses p ↔ Edge es c p) ∧
      ((∀ c, c ∈ (ofEdges es).subclasses p ↔ c ≠ p ∧ (ofEdges es).isSubclass c p = true) ↔
        ∀ c d, Edge es c d → Edge es d p → Edge es c p) := by
  have hmem (c : String) : c ∈ (ofEdges es).subclasses p ↔ Edge es c p := by
    rw [mem_subclasses_iff, isParent_ofEdges]
  -- the classes below `p` are those with a way to it
  have hbelow (c : String) :
      (c ≠ p ∧ (ofEdges es).isSubclass c p = true) ↔ TransGen (Edge es) c p := by
    rw [isSubclass_iff, isParent_ofEdges, reflTransGen_iff_eq_or_transGen]
    refine ⟨fun ⟨hne, h⟩ => h.resolve_left (Ne.symm hne), fun h => ⟨?_, .inr h⟩⟩
    rintro rfl
    exact hes c h
  refine ⟨hmem, ?_⟩
  simp only [hmem, hbelow]
  refine ⟨fun h c d hcd hdp => (h c).mpr (.head hcd (.single hdp)), fun h c =>
    ⟨.single, fun hway => ?_⟩⟩
  induction hway using TransGen.head_induction_on with
  | single hlast => exact hlast
  | head hcd _ ih => exact h _ _ hcd ih

def threeLevels : List (String × String) := [("B", "A"), ("C", "B")]

lemma edge_threeLevels {a b : String} :
    Edge threeLevels a b ↔ (a = "B" ∧ b = "A") ∨ (a = "C" ∧ b = "B") := by simp [Edge, threeLevels]

lemma threeLevels_acyclic (c : String) : ¬ TransGen (Edge threeLevels) c c := by
  have : IsTrans String fun a b => b < a := ⟨fun _ _ _ hab hbc => String.lt_trans hbc hab⟩
  have hlt : TransGen (Edge threeLevels) ≤ fun a b => b < a := by
    refine transGen_minimal fun a b hab => ?_
    rcases edge_threeLevels.mp hab with ⟨rfl, rfl⟩ | ⟨rfl, rfl⟩ <;> decide
  exact fun h => String.lt_irrefl c (hlt c c h)

/-- The middle one of three levels has all classes below it as subclasses. -/
theorem subclasses_threeLevels_middle :
    (∀ c, ¬ TransGen (Edge threeLevels) c c) ∧ ∀ c, c ∈ (ofEdges threeLevels).subclasses "B" ↔
      c ≠ "B" ∧ (ofEdges threeLevels).isSubclass c "B" = true :=
  ⟨threeLevels_acyclic, (subclasses_ofEdges_iff threeLevels_acyclic "B").2.mpr
    (by simp only [edge_threeLevels]; rintro c d (⟨rfl, rfl⟩ | ⟨rfl, rfl⟩) <;> decide)⟩

/-- The highest one has not: a subclass of its subclass is left out. -/
theorem subclasses_threeLevels_top :
    (ofEdges threeLevels).isSubclass "C" "A" = true ∧
    "C" ∉ (ofEdges threeLevels).subclasses "A" := by
  decide

end Inheritance

end SinkTrace
