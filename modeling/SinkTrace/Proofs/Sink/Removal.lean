import Mathlib.Data.List.Nodup
import Mathlib.Data.List.Pairwise
import SinkTrace.Proofs.Sink.Filter

/-!
# What a filter leaves

A method that has no callees leads nowhere. A filter removes such methods, and with each of them the
callers that are left without callees. So none of them is there at the end, and no node without
methods, if no two methods share a set.
-/

namespace SinkTrace

open Table Option List

namespace Pool

lemma get_modify {p : Pool} {i j : SetId} {f : Names → Names} (hf : f [] = []) :
    (p.modify i f).get j = if j = i then f (p.get j) else p.get j := by
  unfold modify get
  rw [getD_eq_getElem?_getD, getD_eq_getElem?_getD, getElem?_modify]
  split_ifs with h h' h'
  · cases p.sets[j]? with
    | none => exact hf.symm
    | some s => rfl
  · exact absurd h.symm h'
  · exact absurd h'.symm h
  · simp

end Pool

namespace Sinks

open Act Relation

variable {Z : String} {f : SinkNode → SinkNode}

/-! ### Methods that share no set -/

def Links.places (l : Links) : List SetId := [l.callees, l.callers]

def places (ss : Sinks) : List SetId :=
  ss.nodes.entries.flatMap fun e => e.2.methodUsers.entries.flatMap fun d => Links.places d.2

/-- No set belongs to two methods, or to a method twice. -/
def Unshared (ss : Sinks) : Prop := ss.places.Nodup

instance (ss : Sinks) : Decidable ss.Unshared := inferInstanceAs (Decidable ss.places.Nodup)

namespace Search

/-- The method is written down for the node; nodes that were taken out count too. -/
def Has (s : Search) (X x : String) (l : Links) : Prop :=
  ∃ n, s.node? X = some n ∧ (x, l) ∈ n.methodUsers.entries

lemma has_of_links? {s : Search} {X x : String} {l : Links} (h : s.links? X x = some l) :
    s.Has X x l := by
  obtain ⟨n, hn, hx⟩ := bind_eq_some_iff.mp h
  exact ⟨n, hn, mem_entries_of_get? hx⟩

/-- No set belongs to two methods, or to a method twice; nodes that were taken out count too. -/
structure Apart (s : Search) : Prop where
  method : ∀ X x l Y y l', s.Has X x l → s.Has Y y l' →
    ∀ i, i ∈ Links.places l → i ∈ Links.places l' → l = l' ∧ X = Y ∧ x = y
  sides : ∀ X x l, s.Has X x l → l.callees ≠ l.callers

/-- The callers of `l` are the callees of no method. -/
def CallersOnly (s : Search) (l : Links) : Prop := ∀ X x l', s.Has X x l' → l'.callees ≠ l.callers

lemma Apart.callersOnly {s : Search} (h : s.Apart) {X x : String} {l : Links} (hl : s.Has X x l) :
    s.CallersOnly l := by
  intro Y y l' hl' heq
  obtain ⟨rfl, -, -⟩ := h.method Y y l' X x l hl' hl l'.callees (by simp [Links.places])
    (by simp [Links.places, heq])
  exact h.sides Y y l' hl' heq

lemma Apart.of_has {s t : Search} (h : s.Apart) (hhas : ∀ X x l, t.Has X x l → s.Has X x l) :
    t.Apart where
  method X x l Y y l' hl hl' := h.method X x l Y y l' (hhas X x l hl) (hhas Y y l' hl')
  sides X x l hl := h.sides X x l (hhas X x l hl)

end Search

lemma eq_of_nodup_flatMap {α β : Type} {f : α → List β} {as : List α} (h : (as.flatMap f).Nodup)
    {a b : α} (ha : a ∈ as) (hb : b ∈ as) {i : β} (hi : i ∈ f a) (hi' : i ∈ f b) : a = b := by
  by_contra hne
  have : Std.Symm (Function.onFun List.Disjoint f) := ⟨fun _ _ hab _ hb ha => hab ha hb⟩
  exact (nodup_flatMap.mp h).2.forall ha hb hne hi hi'

lemma Unshared.apart {ss : Sinks} (h : ss.Unshared) : Search.Apart { sinks := ss } := by
  have entries {X x : String} {l : Links} (hl : Search.Has { sinks := ss } X x l) :
      ∃ n, (X, n) ∈ ss.nodes.entries ∧ (x, l) ∈ n.methodUsers.entries := by
    obtain ⟨n, hn, hx⟩ := hl
    refine ⟨n, mem_entries_of_get? ?_, hx⟩
    rw [← hn, Search.node?, Sinks.node?]
    cases ss.nodes.get? X <;> rfl
  have hnodes := (nodup_flatMap.mp h).1
  refine ⟨fun X x l Y y _ hl hl' i hi hi' => ?_, fun X x l hl => ?_⟩
  · obtain ⟨n, hX, hx⟩ := entries hl
    obtain ⟨n', hY, hy⟩ := entries hl'
    cases eq_of_nodup_flatMap h hX hY (mem_flatMap.mpr ⟨_, hx, hi⟩) (mem_flatMap.mpr ⟨_, hy, hi'⟩)
    cases eq_of_nodup_flatMap (hnodes _ hX) hx hy hi hi'
    exact ⟨rfl, rfl, rfl⟩
  · obtain ⟨n, hX, hx⟩ := entries hl
    have hsides := (nodup_flatMap.mp (hnodes _ hX)).1 _ hx
    simpa [Links.places] using hsides

/-! ### Inversion of the steps -/

namespace Search

/-- The node is marked with its own name. -/
def OwnMark (s : Search) (X : String) : Prop := ∀ n, s.node? X = some n → n.module = X

variable {s : Search} {X x name : String} {l : Links} {n : SinkNode}

lemma sinks_node?_adjustNode (s : Search) (name X : String) (f : SinkNode → SinkNode) :
    (s.adjustNode name f).sinks.node? X
      = if X = name then (s.sinks.node? X).map f else s.sinks.node? X := by
  unfold adjustNode
  split_ifs with hname hX hX
  · exact Sinks.node?_adjustNode.trans (if_pos hX)
  · exact Sinks.node?_adjustNode.trans (if_neg hX)
  · have hnone := not_contains_iff.mp (Bool.eq_false_iff.mpr hname)
    subst hX
    change s.sinks.nodes.get? X = (s.sinks.nodes.get? X).map f
    rw [hnone]
    rfl
  · rfl

lemma adjustNode_frame (s : Search) :
    (s.adjustNode name f).sinks.pool = s.sinks.pool ∧ (s.adjustNode name f).trail = s.trail ∧
      (s.adjustNode name f).traced = s.traced ∧
      (s.adjustNode name f).sinks.roots = s.sinks.roots := by
  unfold adjustNode
  split_ifs <;> exact ⟨rfl, rfl, rfl, rfl⟩

lemma setOf_adjustNode (s : Search) (name : String) (f : SinkNode → SinkNode) (i : SetId) :
    (s.adjustNode name f).sinks.setOf i = s.sinks.setOf i :=
  congrArg (Pool.get · i) s.adjustNode_frame.1

/-- One set is changed. -/
structure Resets (i : SetId) (f : Names → Names) (s t : Search) : Prop where
  nodes : ∀ X, t.sinks.node? X = s.sinks.node? X
  removed : t.removed = s.removed
  traced : t.traced = s.traced
  sets : ∀ j, t.sinks.setOf j = if j = i then f (s.sinks.setOf j) else s.sinks.setOf j

lemma resets_adjustSet {i : SetId} {f : Names → Names} (hf : f [] = []) :
    Resets i f s (s.adjustSet i f) := ⟨fun _ => rfl, rfl, rfl, fun _ => Pool.get_modify hf⟩

lemma links?_of_sinks (h : s.sinks.links? X x = some l) : s.links? X x = some l := by
  obtain ⟨n, hn, hx⟩ := bind_eq_some_iff.mp h
  rw [links?, node?_of_sinks hn]
  exact hx

lemma has_of_sinks (h : s.sinks.links? X x = some l) : s.Has X x l :=
  has_of_links? (links?_of_sinks h)

end Search

open Search

variable {s t u v : Search} {mod gone caller : String} {l : Links} {lost lost' : Names} {r : Unit}
  {prune : Links → String → String → Searching Unit}

variable {callerMod : String}

lemma uncall_ok (h : uncall gone l s = (.ok r, t)) :
    Resets l.callees (fun ns => ns.erase gone) s t := by
  replace h := of_get_bind h
  rw [run_ite] at h
  split_ifs at h with hgone
  · cases h
    exact ⟨fun _ => rfl, rfl, rfl, fun _ => Pool.get_modify rfl⟩
  · cases h
    refine ⟨fun _ => rfl, rfl, rfl, fun i => ?_⟩
    split_ifs with hi
    · rw [hi, erase_of_not_mem fun hmem => hgone (contains_iff_mem.mpr hmem)]
    · rfl

/-! ### Methods without callees, nodes without methods -/

namespace Search

/-- The method is there and has no callees. -/
def Dead (s : Search) (X x : String) (l : Links) : Prop :=
  s.sinks.links? X x = some l ∧ s.sinks.setOf l.callees = []

/-- The node is there and has no methods. -/
def Bare (s : Search) (X : String) : Prop :=
  ∃ n, s.sinks.node? X = some n ∧ n.methodUsers.isEmpty = true

/-- Nodes and methods only go away, and marks are only set right. -/
structure Narrows (s t : Search) : Prop where
  nodes : ∀ X, (t.sinks.node? X).isSome = true → (s.sinks.node? X).isSome = true
  has : ∀ X x l, t.Has X x l → s.Has X x l
  marks : ∀ X, s.OwnMark X → t.OwnMark X

/-- Besides, no method is left without callees, and no node but `but` without methods. -/
structure Tidies (but : Option String) (s t : Search) : Prop extends Narrows s t where
  dead : ∀ X x l, t.Dead X x l → s.Dead X x l
  bare : ∀ X, but ≠ some X → t.Bare X → s.Bare X

variable {but : Option String} {name X x : String} {n : SinkNode}

lemma Narrows.refl (s : Search) : Narrows s s := ⟨fun _ h => h, fun _ _ _ h => h, fun _ h => h⟩

lemma Narrows.trans (h : Narrows s t) (h' : Narrows t u) : Narrows s u where
  nodes X hX := h.nodes X (h'.nodes X hX)
  has X x l hl := h.has X x l (h'.has X x l hl)
  marks X hX := h'.marks X (h.marks X hX)

lemma Tidies.refl (s : Search) : Tidies but s s := ⟨.refl s, fun _ _ _ h => h, fun _ _ h => h⟩

lemma Tidies.trans (h : Tidies but s t) (h' : Tidies but t u) : Tidies but s u where
  toNarrows := h.toNarrows.trans h'.toNarrows
  dead X x l hx := h.dead X x l (h'.dead X x l hx)
  bare X hne hX := h.bare X hne (h'.bare X hne hX)

lemma Tidies.no_exception (h : Tidies (some X) s t) (hX : but ≠ some X → ¬ t.Bare X) :
    Tidies but s t where
  toNarrows := h.toNarrows
  dead := h.dead
  bare Y hY hbare := by
    by_cases hXY : X = Y
    · subst hXY
      exact absurd hbare (hX hY)
    · exact h.bare Y (fun heq => hXY (some.inj heq)) hbare

lemma narrows_way (s : Search) (trail : List String) : Narrows s { s with trail } :=
  ⟨fun _ h => h, fun _ _ _ h => h, fun _ h => h⟩

lemma tidies_way (s : Search) {trail : List String} : Tidies but s { s with trail } :=
  ⟨narrows_way s trail, fun _ _ _ h => h, fun _ _ h => h⟩

lemma has_of_adjustNode (hf : ∀ n, (f n).methodUsers.entries ⊆ n.methodUsers.entries)
    (h : (s.adjustNode name f).Has X x l) : s.Has X x l := by
  obtain ⟨n', hn', hx⟩ := h
  rw [node?_adjustNode] at hn'
  split_ifs at hn'
  · obtain ⟨n, hn, rfl⟩ := map_eq_some_iff.mp hn'
    exact ⟨n, hn, hf n hx⟩
  · exact ⟨n', hn', hx⟩

lemma isSome_node?_adjustNode (s : Search) (name X : String) (f : SinkNode → SinkNode) :
    ((s.adjustNode name f).sinks.node? X).isSome = (s.sinks.node? X).isSome := by
  rw [sinks_node?_adjustNode]
  split_ifs
  · exact isSome_map
  · rfl

lemma ownMark_marked : (s.marked name).OwnMark name := by
  intro n hn
  rw [node?_adjustNode, if_pos rfl] at hn
  obtain ⟨n', -, rfl⟩ := map_eq_some_iff.mp hn
  rfl

lemma sinks_links?_mark (s : Search) (name module X x : String) :
    (s.adjustNode name fun n => { n with module }).sinks.links? X x = s.sinks.links? X x := by
  unfold Sinks.links?
  rw [sinks_node?_adjustNode]
  split_ifs
  · cases s.sinks.node? X <;> rfl
  · rfl

lemma narrows_marked (s : Search) (name : String) : Narrows s (s.marked name) where
  nodes X hX := by rwa [isSome_node?_adjustNode] at hX
  has X x l := has_of_adjustNode fun _ => Subset.refl _
  marks X hX := by
    by_cases hname : X = name
    · rw [hname]
      exact ownMark_marked
    · intro n hn
      rw [node?_adjustNode, if_neg hname] at hn
      exact hX n hn

lemma tidies_marked : Tidies but s (s.marked name) where
  toNarrows := narrows_marked s name
  dead X x l := by
    rintro ⟨hl, hempty⟩
    rw [sinks_links?_mark] at hl
    rw [setOf_adjustNode] at hempty
    exact ⟨hl, hempty⟩
  bare X _ := by
    rintro ⟨n, hn, hempty⟩
    rw [sinks_node?_adjustNode] at hn
    split_ifs at hn
    · obtain ⟨n', hn', rfl⟩ := map_eq_some_iff.mp hn
      exact ⟨n', hn', hempty⟩
    · exact ⟨n, hn, hempty⟩

lemma sinks_links?_without (s : Search) (mod method X x : String) :
    (s.without mod method).sinks.links? X x
      = if X = mod ∧ x = method then none else s.sinks.links? X x := by
  unfold Sinks.links?
  rw [sinks_node?_adjustNode]
  split_ifs with hX hXx hXx
  · obtain ⟨-, rfl⟩ := hXx
    cases s.sinks.node? X <;> simp [get?_erase]
  · have hx : x ≠ method := fun hx => hXx ⟨hX, hx⟩
    cases s.sinks.node? X <;> simp [get?_erase, hx]
  · exact absurd hXx.1 hX
  · rfl

lemma dead_of_without {method : String} (h : (s.without mod method).Dead X x l) :
    ¬ (X = mod ∧ x = method) ∧ s.Dead X x l := by
  obtain ⟨hl, hempty⟩ := h
  rw [sinks_links?_without] at hl
  rw [setOf_adjustNode] at hempty
  split_ifs at hl with hXx
  exact ⟨hXx, hl, hempty⟩

lemma narrows_without (s : Search) (mod method : String) : Narrows s (s.without mod method) where
  nodes X hX := by rwa [isSome_node?_adjustNode] at hX
  has X x l := has_of_adjustNode fun _ => filter_subset_self _
  marks X hX n hn := by
    rw [node?_adjustNode] at hn
    split_ifs at hn
    · obtain ⟨n', hn', rfl⟩ := map_eq_some_iff.mp hn
      exact hX n' hn'
    · exact hX n hn

lemma tidies_without (s : Search) (mod method : String) :
    Tidies (some mod) s (s.without mod method) where
  toNarrows := narrows_without s mod method
  dead X x l hdead := (dead_of_without hdead).2
  bare X hX := by
    rintro ⟨n, hn, hempty⟩
    rw [sinks_node?_adjustNode, if_neg fun heq => hX (congrArg some heq.symm)] at hn
    exact ⟨n, hn, hempty⟩

lemma sinks_node?_taken (s : Search) (name : String) (n : SinkNode) (X : String) :
    (s.taken name n).sinks.node? X = if X = name then none else s.sinks.node? X := get?_erase ..

lemma narrows_taken (hn : s.sinks.node? name = some n) : Narrows s (s.taken name n) where
  nodes X hX := by
    rw [sinks_node?_taken] at hX
    split_ifs at hX
    · cases hX
    · exact hX
  has X x l := by
    rintro ⟨n', hn', hx⟩
    exact ⟨n', by rwa [node?_taken hn] at hn', hx⟩
  marks X hX n' hn' := hX n' (by rwa [node?_taken hn] at hn')

lemma tidies_taken (hn : s.sinks.node? name = some n) : Tidies but s (s.taken name n) where
  toNarrows := narrows_taken hn
  dead X x l := by
    rintro ⟨hl, hempty⟩
    refine ⟨?_, hempty⟩
    obtain ⟨n', hn', hx⟩ := bind_eq_some_iff.mp hl
    rw [sinks_node?_taken] at hn'
    split_ifs at hn'
    rw [Sinks.links?, hn']
    exact hx
  bare X _ := by
    rintro ⟨n', hn', hempty⟩
    rw [sinks_node?_taken] at hn'
    split_ifs at hn'
    exact ⟨n', hn', hempty⟩

lemma narrows_of_nodes (hnodes : ∀ X, t.sinks.node? X = s.sinks.node? X)
    (hremoved : t.removed = s.removed) : Narrows s t where
  nodes X hX := by rwa [hnodes] at hX
  has X x l := by
    rintro ⟨n, hn, hx⟩
    rw [node?, hnodes, hremoved] at hn
    exact ⟨n, hn, hx⟩
  marks X hX n hn := by
    rw [node?, hnodes, hremoved] at hn
    exact hX n hn

lemma tidies_of_sets (hnodes : ∀ X, t.sinks.node? X = s.sinks.node? X)
    (hremoved : t.removed = s.removed)
    (hsets : ∀ X x l, s.sinks.links? X x = some l → t.sinks.setOf l.callees = [] →
      s.sinks.setOf l.callees = []) : Tidies but s t where
  toNarrows := narrows_of_nodes hnodes hremoved
  dead X x l := by
    rintro ⟨hl, hempty⟩
    have hl' : s.sinks.links? X x = some l := by rwa [Sinks.links?, hnodes] at hl
    exact ⟨hl', hsets X x l hl' hempty⟩
  bare X _ := by
    rintro ⟨n, hn, hempty⟩
    exact ⟨n, by rwa [hnodes] at hn, hempty⟩

lemma not_bare_of_full (h : ∀ n, s.node? X = some n → n.methodUsers.isEmpty = false) :
    ¬ s.Bare X := by
  rintro ⟨n, hn, hempty⟩
  rw [h n (node?_of_sinks hn)] at hempty
  cases hempty

end Search

/-! ### Removals are tidy -/

variable {but : Option String} {method : String}

lemma tidies_callerNode? {node : Option String}
    (h : callerNode? mod callerMod s = (.ok node, t)) : Tidies but s t := by
  rcases callerNode?_ok h with ⟨-, -, rfl⟩ | ⟨-, -, rfl⟩ | ⟨-, rfl⟩
  · exact .refl _
  · exact .refl _
  · exact tidies_marked

lemma ownMark_of_callerNode? (h : callerNode? mod callerMod s = (.ok (some Z), t)) (hZ : Z ≠ mod) :
    t.OwnMark Z := by
  rcases callerNode?_ok h with ⟨hr, -⟩ | ⟨hr, -⟩ | ⟨hr, rfl⟩
  · cases hr
  · exact absurd (some.inj hr) hZ
  · rw [some.inj hr]
    exact ownMark_marked

lemma tidies_closes (but : Option String) (h : Closes mod name s t) :
    Tidies but s t ∧ ((∀ n, s.node? mod = some n → name n = mod) → ¬ t.Bare mod) := by
  cases h with
  | full hfull => exact ⟨.refl _, fun _ => not_bare_of_full hfull⟩
  | empty hn hempty hn' =>
    refine ⟨tidies_taken hn', fun hname ⟨m, hm, _⟩ => ?_⟩
    rw [sinks_node?_taken, if_pos (hname _ hn).symm] at hm
    cases hm

def PruneTidies (prune : Links → String → String → Searching Unit) : Prop :=
  ∀ l gone mod s t, s.Apart → s.CallersOnly l → prune l gone mod s = (.ok (), t) →
    Tidies (some mod) s t

lemma tidies_uncall {y : String} (hprune : PruneTidies prune) (hs : s.Apart)
    (hl : s.links? Z y = some l) (huncall : uncall gone l s = (.ok (), u))
    (hdrop : u.sinks.setOf l.callees ≠ [] ∧ v = u ∨
      u.sinks.setOf l.callees = [] ∧ dropAfter prune l caller Z y u = (.ok (), v)) :
    Tidies (some Z) s v := by
  obtain ⟨hnodes, hremoved, -, hsets⟩ := uncall_ok huncall
  -- the sets of other methods are as before
  have hother {X x : String} {l' : Links} (hl' : s.sinks.links? X x = some l')
      (hne : ¬ (X = Z ∧ x = y)) : u.sinks.setOf l'.callees = s.sinks.setOf l'.callees := by
    rw [hsets, if_neg]
    intro heq
    exact hne (hs.method X x l' Z y l (has_of_sinks hl') (has_of_links? hl) l'.callees
      (by simp [Links.places]) (by simp [Links.places, heq])).2
  rcases hdrop with ⟨hkept, rfl⟩ | ⟨-, hdrop⟩
  · refine tidies_of_sets hnodes hremoved fun X x l' hl' hempty => ?_
    by_cases hne : X = Z ∧ x = y
    · obtain ⟨rfl, rfl⟩ := hne
      obtain rfl : l' = l := some.inj ((links?_of_sinks hl').symm.trans hl)
      exact absurd hempty hkept
    · rwa [hother hl' hne] at hempty
  · obtain ⟨u', hrun, -, rfl⟩ := dropAfter_ok hdrop
    have hsu := narrows_of_nodes hnodes hremoved
    have hu' := hprune l caller Z u u' (hs.of_has hsu.has)
      (fun X x l' hl' => hs.callersOnly (has_of_links? hl) X x l' (hsu.has X x l' hl')) hrun
    have hv := hu'.trans (tidies_without u' Z y)
    refine ⟨hsu.trans hv.toNarrows, fun X x l' hdead => ?_, fun X hX hbare => ?_⟩
    · obtain ⟨hne, hdead⟩ := dead_of_without hdead
      obtain ⟨hl', hempty⟩ := hu'.dead X x l' hdead
      have hl'' : s.sinks.links? X x = some l' := by rwa [Sinks.links?, hnodes] at hl'
      exact ⟨hl'', by rwa [hother hl'' hne] at hempty⟩
    · obtain ⟨n, hn, hempty⟩ := hv.bare X hX hbare
      exact ⟨n, by rwa [hnodes] at hn, hempty⟩

lemma tidies_pruneCaller (hprune : PruneTidies prune) (hs : s.Apart)
    (h : Pruned prune gone mod caller s t) : Tidies (some mod) s t := by
  cases h with
  | onTrail => exact .refl _
  | noMethod hnode => exact (tidies_way s).trans (tidies_callerNode? hnode)
  | @method Y y Z l t u v w _ hnode hlinks huncall hdrop hclose =>
    have hst : Tidies (some Z) s t := (tidies_way s).trans (tidies_callerNode? hnode)
    have htv := tidies_uncall hprune (hs.of_has hst.has) hlinks huncall hdrop
    obtain ⟨hvw, hgone⟩ : Tidies (some Z) v w ∧ (v.OwnMark Z → ¬ w.Bare Z) := tidies_closes _ hclose
    have hsw := (hst.trans htv).trans hvw
    refine (hsw.no_exception fun hne => hgone (htv.marks Z ?_)).trans (tidies_way w)
    exact ownMark_of_callerNode? hnode fun heq => hne (congrArg some heq.symm)

lemma tidies_prune {fuel : Nat} : PruneTidies (Sinks.prune fuel) := by
  induction fuel with
  | zero => exact fun _ _ _ _ _ _ _ h => nomatch h
  | succ fuel ih =>
    intro l gone mod s t hs hl h
    obtain ⟨f, lost, u, hf, hfold, rfl⟩ := prune_ok h
    have hsu : Tidies (some mod) s u := by
      refine foldlM_keeps (fun lost caller _ v lost' w hv hrun => hv.trans ?_) (.refl s) hfold
      exact tidies_pruneCaller ih (hs.of_has hv.has) (hf lost caller v lost' w hrun)
    refine hsu.trans (tidies_of_sets (fun _ => rfl) rfl fun X x l' hl' hempty => ?_)
    have hne : l'.callees ≠ l.callers := hl X x l' (hsu.has X x l' (has_of_sinks hl'))
    rw [← hempty]
    exact (((resets_adjustSet rfl).sets _).trans (if_neg hne)).symm

lemma tidies_removeMethod (hs : s.Apart) (hl : s.CallersOnly l)
    (h : removeMethod mod method l s = (.ok r, t)) :
    Tidies (some mod) s t ∧ t.links? mod method = none := by
  obtain ⟨fuel, hdrop⟩ := removeMethod_ok h
  obtain ⟨u, hprune, -, rfl⟩ := dropAfter_ok hdrop
  have hway : Tidies (some mod) s { s with trail := [mod ++ ":" ++ method] } := tidies_way s
  have hsu := hway.trans (tidies_prune l _ mod _ u (hs.of_has hway.has) hl hprune)
  refine ⟨hsu.trans (tidies_without u mod method), ?_⟩
  rw [links?_without, if_pos ⟨rfl, rfl⟩]

/-! ### The filter as a whole -/

lemma Search.Look.apart (h : Look s t) (hs : s.Apart) : t.Apart := by
  cases h with
  | way => exact hs.of_has fun _ _ _ hx => hx
  | mark => exact hs.of_has fun _ _ _ => has_of_adjustNode fun _ => Subset.refl _
  | set => exact hs.of_has fun _ _ _ hx => hx

lemma Looking.apart {α : Type} {a : Searching α} (h : Looking a) {v : α} (hrun : a s = (.ok v, t))
    (hs : s.Apart) : t.Apart := (h.mono fun _ _ hst => hst.apart).yields.keeps hrun hs

lemma apart_of_tries (hs : s.Apart) (h : Tries mod method s t) : t.Apart := by
  cases h with
  | missing => exact hs
  | remove hl _ h => exact hs.of_has (tidies_removeMethod hs
      (hs.callersOnly (has_of_links? hl)) h).1.has
  | trace _ _ h => exact (looking_trace _ _).apart h (hs.of_has fun _ _ _ hx => hx)

lemma apart_of_enters {methods : List String} (hs : s.Apart) (h : Enters mod methods s t) :
    t.Apart := by
  cases h with
  | absent => exact hs
  | methods hf hrun hclose =>
    have hmark := hs.of_has (narrows_marked s mod).has
    have hu := forM_keeps (fun x _ s t hs hrun => apart_of_tries hs (hf x s t hrun)) hmark hrun
    exact hu.of_has (tidies_closes none hclose).1.has

lemma apart_filterRoots (hs : s.Apart) (h : filterRoots s = (.ok r, t)) : t.Apart := by
  obtain ⟨f, hf, hrun⟩ := filterRoots_ok h
  exact forM_keeps (fun e _ s t hs hrun => apart_of_enters hs (hf e s t hrun)) hs hrun

/-- If the node is there, it has methods, and all of them have callees. -/
def Search.Clean (s : Search) (X : String) : Prop := ¬ s.Bare X ∧ ∀ x l, ¬ s.Dead X x l

lemma stable_clean {X : String} : Stable (Clean · X) (Tidies none) :=
  fun _ _ hs hst => ⟨fun hbare => hs.1 (hst.bare X nofun hbare), fun x l h =>
    hs.2 x l (hst.dead X x l h)⟩

lemma clean_of_none {X : String} (h : s.sinks.node? X = none) : s.Clean X := by
  refine ⟨fun ⟨n, hn, _⟩ => ?_, fun x l ⟨hl, _⟩ => ?_⟩
  · rw [h] at hn
    cases hn
  · rw [Sinks.links?, h] at hl
    cases hl

lemma sweep_methods {f : String × Links → Searching Unit} (hs : s.Apart)
    (hn : s.sinks.node? mod = some n) (hf : ∀ e s t, f e s = (.ok (), t) → Weeds mod e s t)
    (h : n.methodUsers.entries.forM f s = (.ok r, t)) :
    Tidies (some mod) s t ∧ ∀ x l, ¬ t.Dead mod x l := by
  have hstep (e : String × Links) (he : e ∈ n.methodUsers.entries) (u v : Search)
      (hu : Tidies (some mod) s u) (hrun : f e u = (.ok (), v)) :
      Tidies (some mod) s v ∧ Tidies (some mod) u v ∧ ¬ v.Dead mod e.1 e.2 := by
    rcases hf e u v hrun with ⟨rfl, hkept⟩ | ⟨-, hrun⟩
    · refine ⟨hu, .refl _, fun ⟨hl, hempty⟩ => hkept.elim (fun hnone => ?_) (· hempty)⟩
      rw [links?_of_sinks hl] at hnone
      cases hnone
    · have honly : u.CallersOnly e.2 := fun X x l' hl' =>
        hs.callersOnly ⟨n, node?_of_sinks hn, he⟩ X x l' (hu.has X x l' hl')
      obtain ⟨huv, hgone⟩ := tidies_removeMethod (hs.of_has hu.has) honly hrun
      refine ⟨hu.trans huv, huv, fun ⟨hl, _⟩ => ?_⟩
      rw [links?_of_sinks hl] at hgone
      cases hgone
  rw [forM_eq_foldlM] at h
  obtain ⟨-, hst, hlive⟩ := foldlM_all (Q := fun e u => ¬ u.Dead mod e.1 e.2) .refl
    (fun _ _ _ => .trans) (fun e u v hu huv hv => hu (huv.dead _ _ _ hv))
    (fun _ e he u _ v => hstep e he u v) (.refl s) h
  refine ⟨hst, fun x l hdead => hlive (x, l) ?_ hdead⟩
  obtain ⟨n', hn', hx⟩ := hst.has mod x l (has_of_sinks hdead.1)
  cases (node?_of_sinks hn).symm.trans hn'
  exact hx

lemma sweep_node (hs : s.Apart) (h : Sweeps mod s t) : Tidies none s t ∧ t.Clean mod := by
  cases h with
  | absent hnone => exact ⟨.refl _, clean_of_none hnone⟩
  | untraced _ hn => exact ⟨tidies_taken hn, clean_of_none (by rw [sinks_node?_taken, if_pos rfl])⟩
  | methods _ hn hf hrun hclose =>
    obtain ⟨hsu, hlive⟩ := sweep_methods hs hn hf hrun
    obtain ⟨hut, hbare⟩ := tidies_closes (some mod) hclose
    replace hbare := hbare fun _ _ => rfl
    exact ⟨(hsu.trans hut).no_exception fun _ => hbare, hbare, fun x l hdead =>
      hlive x l (hut.dead mod x l hdead)⟩

lemma filterRest_clean (hs : s.Apart) (h : filterRest s = (.ok files, t))
    (X : String) : t.Clean X := by
  obtain ⟨f, hf, hrun⟩ := filterRest_ok h
  obtain ⟨-, hst, hclean⟩ := foldlM_all .refl
    (fun _ _ _ => .trans) (fun e => stable_clean) (fun files e _ s files' t hs hrun => by
      obtain ⟨hst, hclean⟩ := sweep_node hs (hf files e s files' t hrun)
      exact ⟨hs.of_has hst.has, hst, hclean⟩) hs hrun
  cases hX : t.sinks.node? X with
  | none => exact clean_of_none hX
  | some n =>
    obtain ⟨n₀, hn₀⟩ := isSome_iff_exists.mp (hst.nodes X (by rw [hX]; rfl))
    exact hclean (X, n₀) (mem_entries_of_get? hn₀)

/-- If no two methods share a set, a filter leaves no empty node and no method without callees. -/
theorem filterMethods_leaves_no_dead_ends {ss ss' : Sinks} (hss : ss.Unshared)
    (h : filterMethods ss = (.ok files, ss')) {X : String}
    (hn : ss'.node? X = some n) :
    n.methodUsers.isEmpty = false ∧
      ∀ x l, n.methodUsers.get? x = some l → ss'.setOf l.callees ≠ [] := by
  obtain ⟨t, hrun, rfl⟩ := searching_ok h
  obtain ⟨_, u, hoverlaps, hrun⟩ := of_bind hrun
  obtain ⟨_, v, hroots, hrest⟩ := of_bind hrun
  have hu := looking_overlaps.apart hoverlaps hss.apart
  obtain ⟨hbare, hdead⟩ := filterRest_clean (apart_filterRoots hu hroots) hrest X
  refine ⟨Bool.eq_false_iff.mpr fun hempty => hbare ⟨n, hn, hempty⟩, fun x l hl hempty => ?_⟩
  exact hdead x l ⟨by rw [Sinks.links?, hn]; exact hl, hempty⟩

/-- The methods `h` and `k` of `b` call each other, and `h` calls a sink. `f` leads nowhere, nor
does its caller `g`, which `k` calls. -/
def sideBranch : Sinks where
  pool := { sets := [["os:popen"], ["a:g"], ["a:f"], ["b:k"], ["io:system", "b:k"], ["b:k"],
    ["a:g", "b:h"], ["b:h"], ["io"]] }
  nodes := Table.ofList
    [("a", { methodUsers := Table.ofList [("f", ⟨0, 1⟩), ("g", ⟨2, 3⟩)] }),
      ("b", { methodUsers := Table.ofList [("h", ⟨4, 5⟩), ("k", ⟨6, 7⟩)],
              moduleUsers := Table.ofList [("h", 8)] })]
  roots := Table.ofList
    [("a", Table.ofList [("f", ["os:popen"])]), ("b", Table.ofList [("h", ["io:system"])])]

theorem filterMethods_leaves_no_dead_ends_branch : sideBranch.Unshared ∧
      ∃ ss' n, filterMethods sideBranch = (.ok [""], ss') ∧ (ss'.node? "a").isNone = true ∧
        ss'.node? "b" = some n ∧ n.methodUsers.keys = ["h", "k"] ∧ n.methodUsers.isEmpty = false ∧
        ∀ x l, n.methodUsers.get? x = some l → ss'.setOf l.callees ≠ [] := by
  have hfiles : (filterMethods sideBranch).1.toOption = some [""] := by decide +kernel
  have hrun := eq_of_toOption hfiles
  have hkeys : ((filterMethods sideBranch).2.node? "b").map (·.methodUsers.keys) =
      some ["h", "k"] := by
    decide +kernel
  obtain ⟨n, hn, hkeys⟩ := Option.map_eq_some_iff.mp hkeys
  have hunshared : sideBranch.Unshared := by decide +kernel
  exact ⟨hunshared, _, n, hrun, by decide +kernel, hn, hkeys,
    filterMethods_leaves_no_dead_ends hunshared hrun hn⟩

end Sinks

end SinkTrace
