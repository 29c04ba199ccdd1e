import SinkTrace.Proofs.Act
import SinkTrace.Proofs.Sink.Methods
import SinkTrace.Sink.Filter

/-!
# What a filter takes from the register

The register says for the name of a method which modules have a method of that name that leads to a
sink. A filter removes methods of single modules, and where it removes one that a caller still calls
it forgets the whole entry of the name. Thus a method that stays may lose its entry, but only when a
method of the same name was removed somewhere.
-/

namespace SinkTrace

open Table

namespace Sinks

open Relation Act

variable {s t : Search} {X name x mod gone caller : String} {α : Type} {fuel : Nat} {l : Links}
  {files : List String} {ss ss' : Sinks} {r : Unit} {extra : String → Prop}
  {prune : Links → String → String → Searching Unit}

/-! ### Methods of nodes -/

namespace Search

variable {f : SinkNode → SinkNode} {m : String}

lemma node?_adjustNode (s : Search) (name X : String) (f : SinkNode → SinkNode) :
    (s.adjustNode name f).node? X = if X = name then (s.node? X).map f else s.node? X := by
  unfold adjustNode
  by_cases hname : s.sinks.nodes.contains name
  · obtain ⟨n, hn⟩ := contains_iff.mp hname
    rw [if_pos hname]
    simp only [node?, Sinks.node?, Sinks.adjustNode, get?_modify]
    split_ifs with hX
    · rw [hX, hn]
      rfl
    · rfl
  · have hn := not_contains_iff.mp (Bool.eq_false_iff.mpr hname)
    rw [if_neg hname]
    simp only [node?, Sinks.node?, get?_modify]
    split_ifs with hX
    · rw [hX, hn]
      rfl
    · rfl

lemma links?_adjustNode (s : Search) (name X x : String) (f : SinkNode → SinkNode) :
    (s.adjustNode name f).links? X x
      = if X = name then (s.node? X).bind fun n => (f n).methodUsers.get? x else s.links? X x := by
  unfold links?
  rw [node?_adjustNode]
  split_ifs with hX
  · cases s.node? X <;> rfl
  · rfl

lemma potentMethods_adjustNode (s : Search) (name : String) :
    (s.adjustNode name f).sinks.potentMethods = s.sinks.potentMethods := by
  unfold adjustNode
  split_ifs <;> rfl

abbrev taken (s : Search) (name : String) (n : SinkNode) : Search :=
  { s with
    sinks := { s.sinks with nodes := s.sinks.nodes.erase name }
    removed := s.removed.set name n }

abbrev marked (s : Search) (name : String) : Search :=
  s.adjustNode name fun n => { n with module := name }

lemma node?_of_sinks (h : s.sinks.node? X = some n) : s.node? X = some n := by
  rw [node?, h]
  rfl

lemma node?_taken (hn : s.sinks.node? name = some n) (X : String) :
    (s.taken name n).node? X = s.node? X := by
  have hget : s.sinks.nodes.get? name = some n := hn
  simp only [node?, Sinks.node?, get?_erase, get?_set]
  split_ifs with hX
  · rw [hX, hget]
    rfl
  · rfl

/-- The block has been declared; nodes that were taken out count too. -/
def Analyzed (s : Search) (mod block : String) : Prop := ∃ n, s.node? mod = some n ∧
  block ∈ n.analyzed

lemma analyzed_of_adjustNode (hf : ∀ n, (f n).analyzed = n.analyzed)
    (h : (s.adjustNode name f).Analyzed X x) : s.Analyzed X x := by
  obtain ⟨n', hn', hx⟩ := h
  rw [node?_adjustNode] at hn'
  split_ifs at hn'
  · obtain ⟨n, hn, rfl⟩ := Option.map_eq_some_iff.mp hn'
    exact ⟨n, hn, hf n ▸ hx⟩
  · exact ⟨n', hn', hx⟩

abbrev without (s : Search) (mod method : String) : Search :=
  s.adjustNode mod fun n => { n with methodUsers := n.methodUsers.erase method }

lemma links?_without (s : Search) (mod method X x : String) :
    (s.without mod method).links? X x = if X = mod ∧ x = method then none else s.links? X x := by
  rw [links?_adjustNode]
  split_ifs with hX hXx hXx
  · obtain ⟨-, rfl⟩ := hXx
    cases s.node? X <;> simp [get?_erase]
  · have hx : x ≠ method := fun hx => hXx ⟨hX, hx⟩
    simp [links?, get?_erase, hx]
  · exact absurd hXx.1 hX
  · rfl

lemma links?_start (ss : Sinks) (X x : String) : links? { sinks := ss } X x = ss.links? X x := by
  unfold links? Sinks.links? node?
  cases ss.node? X <;> rfl

lemma links?_sinks (h : s.links? X x = none) : s.sinks.links? X x = none := by
  unfold links? node? at h
  unfold Sinks.links?
  cases hn : s.sinks.node? X with
  | none => rfl
  | some n =>
    rw [hn] at h
    exact h

/-! ### Steps that only look around -/

/-- All nodes, also those that were taken out, have the methods that they had. -/
structure Still (s t : Search) : Prop where
  links : ∀ X x, t.links? X x = s.links? X x
  registry : t.sinks.potentMethods = s.sinks.potentMethods
  analyzed : ∀ X x, t.Analyzed X x → s.Analyzed X x

/-- A method was removed whose name is `m`, as the method of a node or written with its module. -/
def Deleted (s t : Search) (m : String) : Prop :=
  ∃ X x, (x = m ∨ methodOf (X ++ ":" ++ x) = m) ∧ s.links? X x ≠ none ∧ t.links? X x = none

/-- Methods are only removed. An entry that is forgotten had the name of a removed method. -/
structure Shrinks (extra : String → Prop) (s t : Search) : Prop where
  links : ∀ X x, s.links? X x = none → t.links? X x = none
  registry : ∀ m, t.sinks.potentMethods.get? m = s.sinks.potentMethods.get? m ∨
    t.sinks.potentMethods.get? m = none ∧ (extra m ∨ Deleted s t m)
  analyzed : ∀ X x, t.Analyzed X x → s.Analyzed X x

variable {u : Search}

lemma Still.shrinks (h : Still s t) : Shrinks extra s t where
  links X x hx := by rw [h.links, hx]
  registry m := .inl (by rw [h.registry])
  analyzed := h.analyzed

lemma Deleted.before (h : Deleted t u m) (hst : Shrinks extra s t) : Deleted s u m := by
  obtain ⟨X, x, hx, ht, hu⟩ := h
  exact ⟨X, x, hx, fun hs => ht (hst.links X x hs), hu⟩

lemma Deleted.after (h : Deleted s t m) (htu : Shrinks extra t u) : Deleted s u m := by
  obtain ⟨X, x, hx, hs, ht⟩ := h
  exact ⟨X, x, hx, hs, htu.links X x ht⟩

lemma Shrinks.refl (s : Search) : Shrinks extra s s :=
  ⟨fun _ _ hx => hx, fun _ => .inl rfl, fun _ _ hx => hx⟩

lemma Shrinks.trans (hst : Shrinks extra s t) (htu : Shrinks extra t u) : Shrinks extra s u where
  links X x hx := htu.links X x (hst.links X x hx)
  registry m := by
    rcases htu.registry m with hsame | ⟨hgone, hwhy⟩
    · rw [hsame]
      exact (hst.registry m).imp_right fun ⟨hgone, hwhy⟩ =>
        ⟨hgone, hwhy.imp_right fun hdel => hdel.after htu⟩
    · exact .inr ⟨hgone, hwhy.imp_right fun hdel => hdel.before hst⟩
  analyzed X x hx := hst.analyzed X x (htu.analyzed X x hx)

lemma shrinks_without (s : Search) (mod method : String) :
    Shrinks extra s (s.without mod method) where
  links X x hx := by rw [links?_without, hx, ite_self]
  registry m := .inl (by rw [potentMethods_adjustNode])
  analyzed _ _ := analyzed_of_adjustNode fun _ => rfl

/-- A step of a search that changes no set and takes nothing out. -/
inductive Glance (s : Search) : Search → Prop
  | way (trail : List String) : Glance s { s with trail }
  | mark (name module : String) : Glance s (s.adjustNode name fun n => { n with module })

/-- A step of a search that takes nothing out. -/
inductive Look (s : Search) : Search → Prop
  | way (trail : List String) (traced : NameTable) : Look s { s with trail, traced }
  | mark (name module : String) : Look s (s.adjustNode name fun n => { n with module })
  | set (i : SetId) (f : Names → Names) : Look s (s.adjustSet i f)

lemma Glance.look (h : Glance s t) : Look s t := by
  cases h with
  | way trail => exact .way trail s.traced
  | mark name module => exact .mark name module

lemma Look.still (h : Look s t) : Still s t := by
  cases h with
  | way => exact ⟨fun _ _ => rfl, rfl, fun _ _ hx => hx⟩
  | mark name module =>
    refine ⟨fun X x => ?_, potentMethods_adjustNode s name, fun X x =>
      analyzed_of_adjustNode fun _ => rfl⟩
    rw [links?_adjustNode]
    split_ifs with hX
    · rfl
    · rfl
  | set => exact ⟨fun _ _ => rfl, rfl, fun _ _ hx => hx⟩

lemma still_taken {n : SinkNode} (hn : s.sinks.node? name = some n) : Still s (s.taken name n) where
  links X x := by rw [links?, node?_taken hn, links?]
  registry := rfl
  analyzed X x hx := by rwa [Analyzed, node?_taken hn] at hx

end Search

open Search

/-- The action changes sets, marks and the way, but takes nothing out. -/
abbrev Looking (a : Searching α) : Prop := Leads Look a

/-- The action changes marks and the way, and nothing else. -/
abbrev Glancing (a : Searching α) : Prop := Leads Glance a

variable {a : Searching α}

lemma Glancing.looking (h : Glancing a) : Looking a := h.mono fun _ _ hst => hst.look

lemma looking_modify {f : Search → Search} (h : ∀ s, Look s (f s)) : Looking (modify f) :=
  .modify fun s => .single (h s)

lemma glancing_modify {f : Search → Search} (h : ∀ s, Glance s (f s)) : Glancing (modify f) :=
  .modify fun s => .single (h s)

lemma glancing_push {caller : String} : Glancing (push caller) := glancing_modify fun _ => .way _

lemma glancing_pop : Glancing pop := by
  refine Leads.get.bind fun s => Leads.throw.when ?_
  exact glancing_modify fun _ => .way _

lemma glancing_splitCaller {caller : String} : Glancing (splitCaller caller) := by
  unfold splitCaller
  split
  · exact .pure
  · exact .throw

lemma glancing_callerNode? {mod callerMod : String} : Glancing (callerNode? mod callerMod) := by
  refine Leads.get.bind fun s => .pure_or (Leads.get.bind fun t => ?_)
  split
  · exact .pure
  · exact (glancing_modify fun _ => .mark callerMod callerMod).bind_pure

/-! ### Searches among the callers -/

lemma glancing_overlap (left : Names) (links : Links) (mod : String) :
    Glancing (overlap fuel left links mod) := by
  induction fuel generalizing left links mod with
  | zero => exact .throw
  | succ fuel ih =>
    refine .pure_or (Leads.get.bind fun s => .foldlM (fun _ _ _ => ?_) _)
    refine Leads.get.bind fun t => .pure_or ?_
    refine glancing_push.bind fun _ => glancing_splitCaller.bind fun _ => ?_
    refine glancing_callerNode?.bind fun node => ?_
    cases node with
    | none => exact .pure
    | some callerMod =>
      refine Leads.get.bind fun t => ?_
      split
      · exact .pure
      · refine (Leads.filterM (fun _ => ?_)).bind fun _ => Leads.get.bind fun t => ?_
        · exact glancing_splitCaller.bind_pure
        · split
          · exact .throw
          · exact (ih _ _ _).bind_pure

lemma glancing_unmatched {mod method : String} {sinks : Names} :
    Glancing (unmatched mod method sinks) := by
  refine .pure_or (Leads.get.bind fun s => ?_)
  split
  · exact .pure
  · refine (Leads.anyM (fun _ => ?_)).bind_pure
    exact glancing_splitCaller.bind_pure

lemma looking_overlapsFrom {mod method : String} {left found : Names} {links : Links} :
    Looking (overlapsFrom mod method left found links) := by
  refine (looking_modify fun _ => .way _ _).bind fun _ => Leads.get.bind fun t => ?_
  refine (glancing_overlap _ _ _).looking.bind fun _ => ?_
  exact (looking_modify fun _ => .set _ _).bind_pure

lemma looking_overlapsOf {mod method : String} {sinks found : Names} :
    Looking (overlapsOf mod method sinks found) := by
  refine glancing_unmatched.looking.bind fun _ => .pure_or ?_
  refine Leads.get.bind fun s => ?_
  split
  · exact .throw
  · exact looking_overlapsFrom

lemma looking_overlaps : Looking overlaps := by
  refine Leads.get.bind fun s => .foldlM (fun found _ _ => ?_) _
  refine Leads.get.bind fun t => Leads.throw.when ?_
  exact .foldlM (fun _ _ _ => looking_overlapsOf) _

lemma looking_trace (links : Option Links) (mod : String) : Looking (trace fuel links mod) := by
  induction fuel generalizing links mod with
  | zero => exact .throw
  | succ fuel ih =>
    cases links with
    | none => exact .pure
    | some links =>
      refine Leads.get.bind fun s => (Leads.foldlM (fun _ _ _ => ?_) _).bind fun _ => ?_
      · refine glancing_splitCaller.looking.bind fun _ => Leads.get.bind fun t => .ite ?_ ?_
        · refine Leads.get.bind fun t => ?_
          split
          · exact .pure
          · split
            · exact .throw
            · exact .throw
            · exact (looking_modify fun _ => .set _ _).bind_pure
        · refine glancing_push.looking.bind fun _ => Leads.get.bind fun t => .ite ?_ ?_
          · exact glancing_pop.looking.bind_pure
          · refine (looking_modify fun _ => .way _ _).bind fun _ => ?_
            refine glancing_callerNode?.looking.bind fun node => ?_
            cases node with
            | none => exact .pure
            | some callerMod =>
              refine Leads.get.bind fun t => (ih _ _).bind fun _ => ?_
              exact glancing_pop.looking.bind_pure
      · exact looking_modify fun _ => .set _ _

/-! ### Inversion of the steps -/

section Inversion

variable {u : Search} {callerMod : String} {lost lost' : Names}

lemma dropMethod_ok {method : String} (h : dropMethod mod method s = (.ok r, t)) :
    s.links? mod method ≠ none ∧ t = s.without mod method := by
  simp only [dropMethod, run_bind, run_get] at h
  cases hl : s.links? mod method with
  | none =>
    rw [hl] at h
    cases h
  | some l =>
    rw [hl] at h
    cases h
    exact ⟨nofun, rfl⟩

lemma dropAfter_ok {method : String} (h : dropAfter prune l gone mod method s = (.ok r, u)) :
    ∃ t, prune l gone mod s = (.ok (), t) ∧ t.links? mod method ≠ none ∧
    u = t.without mod method := by
  obtain ⟨_, t, hprune, hdrop⟩ := of_bind h
  exact ⟨t, hprune, dropMethod_ok hdrop⟩

lemma splitCaller_ok {parts : String × String} (h : splitCaller caller s = (.ok parts, t)) :
    Text.splitOn caller ":" = [parts.1, parts.2] ∧ t = s := by
  unfold splitCaller at h
  rcases hparts : Text.splitOn caller ":" with _ | ⟨m, _ | ⟨f, _ | ⟨g, rest⟩⟩⟩ <;> rw [hparts] at h
  · cases h
  · cases h
  · cases h
    exact ⟨rfl, rfl⟩
  · cases h

lemma takeOut_ok (h : takeOut name s = (.ok r, t)) :
    ∃ n, s.sinks.node? name = some n ∧ t = s.taken name n := by
  replace h := of_get_bind h
  cases hn : s.sinks.node? name with
  | none =>
    rw [hn] at h
    cases h
  | some n =>
    rw [hn] at h
    cases h
    exact ⟨n, rfl, rfl⟩

lemma pop_ok (h : pop s = (.ok r, t)) : t = { s with trail := s.trail.dropLast } := by
  replace h := of_get_bind h
  rw [run_ite] at h
  split_ifs at h
  · cases h
  · cases h
    rfl

/-- The node of a caller is missing, is the one that the search comes from, or gets its mark. -/
lemma callerNode?_ok {node : Option String} (h : callerNode? mod callerMod s = (.ok node, t)) :
    (node = none ∧ s.sinks.node? callerMod = none ∧ t = s) ∨
      (node = some mod ∧ (∃ n, s.node? mod = some n ∧ n.module = callerMod) ∧ t = s) ∨
      (node = some callerMod ∧ t = s.marked callerMod) := by
  replace h := of_get_bind h
  rw [run_ite] at h
  split_ifs at h with hown
  · cases h
    exact .inr (.inl ⟨rfl, Option.map_eq_some_iff.mp hown, rfl⟩)
  · replace h := of_get_bind h
    cases hn : s.sinks.node? callerMod with
    | none =>
      rw [hn] at h
      cases h
      exact .inl ⟨rfl, rfl, rfl⟩
    | some n =>
      rw [hn] at h
      cases h
      exact .inr (.inr ⟨rfl, rfl⟩)

/-- A node without methods is taken out under a name that it gives. -/
inductive Closes (mod : String) (name : SinkNode → String) (s : Search) : Search → Prop
  | full (h : ∀ n, s.node? mod = some n → n.methodUsers.isEmpty = false) : Closes mod name s s
  | empty {n n' : SinkNode} (hn : s.node? mod = some n) (hempty : n.methodUsers.isEmpty = true)
      (hn' : s.sinks.node? (name n) = some n') : Closes mod name s (s.taken (name n) n')

variable {name : SinkNode → String}

lemma closes_of_none (h : s.node? mod = none) : Closes mod name s s :=
  .full fun _ hn => absurd (h.symm.trans hn) nofun

variable {n : SinkNode}

lemma closes_of_some (hn : s.node? mod = some n)
    (h : n.methodUsers.isEmpty ∧ takeOut (name n) s = (.ok r, t) ∨
      ¬ n.methodUsers.isEmpty ∧ t = s) : Closes mod name s t := by
  rcases h with ⟨hempty, h⟩ | ⟨hfull, rfl⟩
  · obtain ⟨n', hn', rfl⟩ := takeOut_ok h
    exact .empty hn hempty hn'
  · refine .full fun _ hn' => ?_
    cases hn.symm.trans hn'
    exact Bool.eq_false_iff.mpr hfull

lemma takeOutEmpty_ok (h : takeOutEmpty name mod s = (.ok r, t)) : Closes mod name s t := by
  replace h := of_get_bind h
  cases hn : s.node? mod with
  | none =>
    rw [hn] at h
    cases h
    exact closes_of_none hn
  | some n =>
    rw [hn] at h
    dsimp only at h
    rw [run_ite] at h
    split_ifs at h with hempty
    · exact closes_of_some hn (.inl ⟨hempty, h⟩)
    · cases h
      exact closes_of_some (r := ()) hn (.inr ⟨hempty, rfl⟩)

/-- How a caller of the method `gone` is treated. -/
inductive Pruned (prune : Links → String → String → Searching Unit) (gone mod : String)
    (caller : String) (s : Search) : Search → Prop
  | onTrail : Pruned prune gone mod caller s s
  | noMethod {Y : String} {node : Option String} {t : Search}
      (hnode : callerNode? mod Y { s with trail := s.trail ++ [caller] } = (.ok node, t)) :
      Pruned prune gone mod caller s t
  | method {Y y Z : String} {l : Links} {t u v w : Search}
      (hsplit : Text.splitOn caller ":" = [Y, y])
      (hnode : callerNode? mod Y { s with trail := s.trail ++ [caller] } = (.ok (some Z), t))
      (hlinks : t.links? Z y = some l) (huncall : uncall gone l t = (.ok (), u))
      (hdrop : u.sinks.setOf l.callees ≠ [] ∧ v = u ∨
        u.sinks.setOf l.callees = [] ∧ dropAfter prune l caller Z y u = (.ok (), v))
      (hclose : Closes Z (·.module) v w) :
      Pruned prune gone mod caller s { w with trail := w.trail.dropLast }

lemma pruned_of_run (h : pruneCaller prune gone mod lost caller s = (.ok lost', t)) :
    Pruned prune gone mod caller s t := by
  replace h := of_get_bind h
  rw [run_ite] at h
  split_ifs at h
  · cases h
    exact .onTrail
  · obtain ⟨_, _, hpush, h⟩ := of_bind h
    cases hpush
    obtain ⟨⟨Y, y⟩, _, hparts, h⟩ := of_bind h
    obtain ⟨hsplit, rfl⟩ := splitCaller_ok hparts
    obtain ⟨node, u, hnode, h⟩ := of_bind h
    cases node with
    | none =>
      cases h
      exact .noMethod hnode
    | some Z =>
      replace h := of_get_bind h
      cases hlinks : u.links? Z y with
      | none =>
        simp only [hlinks] at h
        cases h
        exact .noMethod hnode
      | some l =>
        simp only [hlinks] at h
        obtain ⟨_, v, huncall, h⟩ := of_bind h
        replace h := of_get_bind h
        have hlast {v' : Search} (h : (do takeOutEmpty (·.module) Z; pop; return lost) v' =
            (.ok lost', t)) :
            ∃ w, Closes Z (·.module) v' w ∧ t = { w with trail := w.trail.dropLast } := by
          obtain ⟨_, w, hclose, h⟩ := of_bind h
          obtain ⟨_, _, hpop, h⟩ := of_bind h
          cases h
          exact ⟨w, takeOutEmpty_ok hclose, pop_ok hpop⟩
        rw [run_ite] at h
        split_ifs at h with hempty
        · obtain ⟨_, v', hdrop, h⟩ := of_bind h
          obtain ⟨w, hclose, rfl⟩ := hlast h
          exact .method hsplit hnode hlinks huncall (.inr
            ⟨List.isEmpty_iff.mp hempty, hdrop⟩) hclose
        · obtain ⟨w, hclose, rfl⟩ := hlast h
          exact .method hsplit hnode hlinks huncall
            (.inl ⟨fun hnil => hempty (List.isEmpty_iff.mpr hnil), rfl⟩) hclose

lemma prune_ok (h : Sinks.prune (fuel + 1) l gone mod s = (.ok r, t)) :
    ∃ (f : Names → String → Searching Names) (lost : Names) (u : Search),
      (∀ lost caller s lost' t, f lost caller s = (.ok lost', t) →
        Pruned (Sinks.prune fuel) gone mod caller s t) ∧
      (s.sinks.setOf l.callers).foldlM f [] s = (.ok lost, u) ∧
      t = u.adjustSet l.callers fun ns => Names.diff ns lost := by
  replace h := of_get_bind h
  obtain ⟨lost, u, hfold, h⟩ := of_bind h
  cases h
  refine ⟨_, lost, u, fun _ _ s _ t hrun => ?_, hfold, rfl⟩
  obtain ⟨_, t', hcaller, hrun⟩ := of_bind hrun
  replace hrun := of_get_bind hrun
  rw [run_ite] at hrun
  split_ifs at hrun
  · cases hrun
  · cases hrun
    exact pruned_of_run hcaller

lemma removeMethod_ok {method : String} (h : removeMethod mod method l s = (.ok r, t)) :
    ∃ fuel, dropAfter (Sinks.prune fuel) l (mod ++ ":" ++ method) mod method
      { s with trail := [mod ++ ":" ++ method] } = (.ok (), t) := by
  obtain ⟨_, _, hway, h⟩ := of_bind h
  cases hway
  exact ⟨_, of_get_bind h⟩

/-- How a root method is treated. -/
inductive Tries (mod method : String) (s : Search) : Search → Prop
  | missing (h : s.links? mod method = none) : Tries mod method s s
  | remove {l : Links} {t : Search} (hl : s.links? mod method = some l)
      (hempty : s.sinks.setOf l.callees = []) (h : removeMethod mod method l s = (.ok (), t)) :
      Tries mod method s t
  | trace {l : Links} {t : Search} {fuel : Nat} (hl : s.links? mod method = some l)
      (hne : s.sinks.setOf l.callees ≠ [])
      (h : Sinks.trace fuel (some l) mod
        { s with trail := [mod ++ ":" ++ method], traced := Names.insertAt s.traced mod method }
          = (.ok (), t)) : Tries mod method s t

/-- How the root methods of a module are treated. -/
inductive Enters (mod : String) (methods : List String) (s : Search) : Search → Prop
  | absent (h : s.sinks.node? mod = none) : Enters mod methods s s
  | methods {f : String → Searching Unit} {t u : Search}
      (hf : ∀ x s t, f x s = (.ok (), t) → Tries mod x s t)
      (hrun : methods.forM f (s.marked mod) = (.ok (), u))
      (hclose : Closes mod (fun _ => mod) u t) :
      Enters mod methods s t

lemma filterRoots_ok (h : filterRoots s = (.ok r, t)) : ∃ f : String × NameTable → Searching Unit,
      (∀ e s t, f e s = (.ok (), t) → Enters e.1 e.2.keys s t) ∧
      s.sinks.roots.entries.forM f s = (.ok (), t) := by
  refine ⟨_, fun e s t h => ?_, of_get_bind h⟩
  replace h := of_get_bind h
  rw [run_ite] at h
  split_ifs at h with hthere
  · cases h
    exact .absent (not_contains_iff.mp (Bool.not_eq_true' _ ▸ hthere))
  obtain ⟨_, _, hmark, h⟩ := of_bind h
  cases hmark
  obtain ⟨_, u, hrun, h⟩ := of_bind h
  refine .methods (fun x s t h => ?_) hrun (takeOutEmpty_ok h)
  replace h := of_get_bind h
  cases hl : s.links? e.1 x with
  | none =>
    rw [hl] at h
    cases h
    exact .missing hl
  | some l =>
    rw [hl] at h
    replace h := of_get_bind h
    rw [run_ite] at h
    split_ifs at h with hempty
    · exact .remove hl (List.isEmpty_iff.mp hempty) h
    · obtain ⟨_, _, hway, h⟩ := of_bind h
      cases hway
      exact .trace hl (fun hnil => hempty (List.isEmpty_iff.mpr hnil)) (of_get_bind h)

/-- At the end a method without callees is removed. -/
def Weeds (mod : String) (e : String × Links) (s t : Search) : Prop :=
  t = s ∧ (s.links? mod e.1 = none ∨ s.sinks.setOf e.2.callees ≠ []) ∨
    s.sinks.setOf e.2.callees = [] ∧ removeMethod mod e.1 e.2 s = (.ok (), t)

/-- How a node is treated at the end. -/
inductive Sweeps (mod : String) (s : Search) : Search → Prop
  | absent (h : s.sinks.node? mod = none) : Sweeps mod s s
  | untraced {n : SinkNode} (h : s.traced.contains mod = false) (hn : s.sinks.node? mod = some n) :
      Sweeps mod s (s.taken mod n)
  | methods {n : SinkNode} {f : String × Links → Searching Unit} {t u : Search}
      (htraced : s.traced.contains mod = true) (hn : s.sinks.node? mod = some n)
      (hf : ∀ e s t, f e s = (.ok (), t) → Weeds mod e s t)
      (hrun : n.methodUsers.entries.forM f s = (.ok (), u))
      (hclose : Closes mod (fun _ => mod) u t) :
      Sweeps mod s t

lemma filterRest_ok (h : filterRest s = (.ok files, t)) :
    ∃ f : List String → String × SinkNode → Searching (List String),
      (∀ files e s files' t, f files e s = (.ok files', t) → Sweeps e.1 s t) ∧
      s.sinks.nodes.entries.foldlM f [] s = (.ok files, t) := by
  refine ⟨_, fun _ e s _ t h => ?_, of_get_bind h⟩
  replace h := of_get_bind h
  rw [run_ite] at h
  split_ifs at h with hthere
  · cases h
    exact .absent (not_contains_iff.mp (Bool.not_eq_true' _ ▸ hthere))
  replace h := of_get_bind h
  rw [run_ite] at h
  split_ifs at h with htraced
  · obtain ⟨_, _, hout, h⟩ := of_bind h
    cases h
    obtain ⟨n, hn, rfl⟩ := takeOut_ok hout
    exact .untraced (by simpa using htraced) hn
  obtain ⟨n, hn⟩ := contains_iff.mp (by simpa using hthere)
  obtain ⟨_, u, hrun, h⟩ := of_bind (of_get_bind h)
  rw [node?_of_sinks hn] at hrun
  refine .methods (by simpa using htraced) hn (fun d s t h => ?_) hrun ?_
  · replace h := of_get_bind h
    rw [run_ite] at h
    split_ifs at h with hnone
    · cases h
      exact .inl ⟨rfl, .inl (Option.isNone_iff_eq_none.mp hnone)⟩
    · replace h := of_get_bind h
      rw [run_ite] at h
      split_ifs at h with hempty
      · exact .inr ⟨List.isEmpty_iff.mp hempty, h⟩
      · cases h
        exact .inl ⟨rfl, .inr fun hnil => hempty (List.isEmpty_iff.mpr hnil)⟩
  · replace h := of_get_bind h
    cases hn : u.node? e.1 with
    | none =>
      rw [hn] at h
      cases h
      exact closes_of_none hn
    | some n =>
      rw [hn] at h
      dsimp only at h
      rw [run_ite] at h
      split_ifs at h with hempty
      · obtain ⟨_, _, hout, h⟩ := of_bind h
        cases h
        exact closes_of_some hn (.inl ⟨hempty, hout⟩)
      · cases h
        exact closes_of_some (r := ()) hn (.inr ⟨hempty, rfl⟩)

end Inversion

/-! ### Removals -/

section Removals

variable {method : String}

lemma Looking.shrinks (h : Looking a) {v : α} (hrun : a s = (.ok v, t)) : Shrinks extra s t := by
  have hst : Shrinks extra s (a s).2 :=
    (h.mono fun _ _ hst => hst.still.shrinks).run .refl (fun _ _ _ => .trans) s
  rwa [hrun] at hst

lemma shrinks_way {trail : List String} : Shrinks extra s { s with trail } :=
  (Look.way trail s.traced).still.shrinks

lemma shrinks_closes {name : SinkNode → String} (h : Closes mod name s t) : Shrinks extra s t := by
  cases h with
  | full => exact .refl s
  | empty _ _ hn' => exact (still_taken hn').shrinks

lemma shrinks_uncall (h : uncall gone l s = (.ok r, t)) : Shrinks (· = methodOf gone) s t := by
  replace h := of_get_bind h
  rw [run_ite] at h
  split_ifs at h
  · cases h
    refine ⟨fun _ _ hx => hx, fun m => ?_, fun _ _ hx => hx⟩
    by_cases hm : m = methodOf gone
    · refine .inr ⟨?_, .inl hm⟩
      simp [removePotentMethod, get?_erase, hm]
    · refine .inl ?_
      simp [removePotentMethod, get?_erase, hm, Search.adjustSet, Sinks.adjustSet]
  · cases h
    exact .refl s

def PruneShrinks (prune : Links → String → String → Searching Unit) : Prop :=
  ∀ l gone mod s t, prune l gone mod s = (.ok (), t) → Shrinks (· = methodOf gone) s t

lemma shrinks_dropAfter (hprune : PruneShrinks prune)
    (hname : method = methodOf name ∨ name = mod ++ ":" ++ method)
    (h : dropAfter prune l name mod method s = (.ok r, t)) : Shrinks extra s t := by
  obtain ⟨u, hrun, hthere, rfl⟩ := dropAfter_ok h
  have hsu := hprune l name mod s u hrun
  have hdel : Deleted s (u.without mod method) (methodOf name) := by
    refine ⟨mod, method, hname.imp_right ?_, fun hs => hthere (hsu.links _ _ hs), ?_⟩
    · rintro rfl
      rfl
    · rw [links?_without, if_pos ⟨rfl, rfl⟩]
  have hst := hsu.trans (shrinks_without u mod method)
  refine ⟨hst.links, fun m => (hst.registry m).imp_right fun ⟨hgone, hwhy⟩ => ⟨hgone, .inr ?_⟩,
    hst.analyzed⟩
  rcases hwhy with rfl | hdel'
  · exact hdel
  · exact hdel'

lemma shrinks_pruned (hprune : PruneShrinks prune) (h : Pruned prune gone mod caller s t) :
    Shrinks (· = methodOf gone) s t := by
  cases h with
  | onTrail => exact .refl s
  | noMethod hnode => exact shrinks_way.trans (glancing_callerNode?.looking.shrinks hnode)
  | @method Y y Z l t u v w hsplit hnode _ huncall hdrop hclose =>
    have hst : Shrinks (· = methodOf gone) s t :=
      shrinks_way.trans (glancing_callerNode?.looking.shrinks hnode)
    have huv : Shrinks (· = methodOf gone) u v := by
      rcases hdrop with ⟨-, rfl⟩ | ⟨-, hdrop⟩
      · exact .refl _
      · exact shrinks_dropAfter hprune (.inl (by rw [methodOf, hsplit]; rfl)) hdrop
    exact ((hst.trans ((shrinks_uncall huncall).trans huv)).trans (shrinks_closes hclose)).trans
      shrinks_way

lemma shrinks_prune : PruneShrinks (Sinks.prune fuel) := by
  induction fuel with
  | zero => exact fun _ _ _ _ _ h => nomatch h
  | succ fuel ih =>
    intro l gone mod s t h
    obtain ⟨f, lost, u, hf, hfold, rfl⟩ := prune_ok h
    have hsu : Shrinks (· = methodOf gone) s u :=
      foldlM_keeps (fun lost caller _ v lost' w hv hrun =>
        hv.trans (shrinks_pruned ih (hf lost caller v lost' w hrun))) (.refl s) hfold
    exact hsu.trans (Look.set _ _).still.shrinks

lemma shrinks_removeMethod (h : removeMethod mod method l s = (.ok r, t)) : Shrinks extra s t := by
  obtain ⟨fuel, hdrop⟩ := removeMethod_ok h
  exact shrinks_way.trans (shrinks_dropAfter shrinks_prune (.inr rfl) hdrop)

lemma shrinks_filterRoots (h : filterRoots s = (.ok r, t)) : Shrinks extra s t := by
  obtain ⟨f, hf, hrun⟩ := filterRoots_ok h
  refine forM_keeps (fun e _ u v hu hrun => hu.trans ?_) (.refl s) hrun
  cases hf e u v hrun with
  | absent => exact .refl u
  | methods hf hrun hclose =>
    refine Shrinks.trans ?_ (shrinks_closes hclose)
    refine forM_keeps (fun x _ v w hv hrun => hv.trans ?_) (Look.mark _ _).still.shrinks hrun
    cases hf x v w hrun with
    | missing => exact .refl v
    | remove _ _ h => exact shrinks_removeMethod h
    | trace _ _ h => exact (Look.way _ _).still.shrinks.trans ((looking_trace _ _).shrinks h)

lemma shrinks_filterRest (h : filterRest s = (.ok files, t)) : Shrinks extra s t := by
  obtain ⟨f, hf, hrun⟩ := filterRest_ok h
  refine foldlM_keeps (fun files e _ u files' v hu hrun => hu.trans ?_) (.refl s) hrun
  cases hf files e u files' v hrun with
  | absent => exact .refl u
  | untraced _ hn => exact (still_taken hn).shrinks
  | methods _ _ hf hrun hclose =>
    refine Shrinks.trans (forM_keeps (fun d _ v w hv hrun => hv.trans ?_) (.refl u) hrun)
      (shrinks_closes hclose)
    rcases hf d v w hrun with ⟨rfl, -⟩ | ⟨-, h⟩
    · exact .refl _
    · exact shrinks_removeMethod h

end Removals

lemma searching_ok {v : α} (h : searching a ss = (.ok v, ss')) :
    ∃ t, a { sinks := ss } = (.ok v, t) ∧ t.sinks = ss' := by
  unfold searching at h
  rcases hr : a { sinks := ss } with ⟨r, t⟩
  rw [hr] at h
  cases h
  exact ⟨t, rfl, rfl⟩

lemma shrinks_filterMethods (h : filterMethods ss = (.ok files, ss')) :
    ∃ t, t.sinks = ss' ∧ Shrinks (fun _ => False) { sinks := ss } t := by
  obtain ⟨t, hrun, rfl⟩ := searching_ok h
  obtain ⟨_, u, hoverlaps, hrun⟩ := of_bind hrun
  obtain ⟨_, v, hroots, hrest⟩ := of_bind hrun
  exact ⟨t, rfl, (looking_overlaps.shrinks hoverlaps).trans
    ((shrinks_filterRoots hroots).trans (shrinks_filterRest hrest))⟩

/-- If a filter ends well, the entry of a name in the register is what it was, unless it is
forgotten as a whole. Then some module had a method of that name and has it no more. -/
theorem filterMethods_registry {ss ss' : Sinks} {files : List String}
    (h : filterMethods ss = (.ok files, ss')) (m : String) :
    ss'.potentMethods.get? m = ss.potentMethods.get? m ∨ ss'.potentMethods.get? m = none ∧
        ∃ X x, (x = m ∨ methodOf (X ++ ":" ++ x) = m) ∧
          ss.links? X x ≠ none ∧ ss'.links? X x = none := by
  obtain ⟨t, rfl, hst⟩ := shrinks_filterMethods h
  refine (hst.registry m).imp_right fun ⟨hgone, hwhy⟩ => ⟨hgone, ?_⟩
  obtain ⟨X, x, hx, hbefore, hafter⟩ := hwhy.resolve_left id
  exact ⟨X, x, hx, by rwa [links?_start] at hbefore, links?_sinks hafter⟩

lemma analyzed_of_filterMethods
    (h : filterMethods ss = (.ok files, ss')) (hx : ss'.Analyzed X x) : ss.Analyzed X x := by
  obtain ⟨t, rfl, hst⟩ := shrinks_filterMethods h
  obtain ⟨n, hn, hmem⟩ := hx
  have hafter : t.Analyzed X x := ⟨n, by rw [Search.node?, hn]; rfl, hmem⟩
  obtain ⟨n₀, hn₀, hmem₀⟩ := hst.analyzed X x hafter
  refine ⟨n₀, ?_, hmem₀⟩
  rw [← hn₀, Search.node?]
  cases ss.node? X with
  | none => rfl
  | some n => rfl

/-- The `f` of `a` has no way to a sink, but is called by `g`; the `f` of `b` calls a sink. -/
def sharedName : Sinks where
  pool := { sets := [["os:popen"], ["a:g"], ["a:f"], [], ["os:system"], [], ["os"]] }
  nodes := Table.ofList
    [("a", { methodUsers := Table.ofList [("f", ⟨0, 1⟩), ("g", ⟨2, 3⟩)] }),
      ("b", { methodUsers := Table.ofList [("f", ⟨4, 5⟩)]
              moduleUsers := Table.ofList [("f", 6)] })]
  roots := Table.ofList
    [("a", Table.ofList [("f", ["os:popen"])]), ("b", Table.ofList [("f", ["os:system"])])]
  potentMethods := Table.ofList [("f", ["b"])]

lemma filterMethods_sharedName : ∃ ss', filterMethods sharedName = (.ok [""], ss') ∧
      ss'.potentMethods.get? "f" = none ∧ (ss'.links? "b" "f").isSome := by
  have hfiles : (filterMethods sharedName).1.toOption = some [""] := by decide +kernel
  exact ⟨_, eq_of_toOption hfiles, by decide +kernel, by decide +kernel⟩

theorem filterMethods_registry_shared : ∃ ss', filterMethods sharedName = (.ok [""], ss') ∧
      ∃ X x, (x = "f" ∨ methodOf (X ++ ":" ++ x) = "f") ∧
        sharedName.links? X x ≠ none ∧ ss'.links? X x = none := by
  obtain ⟨ss', hrun, hgone, -⟩ := filterMethods_sharedName
  refine ⟨ss', hrun, ?_⟩
  rcases filterMethods_registry hrun "f" with hsame | ⟨-, hdel⟩
  · rw [hgone] at hsame
    exact absurd hsame (by decide +kernel)
  · exact hdel

/-- The method `f` of `b` stays, and it was registered, but its entry goes with the method `f` of
`a`. -/
theorem staying_method_forgotten : "b" ∈ sharedName.potentMethods.getD "f" [] ∧
      ∃ ss', filterMethods sharedName = (.ok [""], ss') ∧ (ss'.links? "b" "f").isSome = true ∧
        "b" ∉ ss'.potentMethods.getD "f" [] := by
  obtain ⟨ss', hrun, hgone, hstays⟩ := filterMethods_sharedName
  refine ⟨by decide +kernel, ss', hrun, hstays, ?_⟩
  rw [Table.getD, hgone]
  exact List.not_mem_nil

end Sinks

end SinkTrace
