import Mathlib.Data.String.Basic
import SinkTrace.Graph.CallGraph
import SinkTrace.Proofs.Act
import SinkTrace.Proofs.Data.Table

/-!
# The two directions of the call graph

`Step` lists all that a call graph goes through while it is drawn. An edge is entered in both
directions, but a callee that goes over to a special form of its caller, written `context:caller`,
is taken out in the forward direction only. So the forward edges are always among the reverse ones,
and a reverse edge is a forward edge of its caller or of a special form of it.
-/

namespace SinkTrace

open Table

namespace CallGraph

open Relation Act

variable {g g' : CallGraph} {c callee d dst name s src : String} {module : Option String}

def IsForm (s name : String) : Prop := s = name ∨ ∃ c, s = c ++ ":" ++ name

lemma IsForm.trans {t : String} (hst : IsForm s t) (ht : IsForm t name) : IsForm s name := by
  rcases hst with rfl | ⟨c, rfl⟩
  · exact ht
  · rcases ht with rfl | ⟨d, rfl⟩
    · exact .inr ⟨c, rfl⟩
    · exact .inr ⟨c ++ ":" ++ d, by simp only [String.append_assoc]⟩

lemma context_ne : c ++ ":" ++ name ≠ name := by
  intro h
  have hlen := congrArg String.length h
  simp only [String.length_append] at hlen
  have hcolon : ":".length = 1 := rfl
  omega

/-- What a graph goes through while it is drawn. -/
inductive Step (g : CallGraph) : CallGraph → Prop
  | node {name : String} (module : Option String) (hname : name ≠ "") :
      Step g (g.withNode name module)
  | edge {src dst : String} (hsrc : g.callees.contains src = true)
      (hdst : g.callers.contains dst = true) : Step g (g.withEdge src dst)
  /-- A callee that a special form of the caller has. -/
  | drop {c name callee : String} (hspecial : callee ∈ g.callees.getD (c ++ ":" ++ name) []) :
      Step g (g.dropCallee name callee)
  | call (node : String) (line : Nat) (method : String) : Step g (g.addCall node line method)
  | statement (node : String) (line : Nat) (text : String) : Step g (g.addStatement node line text)

abbrev Drawn : CallGraph → CallGraph → Prop := ReflTransGen Step

/-! ### The actions on graphs -/

lemma addNode_eq (name : String) (module : Option String) (g : CallGraph) :
    addNode name module g = if name = "" then (.error (.callGraph "Empty node name"), g)
      else (.ok (), g.withNode name module) := by
  unfold addNode
  split_ifs <;> rfl

lemma leads_addNode : Leads Step (addNode name module) := by
  intro g
  rw [addNode_eq]
  split_ifs with hname
  · exact .refl
  · exact .single (.node module hname)

/-! ### Edges -/

lemma mem_callees_withEdge (h : g.callees.contains src) (s d : String) :
    d ∈ (g.withEdge src dst).callees.getD s [] ↔ d ∈ g.callees.getD s [] ∨ s = src ∧ d = dst := by
  unfold withEdge
  rw [getD_modify_of_contains h]
  by_cases hs : s = src
  · subst hs
    by_cases hmem : dst ∈ g.callees.getD s []
    · simp only [if_true, List.contains_iff_mem, hmem, true_and]
      constructor
      · exact .inl
      · rintro (hd | rfl)
        · exact hd
        · exact hmem
    · simp [hmem]
  · simp [hs]

lemma mem_callers_withEdge (h : g.callers.contains dst) (s d : String) :
    s ∈ (g.withEdge src dst).callers.getD d [] ↔ s ∈ g.callers.getD d [] ∨ s = src ∧ d = dst := by
  unfold withEdge
  rw [getD_modify_of_contains h]
  by_cases hd : d = dst
  · subst hd
    simp [List.mem_insertEnd_iff, or_comm]
  · simp [hd]

lemma mem_callees_dropCallee (h : d ∈ (g.dropCallee name callee).callees.getD s []) :
    d ∈ g.callees.getD s [] := by
  unfold dropCallee at h
  rw [getD_modify rfl] at h
  split_ifs at h
  · exact List.mem_of_mem_erase h
  · exact h

lemma mem_callees_dropCallee_of_ne (g : CallGraph) (hne : s ≠ name ∨ d ≠ callee)
    (h : d ∈ g.callees.getD s []) : d ∈ (g.dropCallee name callee).callees.getD s [] := by
  unfold dropCallee
  rw [getD_modify rfl]
  split_ifs with hs
  · exact (List.mem_erase_of_ne (hne.resolve_left fun hn => hn hs)).mpr h
  · exact h

abbrev joined (g : CallGraph) (src dst : String) : CallGraph :=
  ((g.withNode src (some "")).withNode dst (some "")).withEdge src dst

lemma addEdge_cases (src dst : String) (g : CallGraph) : (∃ e, addEdge src dst g = (.error e, g)) ∨
      (∃ e, src ≠ "" ∧ addEdge src dst g = (.error e, g.withNode src (some ""))) ∨
      src ≠ "" ∧ dst ≠ "" ∧ addEdge src dst g = (.ok (), g.joined src dst) := by
  by_cases hsrc : src = ""
  · exact .inl ⟨.callGraph "Empty node name", by simp [addEdge, run_bind, addNode_eq, hsrc]⟩
  by_cases hdst : dst = ""
  · refine .inr (.inl ⟨.callGraph "Empty node name", hsrc, ?_⟩)
    simp [addEdge, run_bind, addNode_eq, hsrc, hdst]
  · exact .inr (.inr ⟨hsrc, hdst, by simp [addEdge, run_bind, addNode_eq, hsrc, hdst]⟩)

lemma contains_callees_withNode (h : s = name ∨ g.callees.contains s) :
    (g.withNode name module).callees.contains s := contains_setNew h

lemma contains_callers_withNode (h : s = name ∨ g.callers.contains s) :
    (g.withNode name module).callers.contains s := contains_setNew h

lemma leads_addEdge (src dst : String) : Leads Step (addEdge src dst) := by
  intro g
  rcases addEdge_cases src dst g with ⟨e, h⟩ | ⟨e, hsrc, h⟩ | ⟨hsrc, hdst, h⟩ <;> rw [h]
  · exact .single (.node (some "") hsrc)
  · refine ((ReflTransGen.single (.node (some "") hsrc)).tail (.node (some "") hdst)).tail ?_
    refine .edge (contains_callees_withNode (.inr ?_)) (contains_callers_withNode (.inl rfl))
    exact contains_callees_withNode (.inl rfl)

lemma mem_callees_addEdge {v : Unit} (h : addEdge src dst g = (.ok v, g')) :
    dst ∈ g'.callees.getD src [] := by
  rcases addEdge_cases src dst g with ⟨e, h'⟩ | ⟨e, -, h'⟩ | ⟨-, -, h'⟩ <;> rw [h'] at h <;> cases h
  refine (mem_callees_withEdge (contains_callees_withNode (.inr ?_)) _ _).mpr (.inr ⟨rfl, rfl⟩)
  exact contains_callees_withNode (.inl rfl)

/-! ### Agreement -/

/-- The two directions agree: a reverse edge is a forward edge of its caller or of a special form of
it. -/
structure Agrees (g : CallGraph) : Prop where
  forward : ∀ src dst, dst ∈ g.callees.getD src [] → src ∈ g.callers.getD dst []
  backward : ∀ src dst, src ∈ g.callers.getD dst [] → ∃ s, IsForm s src ∧ dst ∈ g.callees.getD s []

lemma agrees_empty : Agrees {} := ⟨nofun, nofun⟩

lemma Agrees.node (h : Agrees g) : Agrees (g.withNode name module) := by
  unfold withNode
  constructor
  · intro s d hd
    simp only [getD_setNew] at hd ⊢
    exact h.forward s d hd
  · intro s d hs
    simp only [getD_setNew] at hs ⊢
    exact h.backward s d hs

lemma Agrees.edge (h : Agrees g) (hsrc : g.callees.contains src)
    (hdst : g.callers.contains dst) : Agrees (g.withEdge src dst) where
  forward s d hd := by
    rw [mem_callees_withEdge hsrc] at hd
    rw [mem_callers_withEdge hdst]
    exact hd.imp_left (h.forward s d)
  backward s d hs := by
    rw [mem_callers_withEdge hdst] at hs
    rcases hs with hold | ⟨rfl, rfl⟩
    · obtain ⟨t, ht, hd⟩ := h.backward s d hold
      exact ⟨t, ht, (mem_callees_withEdge hsrc t d).mpr (.inl hd)⟩
    · exact ⟨s, .inl rfl, (mem_callees_withEdge hsrc s d).mpr (.inr ⟨rfl, rfl⟩)⟩

lemma Agrees.drop (h : Agrees g) (hspecial : callee ∈ g.callees.getD (c ++ ":" ++ name) []) :
    Agrees (g.dropCallee name callee) where
  forward s d hd := h.forward s d (mem_callees_dropCallee hd)
  backward s d hs := by
    obtain ⟨t, ht, hd⟩ := h.backward s d hs
    by_cases hmoved : t = name ∧ d = callee
    · obtain ⟨rfl, rfl⟩ := hmoved
      refine ⟨c ++ ":" ++ t, IsForm.trans (.inr ⟨c, rfl⟩) ht, ?_⟩
      exact mem_callees_dropCallee_of_ne g (.inl context_ne) hspecial
    · exact ⟨t, ht, mem_callees_dropCallee_of_ne g (not_and_or.mp hmoved) hd⟩

lemma Step.agrees (h : Step g g') (hg : Agrees g) : Agrees g' := by
  cases h with
  | node module hname => exact hg.node
  | edge hsrc hdst => exact hg.edge hsrc hdst
  | drop hspecial => exact hg.drop hspecial
  | call node line method => exact ⟨hg.forward, hg.backward⟩
  | statement node line text => exact ⟨hg.forward, hg.backward⟩

lemma Drawn.agrees (h : Drawn g g') (hg : Agrees g) : Agrees g' := by
  induction h with
  | refl => exact hg
  | tail _ hlast ih => exact hlast.agrees ih

end CallGraph

end SinkTrace
