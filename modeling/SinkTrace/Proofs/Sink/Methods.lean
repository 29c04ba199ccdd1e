import SinkTrace.Proofs.Data.Table
import SinkTrace.Sink.Spread

/-!
# The methods of sink nodes

A method leads to a sink in a module if the sink node of the module has links for it. Nothing below
takes a method from a node: the operations add methods, or change what is written down with them.
-/

namespace SinkTrace.Sinks

variable {ss ss' : Sinks} {X method mod x : String} {f : SinkNode → SinkNode}

/-- The method leads to a sink: the node of the module has it. -/
abbrev HasMethod (ss : Sinks) (mod method : String) : Prop := (ss.links? mod method).isSome = true

def Analyzed (ss : Sinks) (mod block : String) : Prop := ∃ n, ss.node? mod = some n ∧
  block ∈ n.analyzed

instance (ss : Sinks) (mod block : String) : Decidable (ss.Analyzed mod block) :=
  decidable_of_iff ((ss.node? mod).any (decide <| block ∈ ·.analyzed) = true) <| by
    simp [Analyzed, Option.any_eq_true]

/-! ### Nodes and their methods after a change -/

lemma node?_adjustNode :
    (ss.adjustNode mod f).node? X = if X = mod then (ss.node? X).map f else ss.node? X :=
  Table.get?_modify ..

lemma links?_adjustNode (ss : Sinks) (mod X x : String) (f : SinkNode → SinkNode) :
    (ss.adjustNode mod f).links? X x
      = if X = mod then (ss.node? X).bind fun n => (f n).methodUsers.get? x else ss.links? X x := by
  unfold links?
  rw [node?_adjustNode]
  split_ifs with hX
  · cases ss.node? X <;> rfl
  · rfl

lemma hasMethod_iff : ss.HasMethod X x ↔ ∃ n, ss.node? X = some n ∧ n.methodUsers.contains x := by
  unfold HasMethod links?
  cases ss.node? X with
  | none => simp
  | some n => simp [Table.contains_eq_isSome]

lemma hasMethod_of_adjustNode (hf : ∀ n, (f n).methodUsers = n.methodUsers) (h : ss.HasMethod X x) :
    (ss.adjustNode mod f).HasMethod X x := by
  unfold HasMethod
  rw [links?_adjustNode]
  split_ifs
  · simp only [hf]
    exact h
  · exact h

lemma HasMethod.node (h : ss.HasMethod X x) : ∃ n, ss.node? X = some n := by
  obtain ⟨n, hn, -⟩ := hasMethod_iff.mp h
  exact ⟨n, hn⟩

lemma links?_withMethod (mod method : String) (l : Links) (ss : Sinks) (X x : String) :
    (withMethod mod method l ss).links? X x
      = if X = mod ∧ x = method then (ss.node? mod).map fun _ => l else ss.links? X x := by
  rw [links?_adjustNode]
  by_cases hX : X = mod
  · subst hX
    rw [if_pos rfl]
    unfold links?
    cases ss.node? X with
    | none => simp
    | some n => simp [Table.get?_set]
  · rw [if_neg hX, if_neg fun h => hX h.1]

lemma hasMethod_withMethod {l : Links} : (withMethod mod method l ss).HasMethod X x
      ↔ ss.HasMethod X x ∨ (X = mod ∧ x = method) ∧ (ss.node? mod).isSome := by
  unfold HasMethod
  rw [links?_withMethod]
  split_ifs with h
  · obtain ⟨rfl, rfl⟩ := h
    simp only [Option.isSome_map, and_self, true_and]
    refine ⟨.inr, fun h => h.elim (fun h => ?_) id⟩
    obtain ⟨n, hn⟩ := HasMethod.node h
    rw [hn]
    rfl
  · simp [h]

lemma node?_eq_of_nodes (h : ss'.nodes = ss.nodes) (X : String) : ss'.node? X = ss.node? X := by
  unfold node?
  rw [h]

lemma links?_eq_of_nodes (h : ss'.nodes = ss.nodes) (X x : String) :
    ss'.links? X x = ss.links? X x := by
  unfold links?
  rw [node?_eq_of_nodes h]

lemma analyzed_of_adjustNode (hf : ∀ n, ∀ b ∈ (f n).analyzed, b ∈ n.analyzed)
    (h : (ss.adjustNode mod f).Analyzed X x) : ss.Analyzed X x := by
  obtain ⟨n', hn', hx⟩ := h
  rw [node?_adjustNode] at hn'
  split_ifs at hn'
  · obtain ⟨n, hn, rfl⟩ := Option.map_eq_some_iff.mp hn'
    exact ⟨n, hn, hf n x hx⟩
  · exact ⟨n', hn', hx⟩

lemma analyzed_of_note {block : String}
    (h : (ss.adjustNode mod fun n =>
      { n with analyzed := n.analyzed.insertEnd block }).Analyzed X x) :
    ss.Analyzed X x ∨ X = mod ∧ x = block := by
  obtain ⟨n', hn', hx⟩ := h
  rw [node?_adjustNode] at hn'
  split_ifs at hn' with hX
  · obtain ⟨n, hn, rfl⟩ := Option.map_eq_some_iff.mp hn'
    rcases List.mem_insertEnd_iff.mp hx with rfl | hx
    · exact .inr ⟨hX, rfl⟩
    · exact .inl ⟨n, hn, hx⟩
  · exact .inl ⟨n', hn', hx⟩

lemma nodes_ensureLinks (ss : Sinks) (mod method : String) :
    ss.HasMethod mod method ∧ (ss.ensureLinks mod method).1 = ss ∨ ¬ ss.HasMethod mod method ∧
        ∃ l, (ss.ensureLinks mod method).1.nodes = (withMethod mod method l ss).nodes := by
  unfold ensureLinks HasMethod
  cases hl : ss.links? mod method with
  | some l => exact .inl ⟨rfl, rfl⟩
  | none => exact .inr ⟨nofun, _, rfl⟩

lemma hasMethod_ensureLinks : (ss.ensureLinks mod method).1.HasMethod X x
      ↔ ss.HasMethod X x ∨ (X = mod ∧ x = method) ∧ (ss.node? mod).isSome := by
  rcases nodes_ensureLinks ss mod method with ⟨hhas, heq⟩ | ⟨-, l, hnodes⟩
  · rw [heq]
    refine ⟨.inl, fun h => h.elim id fun h => ?_⟩
    obtain ⟨⟨rfl, rfl⟩, -⟩ := h
    exact hhas
  · unfold HasMethod
    rw [links?_eq_of_nodes hnodes]
    exact hasMethod_withMethod

end SinkTrace.Sinks
