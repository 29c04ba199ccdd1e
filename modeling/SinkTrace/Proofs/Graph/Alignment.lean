import SinkTrace.Proofs.Graph.CallGraph

/-!
# The tables of the call graph side by side

The five tables of a call graph are extended together, and what else is done to them leaves their
keys alone. So they have the same nodes, whatever is done in which order and wherever it fails.
-/

namespace SinkTrace

open Table

namespace CallGraph

open Relation Act

variable {g g' : CallGraph} {callee dst name s src : String} {module : Option String}

/-- The five tables have the same nodes, and only nodes call. -/
structure Aligned (g : CallGraph) : Prop where
  callers : g.callers.keys = g.callees.keys
  modules : g.modules.keys = g.callees.keys
  statements : g.statements.keys = g.callees.keys
  calls : g.calls.keys = g.callees.keys
  nodup : ∀ s, (g.callees.getD s []).Nodup
  caller : ∀ d, ∀ s ∈ g.callers.getD d [], g.callees.contains s = true

lemma aligned_empty : Aligned {} := ⟨rfl, rfl, rfl, rfl, fun _ => List.nodup_nil, nofun⟩

lemma keys_modules_withNode : (g.withNode name module).modules.keys =
    g.modules.keys.insertEnd name := by
  unfold withNode
  cases hm : g.modules.get? name with
  | none => exact keys_set ..
  | some m =>
    dsimp only
    split_ifs
    · simp [List.insertEnd, mem_keys_iff, contains_of_get? hm]
    · exact keys_set ..

lemma Aligned.node (h : Aligned g) : Aligned (g.withNode name module) := by
  have hkeys {β : Type} {t : Table String β} (ht : t.keys = g.callees.keys) (v : β) :
      (t.setNew name v).keys = (g.callees.setNew name []).keys := by
    rw [keys_setNew, keys_setNew, ht]
  refine ⟨hkeys h.callers _, ?_, hkeys h.statements _, hkeys h.calls _, fun s => ?_,
    fun d s hs => ?_⟩
  · rw [keys_modules_withNode, h.modules]
    exact keys_setNew.symm
  · simpa [withNode] using h.nodup s
  · exact contains_callees_withNode (.inr (h.caller d s (by simpa [withNode] using hs)))

lemma Aligned.edge (h : Aligned g) (hsrc : g.callees.contains src)
    (hdst : g.callers.contains dst) : Aligned (g.withEdge src dst) where
  callers := by simpa [withEdge] using h.callers
  modules := by simpa [withEdge] using h.modules
  statements := by simpa [withEdge] using h.statements
  calls := by simpa [withEdge] using h.calls
  nodup s := by
    unfold withEdge
    rw [getD_modify_of_contains hsrc]
    split
    · exact List.nodup_insertEnd (h.nodup s)
    · exact h.nodup s
  caller d s hs := by
    unfold withEdge
    rw [contains_modify]
    rcases (mem_callers_withEdge hdst s d).mp hs with hold | ⟨rfl, -⟩
    · exact h.caller d s hold
    · exact hsrc

lemma Step.aligned (h : Step g g') (hg : Aligned g) : Aligned g' := by
  cases h with
  | node module _ => exact hg.node
  | edge hsrc hdst => exact hg.edge hsrc hdst
  | drop _ =>
    refine ⟨?_, ?_, ?_, ?_, fun s => ?_, fun d s hs => ?_⟩
    · simpa [dropCallee] using hg.callers
    · simpa [dropCallee] using hg.modules
    · simpa [dropCallee] using hg.statements
    · simpa [dropCallee] using hg.calls
    · unfold dropCallee
      rw [getD_modify rfl]
      split_ifs
      · exact (hg.nodup s).erase _
      · exact hg.nodup s
    · simpa [dropCallee] using hg.caller d s hs
  | call node line method =>
    exact { hg with calls := (keys_modify ..).trans hg.calls }
  | statement node line text =>
    exact { hg with statements := (keys_modify ..).trans hg.statements }

lemma Step.named {m : Option String} (h : Step g g') (hm : isNamed m)
    (hg : g.modules.get? name = some m) : g'.modules.get? name = some m := by
  cases h with
  | @node other module _ =>
    by_cases ho : name = other
    · subst ho
      simp [withNode, hg, hm]
    · simp only [withNode]
      split
      · split_ifs
        · exact hg
        · rw [get?_set_of_ne ho, hg]
      · rw [get?_set_of_ne ho, hg]
  | _ => exact hg

/-- What is done to a graph. Where an edit fails, what it has done before stays. -/
inductive Edit
  | node (name : String) (module : Option String)
  | edge (src dst : String)
  /-- A callee goes over to a special form of its caller. -/
  | split (context name callee : String)
  | call (node : String) (line : Nat) (method : String)
  | statement (node : String) (line : Nat) (text : String)

def Edit.run : Edit → Act CallGraph Unit
  | .node name module => addNode name module
  | .edge src dst => addEdge src dst
  | .split context name callee => do
    addEdge (context ++ ":" ++ name) callee
    modify (·.dropCallee name callee)
  | .call n line method => modify (·.addCall n line method)
  | .statement n line text => do
    if ((← get).statements.getD n {}).isEmpty then addNode n (some "")
    modify (·.addStatement n line text)

lemma Edit.leads (e : Edit) : Leads Step e.run := by
  cases e with
  | node name module => exact leads_addNode
  | edge src dst => exact leads_addEdge src dst
  | split context name callee =>
    refine (leads_addEdge _ _).bind_from (fun _ _ _ h => mem_callees_addEdge h) fun _ g hg => ?_
    exact .single (.drop hg)
  | call n line method => exact .modify fun g => .single (.call n line method)
  | statement n line text =>
    refine Leads.get.bind fun g => .when leads_addNode ?_
    exact .modify fun g => .single (.statement n line text)

def edited (es : List Edit) (g : CallGraph) : CallGraph := es.foldl (fun g e => (e.run g).2) g

lemma drawn_edited (es : List Edit) (g : CallGraph) : Drawn g (edited es g) := by
  induction es generalizing g with
  | nil => exact .refl
  | cons e es ih => exact (e.leads g).trans (ih _)

/-- However a graph is drawn, its tables have the same nodes, a node is listed once among the
callees of another, all callees and callers are nodes, and a module that is named stays. -/
theorem tables_aligned (es more : List Edit) :
    let g := edited es {}
    (g.callers.keys = g.callees.keys ∧ g.modules.keys = g.callees.keys ∧
      g.statements.keys = g.callees.keys ∧ g.calls.keys = g.callees.keys) ∧
    (∀ src ds, g.callees.get? src = some ds → ds.Nodup ∧ ds ⊆ g.callees.keys) ∧
    (∀ dst ss, g.callers.get? dst = some ss → ss ⊆ g.callees.keys) ∧
    ∀ name m, g.modules.get? name = some m → isNamed m = true →
      (edited more g).modules.get? name = some m := by
  intro g
  have hdrawn : Drawn {} g := drawn_edited es {}
  have hagrees := hdrawn.agrees agrees_empty
  have haligned : Aligned g := Stable.steps (fun _ _ h hstep =>
    hstep.aligned h) aligned_empty hdrawn
  refine ⟨⟨haligned.callers, haligned.modules, haligned.statements, haligned.calls⟩,
    fun src _ hds => ?_, fun dst _ hss s hs => ?_, fun name m hm hnamed => ?_⟩
  · have hrow := Table.getD_of_get? hds []
    refine ⟨hrow ▸ haligned.nodup src, fun d hd => ?_⟩
    have hcaller := hagrees.forward src d (hrow ▸ hd)
    rw [← haligned.callers, Table.mem_keys_iff, Table.contains_eq_isSome]
    by_contra hnone
    simp_all [Table.getD]
  · exact Table.mem_keys_iff.mpr (haligned.caller dst s ((Table.getD_of_get? hss []).symm ▸ hs))
  · exact Stable.steps (P := fun g => g.modules.get? name = some m)
      (fun _ _ h hstep => hstep.named hnamed h) hm (drawn_edited more g)

end CallGraph

end SinkTrace
