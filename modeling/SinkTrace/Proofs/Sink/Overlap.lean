import SinkTrace.Proofs.Sink.Filter

/-!
# Looking up the root methods

The search for the sinks that a method cannot mean starts at the root methods. It gives up where a
root has no node, and where the node does not have a method of the root. While it looks around, no
node and no method goes away, so it never gives up there if all of them are there in the beginning.
-/

namespace SinkTrace.Sinks

open Act Search

variable {ss : Sinks}

/-- The search from a root method that the node may lack. -/
def overlapsOfElse (noMethod : Searching Names) (mod method : String) (sinks found : Names) :
    Searching Names := do
  let left ← unmatched mod method sinks
  if left.isEmpty then return found
  match (← get).links? mod method with
  | none => noMethod
  | some links => overlapsFrom mod method left found links

/-- The search from all root methods, with what is done about missing nodes and methods. -/
def overlapsElse (noNode : Searching Unit) (noMethod : Searching Names) : Searching Names := do
  let roots := (← get).sinks.roots
  roots.entries.foldlM (fun found (mod, methods) => do
    if !(← get).sinks.nodes.contains mod then noNode
    methods.entries.foldlM (fun found (method, sinks) =>
      overlapsOfElse noMethod mod method sinks found) found) []

/-- Every root has its node, and the node has the methods of the root. -/
def Rooted (ss : Sinks) : Prop :=
  ∀ e ∈ ss.roots.entries, (ss.node? e.1).isSome = true ∧ ∀ x ∈ e.2.keys, ss.HasMethod e.1 x

namespace Search

/-- The nodes that are there have the methods of these roots. -/
def HasRoots (roots : Table String NameTable) (s : Search) : Prop :=
  ∀ e ∈ roots.entries, s.sinks.nodes.contains e.1 = true ∧
  ∀ x ∈ e.2.keys, (s.links? e.1 x).isSome = true

lemma Look.contains {s t : Search} (h : Look s t) {X : String} :
    t.sinks.nodes.contains X = s.sinks.nodes.contains X := by
  cases h with
  | way => rfl
  | mark name module =>
    unfold adjustNode
    split_ifs
    · exact Table.contains_modify _ _ _ _
    · rfl
  | set => rfl

lemma stable_hasRoots (roots : Table String NameTable) : Stable (HasRoots roots) Look := by
  intro s t hs hst e he
  obtain ⟨hnode, hmethods⟩ := hs e he
  refine ⟨hst.contains.trans hnode, fun x hx => ?_⟩
  rw [hst.still.links]
  exact hmethods x hx

lemma hasRoots_start (h : Rooted ss) : HasRoots ss.roots { sinks := ss } := by
  intro e he
  obtain ⟨hnode, hmethods⟩ := h e he
  refine ⟨?_, fun x hx => ?_⟩
  · rw [Table.contains_eq_isSome]
    exact hnode
  · rw [links?_start]
    exact hmethods x hx

end Search

variable {roots : Table String NameTable} {mod : String} {methods : NameTable}

lemma alike_overlapsOf (hmod : (mod, methods) ∈ roots.entries) {method : String}
    (hmethod : method ∈ methods.keys) {noMethod : Searching Names} {sinks found : Names} :
    Alike Any (HasRoots roots) (HasRoots roots) (overlapsOf mod method sinks found)
      (overlapsOfElse noMethod mod method sinks found) := by
  have hlooking {α : Type} {a : Searching α} (ha : Leads Look a) :=
    Alike.of_leads ha (stable_hasRoots roots) fun _ _ => trivial
  refine (hlooking glancing_unmatched.looking).bind fun _ => ?_
  refine .ite (.pure found) fun s hs => ?_
  obtain ⟨l, hl⟩ := Option.isSome_iff_exists.mp ((hs _ hmod).2 method hmethod)
  rw [run_bind, run_bind, run_get]
  dsimp only
  rw [hl]
  exact hlooking looking_overlapsFrom s hs

lemma overlapsElse_eq (h : Rooted ss) (noNode : Searching Unit) (noMethod : Searching Names) :
    overlapsElse noNode noMethod { sinks := ss } = overlaps { sinks := ss } := by
  refine (Alike.foldlM (E := fun _ => True) (I := HasRoots ss.roots) (fun found root hroot => ?_) _
    (hasRoots_start h)).1.symm
  intro s hs
  obtain ⟨mod, methods⟩ := root
  have hnode : s.sinks.nodes.contains mod := (hs _ hroot).1
  have hthere : (!s.sinks.nodes.contains mod) = false := by rw [hnode]; rfl
  dsimp only
  rw [run_bind, run_bind, run_get]
  dsimp only
  rw [hthere, if_neg Bool.false_ne_true, if_neg Bool.false_ne_true]
  exact Alike.foldlM (fun _ e he => alike_overlapsOf hroot (List.mem_map_of_mem he))
    s hs

end SinkTrace.Sinks
