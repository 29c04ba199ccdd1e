import SinkTrace.Proofs.Sink.Roots

/-!
# The modules of a method

A method stays with its sink modules if the one that is gone through first exists. So the order of a
set decides about a method with modules of both kinds, and about no other.
-/

namespace SinkTrace.Sinks

variable {ss ss' : Sinks} {X x m : String} {i : SetId}

/-- The method `x` of a node has its sink modules in a set. -/
def HasModules (ss : Sinks) (X x : String) (i : SetId) : Prop :=
  ∃ n, ss.node? X = some n ∧ n.moduleUsers.get? x = some i

/-- The same sinks, with the sets in another order. -/
structure Reorders (ss ss' : Sinks) : Prop where
  nodes : ss'.nodes = ss.nodes
  existMods : ss'.existMods = ss.existMods
  sets : ∀ i, (ss'.setOf i).Perm (ss.setOf i)

/-- A module, and a method with sink modules, is written down once. -/
structure Keyed (ss : Sinks) : Prop where
  nodes : ss.nodes.keys.Nodup
  methods : ∀ X n, ss.node? X = some n → n.moduleUsers.keys.Nodup

lemma Reorders.hasModules (h : Reorders ss ss') : ss'.HasModules X x i ↔ ss.HasModules X x i := by
  simp only [HasModules, node?_eq_of_nodes h.nodes]

lemma Reorders.keyed (h : Reorders ss ss') (hss : ss.Keyed) : ss'.Keyed := by
  constructor
  · simpa only [h.nodes] using hss.nodes
  · simpa only [node?_eq_of_nodes h.nodes] using hss.methods

lemma setOf_adjustSet (f : Names → Names) (hf : f [] = []) (j : SetId) :
    (ss.adjustSet i f).setOf j = if i = j then f (ss.setOf j) else ss.setOf j := by
  simp only [setOf, adjustSet, Pool.get, Pool.modify, List.getD_eq_getElem?_getD,
    List.getElem?_modify]
  cases ss.pool.sets[j]? <;> split_ifs <;> simp [hf]

/-- Any module of a set can be the first. -/
lemma exists_reorders (hm : m ∈ ss.setOf i) :
    ∃ ss', Reorders ss ss' ∧ (ss'.setOf i).head? = some m := by
  let first (s : Names) : Names := if m ∈ s then m :: s.erase m else s
  have hset (j) : (ss.adjustSet i first).setOf j = if i = j then first (ss.setOf j)
      else ss.setOf j :=
    setOf_adjustSet first rfl j
  refine ⟨ss.adjustSet i first, ⟨rfl, rfl, fun j => ?_⟩, ?_⟩
  · rw [hset]
    unfold first
    split_ifs with hij hj
    · exact (List.perm_cons_erase hj).symm
    · rfl
    · rfl
  · simp [hset, first, hm]

lemma isGivenUp_eq_false_iff {exist mods : Names} :
    isGivenUp exist mods = false ↔ ∀ m ∈ mods.head?, m ∈ exist := by
  cases mods <;> simp [isGivenUp]

/-- The first module decides. -/
lemma hasModules_filterModules (h : ss.Keyed) : ss.filterModules.HasModules X x i ↔
    ss.HasModules X x i ∧ ∀ m ∈ (ss.setOf i).head?, m ∈ ss.existMods := by
  unfold HasModules
  rw [node?_filterModules_eq h.nodes, ← isGivenUp_eq_false_iff]
  cases hn : ss.node? X with
  | none => simp
  | some n =>
    have hget := Table.get?_filter (h.methods X n hn)
      (fun e => !isGivenUp ss.existMods (ss.setOf e.2)) x
    simp only [Option.map_some, Option.filter_some, Option.ite_none_right_eq_some,
      Option.some.injEq, ↓existsAndEq, and_true, exists_eq_left', hget, Option.filter_eq_some_iff,
      Bool.not_eq_true']
    constructor
    · exact And.right
    · intro hx
      refine ⟨?_, hx⟩
      rw [Bool.and_eq_false_iff, ← Bool.not_eq_true]
      left
      intro hempty
      have hnone := Table.get?_eq_none_of_isEmpty hempty x
      rw [hget, hx.1, Option.filter_some, hx.2] at hnone
      cases hnone

lemma isSome_node?_filterModules (h : ss.Keyed) : (ss.filterModules.node? X).isSome ↔
    (∃ x i, ss.filterModules.HasModules X x i) ∨ ∃ x, ss.filterModules.HasMethod X x := by
  have hnode := node?_filterModules_eq h.nodes X
  unfold HasModules
  constructor
  · intro hsome
    obtain ⟨n, hn⟩ := Option.isSome_iff_exists.mp hsome
    have hkept := (Option.filter_eq_some_iff.mp (hnode.symm.trans hn)).2
    rw [Bool.not_eq_true', Bool.and_eq_false_iff] at hkept
    rcases hkept with hkept | hkept
    · obtain ⟨x, i, hx⟩ := Table.exists_get?_of_isEmpty hkept
      exact .inl ⟨x, i, n, hn, hx⟩
    · obtain ⟨x, l, hx⟩ := Table.exists_get?_of_isEmpty hkept
      exact .inr ⟨x, by simp [HasMethod, links?, hn, hx]⟩
  · rintro (⟨x, i, n, hn, -⟩ | ⟨x, hx⟩)
    · simp [hn]
    · obtain ⟨n, hn⟩ := hx.node
      simp [hn]

/-- A method stays with its modules if the first one exists: in every order if all do, in some if
one does. -/
theorem hasModules_filterModules_iff_of_order (h : ss.Keyed) (X x : String) (i : SetId) :
    (ss.filterModules.HasModules X x i ↔
      ss.HasModules X x i ∧ ∀ m ∈ (ss.setOf i).head?, m ∈ ss.existMods) ∧
    ((∀ ss', Reorders ss ss' → ss'.filterModules.HasModules X x i) ↔
      ss.HasModules X x i ∧ ∀ m ∈ ss.setOf i, m ∈ ss.existMods) ∧
    ((∃ ss', Reorders ss ss' ∧ ss'.filterModules.HasModules X x i) ↔
      ss.HasModules X x i ∧ (ss.setOf i = [] ∨ ∃ m ∈ ss.setOf i, m ∈ ss.existMods)) ∧
    ((ss.filterModules.node? X).isSome = true ↔
      (∃ x i, ss.filterModules.HasModules X x i) ∨ ∃ x, ss.HasMethod X x) := by
  have hsame : Reorders ss ss := ⟨rfl, rfl, fun _ => .refl _⟩
  refine ⟨hasModules_filterModules h, ⟨fun hall => ?_, ?_⟩, ⟨?_, ?_⟩, ?_⟩
  · refine ⟨((hasModules_filterModules h).mp (hall ss hsame)).1, fun m hm => ?_⟩
    obtain ⟨ss', hss', hfirst⟩ := exists_reorders hm
    have hkept := (hasModules_filterModules (hss'.keyed h)).mp (hall ss' hss')
    exact hss'.existMods ▸ hkept.2 m hfirst
  · rintro ⟨hx, hall⟩ ss' hss'
    refine (hasModules_filterModules (hss'.keyed h)).mpr ⟨hss'.hasModules.mpr hx, fun m hm => ?_⟩
    rw [hss'.existMods]
    exact hall m ((hss'.sets i).subset (List.mem_of_mem_head? hm))
  · rintro ⟨ss', hss', hkept⟩
    obtain ⟨hx, hfirst⟩ := (hasModules_filterModules (hss'.keyed h)).mp hkept
    refine ⟨hss'.hasModules.mp hx, ?_⟩
    cases hset : ss'.setOf i with
    | nil => exact .inl (List.nil_perm.mp (hset ▸ hss'.sets i))
    | cons m ms =>
      have hm : m ∈ ss'.existMods := hfirst m (by simp [hset])
      exact .inr ⟨m, (hss'.sets i).subset (by simp [hset]), hss'.existMods ▸ hm⟩
  · rintro ⟨hx, hempty | ⟨m, hm, hexist⟩⟩
    · exact ⟨ss, hsame, (hasModules_filterModules h).mpr ⟨hx, by simp [hempty]⟩⟩
    · obtain ⟨ss', hss', hfirst⟩ := exists_reorders hm
      refine ⟨ss', hss', (hasModules_filterModules (hss'.keyed h)).mpr ⟨hss'.hasModules.mpr hx, ?_⟩⟩
      simpa [hfirst, hss'.existMods] using hexist
  · simpa only [HasMethod, links?_filterModules h.nodes] using isSome_node?_filterModules h

def mixed : Sinks :=
  { pool := ⟨[["lost", "os"]]⟩, existMods := ["os"],
    nodes := ⟨[("app", { moduleUsers := ⟨[("f", 0)]⟩ })]⟩ }

lemma keyed_mixed : mixed.Keyed := by
  constructor
  · decide
  · intro X n hn
    have hmem := Table.mem_entries_of_get? hn
    simp [mixed] at hmem
    simp [hmem, Table.keys]

/-- The order decides about the method: it is removed here, and it stays in another order. -/
theorem hasModules_filterModules_mixed :
    mixed.HasModules "app" "f" 0 ∧ ¬ mixed.filterModules.HasModules "app" "f" 0 ∧
      ∃ ss', Reorders mixed ss' ∧ ss'.filterModules.HasModules "app" "f" 0 := by
  obtain ⟨hfirst, -, hsome, -⟩ := hasModules_filterModules_iff_of_order keyed_mixed "app" "f" 0
  have hf : mixed.HasModules "app" "f" 0 := ⟨_, rfl, rfl⟩
  refine ⟨hf, fun hkept => ?_, hsome.mpr ⟨hf, .inr ⟨"os", by decide, by decide⟩⟩⟩
  exact absurd ((hfirst.mp hkept).2 "lost" rfl) (by decide)

/-- A method with a module that exists is removed, and its node with it. -/
theorem exists_filterModules_removes_existing :
    ∃ ss : Sinks, ss.HasModules "app" "f" 0 ∧ (∃ m ∈ ss.setOf 0, m ∈ ss.existMods) ∧
      ss.filterModules.node? "app" = none :=
  ⟨mixed, ⟨_, rfl, rfl⟩, ⟨"os", by decide, by decide⟩, rfl⟩

end SinkTrace.Sinks
