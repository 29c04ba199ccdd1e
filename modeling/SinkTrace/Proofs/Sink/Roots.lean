import SinkTrace.Proofs.Sink.Growth
import SinkTrace.Sink.Filter

/-!
# Root methods and the methods of nodes

While the sites of sinks are searched for, the methods of the nodes are the root methods: those that
call a sink themselves. `Founded` says so. A root has methods, unless it is a `late` one that has
just been made, so a node of a root is not among those that are removed for want of methods.
-/

namespace SinkTrace

open Table

namespace Sinks

open Act

variable {k mod : String}

structure Founded (late : String → Prop) (ss : Sinks) : Prop where
  methods : ∀ e ∈ ss.roots.entries, ∀ x ∈ e.2.keys, ss.HasMethod e.1 x
  inhabited : ∀ e ∈ ss.roots.entries, late e.1 ∨ e.2.keys ≠ []
  sites : ∀ X x, ss.HasMethod X x →
    ∃ methods, ss.roots.get? X = some methods ∧ methods.contains x = true
  register : ∀ k, ss.potentMethods.contains k = false
  sources : ∀ X n, ss.node? X = some n → PlainSource X n.callers
  fresh : ∀ X x, ¬ ss.Analyzed X x
  orderly : ss.Orderly

variable {late : String → Prop} {ss ss' : Sinks}

lemma founded_start (resources : Resources) : Founded late { resources } where
  methods := nofun
  inhabited := nofun
  sites _ _ hx := nomatch hx
  register _ := rfl
  sources := nofun
  fresh := nofun
  orderly := ⟨List.nodup_nil, nofun, nofun⟩

lemma entries_eq_nil (h : ss.potentMethods.contains k = false) : ss.entries k = [] := by
  rw [entries, getD, not_contains_iff.mp h]
  rfl

lemma Extends.register {K : String → String → Prop} (h : Extends K (fun _ _ => False) ss ss')
    (hss : ∀ k, ss.potentMethods.contains k = false) (k : String) :
    ss'.potentMethods.contains k = false := by
  rw [Bool.eq_false_iff]
  intro hk
  rcases h.rows k hk with hk | ⟨e, he⟩
  · rw [hss k] at hk
    cases hk
  · have hold := (h.newEntries k e he).resolve_right id
    rw [entries_eq_nil (hss k)] at hold
    cases hold

lemma Extends.plainSources {K T : String → String → Prop} (h : Extends K T ss ss')
    (hss : ∀ X n, ss.node? X = some n → PlainSource X n.callers) (X : String) (n' : SinkNode)
    (hn' : ss'.node? X = some n') : PlainSource X n'.callers := by
  rcases h.sources X n' hn' with ⟨n, hn, heq⟩ | hplain
  · rw [heq]
    exact hss X n hn
  · exact hplain

lemma Founded.settle (h : Founded late ss) (hss : Settles ss ss') : Founded late ss' where
  methods e he x hx := hss.methods _ _ (h.methods e (hss.roots ▸ he) x hx)
  inhabited e he := h.inhabited e (hss.roots ▸ he)
  sites X x hx := by
    rw [hss.roots]
    exact h.sites X x ((hss.newMethods X x hx).resolve_right id)
  register := hss.register h.register
  sources := hss.plainSources h.sources
  fresh X x hx := h.fresh X x (hss.analyzed X x hx)
  orderly := hss.orderly h.orderly

/-! ### Sites -/

lemma founded_createRoot {v : Unit} (h : Founded (fun _ => False) ss)
    (hrun : createRoot mod ss = (.ok v, ss')) :
    Founded (· = mod) ss' ∧ ss'.roots.contains mod ∧ ss'.nodes = ss.nodes ∧
      ss'.resources = ss.resources := by
  obtain ⟨_, _, hget, hrun⟩ := of_bind hrun
  cases hget
  rw [run_ite] at hrun
  split_ifs at hrun with hmod
  · cases hrun
    have hfounded : Founded (· = mod) ss :=
      { h with inhabited := fun e he => .inr ((h.inhabited e he).resolve_left id) }
    exact ⟨hfounded, hmod, rfl, rfl⟩
  · cases hrun
  · cases hrun
    refine ⟨⟨fun e he => ?_, fun e he => ?_, fun X x hx => ?_, h.register, h.sources,
      h.fresh, h.orderly.of_eq rfl rfl⟩, contains_set.mpr (.inl rfl), rfl, rfl⟩
    · rcases mem_entries_set he with rfl | he
      · exact nofun
      · exact h.methods e he
    · rcases mem_entries_set he with rfl | he
      · exact .inl rfl
      · exact .inr ((h.inhabited e he).resolve_left id)
    · obtain ⟨methods, hget, hmethod⟩ := h.sites X x hx
      have hX : X ≠ mod := fun heq => hmod (heq ▸ contains_of_get? hget)
      exact ⟨methods, by rwa [get?_set, if_neg hX], hmethod⟩

lemma mem_keys_insertAt {t : NameTable} {n x : String} :
    x ∈ (Names.insertAt t k n).keys ↔ x = k ∨ x ∈ t.keys := by
  rw [mem_keys_iff, mem_keys_iff]
  exact contains_set

lemma roots_addSite (mod ns sinkModule sink : String) (ss : Sinks) :
    (addSite mod ns sinkModule sink ss).roots
      = ss.roots.modify mod fun ms => Names.insertAt ms ns sink := by
  have hgrown := extends_addCallee ss mod ns sink
  rw [← hgrown.roots]
  rfl

lemma addSite_keeps (ns sinkModule sink : String) (hnode : (ss.node? mod).isSome)
    (hroot : ss.roots.contains mod) :
    ((addSite mod ns sinkModule sink ss).node? mod).isSome ∧
      (addSite mod ns sinkModule sink ss).roots.contains mod ∧
      (addSite mod ns sinkModule sink ss).resources = ss.resources := by
  have hgrown := extends_addCallee ss mod ns sink
  refine ⟨hgrown.nodes mod hnode, ?_, hgrown.resources⟩
  rw [roots_addSite, contains_modify]
  exact hroot

lemma founded_addSite (h : Founded (· = mod) ss) (hnode : (ss.node? mod).isSome)
    (hroot : ss.roots.contains mod) {ns sinkModule sink : String} :
    Founded (fun _ => False) (addSite mod ns sinkModule sink ss) := by
  have hgrown := extends_addCallee ss mod ns sink
  have hns : (addSite mod ns sinkModule sink ss).HasMethod mod ns :=
    hasMethod_ensureLinks.mpr (.inr ⟨⟨rfl, rfl⟩, hnode⟩)
  refine ⟨fun e he => ?_, fun e he => ?_, fun X x hx => ?_, hgrown.register h.register,
    hgrown.plainSources h.sources, fun X x hx => h.fresh X x (hgrown.analyzed X x hx),
    (hgrown.orderly h.orderly).of_eq rfl rfl⟩
  · rw [roots_addSite] at he
    rcases mem_entries_modify he with ⟨e₀, he₀, rfl, rfl⟩ | ⟨he, -⟩
    · rintro x hx
      rcases mem_keys_insertAt.mp hx with rfl | hx
      · exact hns
      · exact hgrown.methods _ _ (h.methods e₀ he₀ x hx)
    · exact fun x hx => hgrown.methods _ _ (h.methods e he x hx)
  · rw [roots_addSite] at he
    rcases mem_entries_modify he with ⟨e₀, he₀, rfl, rfl⟩ | ⟨he, hne⟩
    · exact .inr (List.ne_nil_of_mem (mem_keys_insertAt.mpr (.inl rfl)))
    · exact .inr ((h.inhabited e he).resolve_left hne)
  · rw [roots_addSite, get?_modify]
    rcases hgrown.newMethods X x hx with hold | ⟨rfl, rfl⟩
    · obtain ⟨methods, hget, hmethod⟩ := h.sites X x hold
      rw [hget]
      split_ifs
      · exact ⟨_, rfl, contains_set.mpr (.inr hmethod)⟩
      · exact ⟨methods, rfl, hmethod⟩
    · obtain ⟨methods, hget⟩ := contains_iff.mp hroot
      rw [hget, if_pos rfl]
      exact ⟨_, rfl, contains_set.mpr (.inl rfl)⟩

/-! ### Modules without methods -/

lemma node?_filterModules_eq (hss : ss.nodes.keys.Nodup) (X : String) :
    ss.filterModules.node? X = ((ss.node? X).map fun n =>
      { n with moduleUsers := ⟨n.moduleUsers.entries.filter fun e =>
        !isGivenUp ss.existMods (ss.setOf e.2)⟩ }).filter fun n =>
          !(n.moduleUsers.isEmpty && n.methodUsers.isEmpty) := by
  unfold filterModules node?
  extract_lets nodes
  have hnodup : nodes.keys.Nodup := by rwa [keys_mapValues]
  rw [get?_filter hnodup, get?_mapValues]

lemma node?_filterModules (hss : ss.nodes.keys.Nodup) (X : String) :
    (∃ n n', ss.node? X = some n ∧ ss.filterModules.node? X = some n' ∧
      n'.methodUsers = n.methodUsers ∧ n'.callers = n.callers ∧ n'.analyzed = n.analyzed) ∨
      ss.filterModules.node? X = none ∧ ∀ n, ss.node? X = some n → n.methodUsers.isEmpty := by
  rw [node?_filterModules_eq hss]
  cases hn : ss.node? X with
  | none => exact .inr ⟨rfl, nofun⟩
  | some n =>
    rw [Option.map_some, Option.filter]
    split_ifs with hkept
    · exact .inl ⟨n, _, rfl, rfl, rfl, rfl, rfl⟩
    · refine .inr ⟨rfl, fun _ hn' => ?_⟩
      obtain rfl := Option.some.inj hn'
      rw [Bool.not_eq_true', Bool.not_eq_false, Bool.and_eq_true] at hkept
      exact hkept.2

lemma links?_filterModules (hss : ss.nodes.keys.Nodup) (X x : String) :
    ss.filterModules.links? X x = ss.links? X x := by
  unfold links?
  rcases node?_filterModules hss X with ⟨n, n', hn, hn', heq, -⟩ | ⟨hnone, hempty⟩
  · rw [hn, hn', Option.bind_some, Option.bind_some, heq]
  · rw [hnone]
    cases hn : ss.node? X with
    | none => rfl
    | some n => exact (get?_eq_none_of_isEmpty (hempty n hn) x).symm

lemma Orderly.filterModules (h : ss.Orderly) : ss.filterModules.Orderly where
  nodes := by
    unfold Sinks.filterModules
    extract_lets nodes
    have hnodup : nodes.keys.Nodup := by
      rw [keys_mapValues]
      exact h.nodes
    exact (List.filter_sublist.map _).nodup hnodup
  allocated X x l hl := h.allocated X x l (links?_filterModules h.nodes X x ▸ hl)
  unique X n' hn' := by
    rcases node?_filterModules h.nodes X with ⟨n, m, hn, hm, heq, -⟩ | ⟨hnone, -⟩
    · obtain rfl := Option.some.inj (hm.symm.trans hn')
      rw [heq]
      exact h.unique X n hn
    · rw [hnone] at hn'
      cases hn'

lemma Founded.filterModules (h : Founded late ss) : Founded late ss.filterModules where
  methods e he x hx := by
    rw [HasMethod, links?_filterModules h.orderly.nodes]
    exact h.methods e he x hx
  inhabited := h.inhabited
  sites X x hx := by
    rw [HasMethod, links?_filterModules h.orderly.nodes] at hx
    exact h.sites X x hx
  register := h.register
  sources X n' hn' := by
    rcases node?_filterModules h.orderly.nodes X with ⟨n, m, hn, hm, -, heq, -⟩ | ⟨hnone, -⟩
    · obtain rfl := Option.some.inj (hm.symm.trans hn')
      rw [heq]
      exact h.sources X n hn
    · rw [hnone] at hn'
      cases hn'
  fresh X x hx := by
    obtain ⟨n', hn', hx⟩ := hx
    rcases node?_filterModules h.orderly.nodes X with ⟨n, m, hn, hm, -, -, heq⟩ | ⟨hnone, -⟩
    · obtain rfl := Option.some.inj (hm.symm.trans hn')
      rw [heq] at hx
      exact h.fresh X x ⟨n, hn, hx⟩
    · rw [hnone] at hn'
      cases hn'
  orderly := h.orderly.filterModules

end Sinks

end SinkTrace
