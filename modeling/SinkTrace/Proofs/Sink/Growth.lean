import Mathlib.Order.Nat
import SinkTrace.Proofs.Act
import SinkTrace.Proofs.Sink.Methods
import SinkTrace.Proofs.Text.Split

/-!
# How sinks grow

While sinks are searched for, nodes, methods and entries of the register only come, and sets of
callees and callers only become larger. `Extends` says so of two states, and which methods and
entries have come in between. One lemma for each operation follows.
-/

namespace SinkTrace

open Table Text Act Option

variable {n : String} {i : SetId}

/-! ### Shared sets -/

namespace Pool

variable {f : Names → Names} {p : Pool} {s : Names} {j : SetId}

lemma mem_modify (hf : ∀ s, ∀ n ∈ s, n ∈ f s) (h : n ∈ p.get j) : n ∈ (p.modify i f).get j := by
  unfold get modify at *
  rw [List.getD_eq_getElem?_getD] at h ⊢
  rw [List.getElem?_modify]
  cases hj : p.sets[j]? with
  | none =>
    rw [hj] at h
    cases h
  | some s =>
    rw [hj] at h
    by_cases hij : i = j
    · simpa [hij] using hf s n h
    · simpa [hij] using h

lemma mem_modify_self (hi : i < p.sets.length) (h : ∀ s, n ∈ f s) : n ∈ (p.modify i f).get i := by
  unfold get modify
  rw [List.getD_eq_getElem?_getD, List.getElem?_modify, List.getElem?_eq_getElem hi]
  simpa using h _

lemma mem_alloc (h : n ∈ p.get j) : n ∈ (p.alloc s).1.get j := by
  unfold get alloc at *
  rw [List.getD_eq_getElem?_getD] at h ⊢
  cases hj : p.sets[j]? with
  | none =>
    rw [hj] at h
    cases h
  | some t =>
    rw [hj] at h
    have hlt := (List.getElem?_eq_some_iff.mp hj).1
    rw [List.getElem?_append_left hlt, hj]
    exact h

lemma length_modify (p : Pool) (i : SetId) (f : Names → Names) :
    (p.modify i f).sets.length = p.sets.length := List.length_modify ..

lemma length_alloc (p : Pool) (s : Names) : (p.alloc s).1.sets.length = p.sets.length + 1 :=
  List.length_append

lemma alloc_lt : (p.alloc s).2 < (p.alloc s).1.sets.length := length_alloc p s ▸ Nat.lt_succ_self _

end Pool

namespace Sinks

variable {f : Names → Names} {fuel : Nat} {inner last method mod ns outer : String}
  {file : Option String} {mods : Names}

abbrev entries (ss : Sinks) (name : String) : Names := ss.potentMethods.getD name []

/-- The callers of a node are written down nowhere, or with the module of the node. -/
def PlainSource (mod : String) (source : CallerSource) : Prop :=
  source = .own {} ∨ source = .ofModule mod

/-- The sets of callees are there, and a module has one node and a method one set of links. -/
structure Orderly (ss : Sinks) : Prop where
  nodes : ss.nodes.keys.Nodup
  allocated : ∀ X x l, ss.links? X x = some l → l.callees < ss.pool.sets.length
  unique : ∀ X n, ss.node? X = some n → n.methodUsers.keys.Nodup

lemma Orderly.of_eq {ss ss' : Sinks} (h : ss.Orderly) (hnodes : ss'.nodes = ss.nodes)
    (hpool : ss'.pool = ss.pool) : ss'.Orderly where
  nodes := hnodes ▸ h.nodes
  allocated X x l hl := by
    rw [links?_eq_of_nodes hnodes] at hl
    exact hpool ▸ h.allocated X x l hl
  unique X n hn := by
    rw [node?_eq_of_nodes hnodes] at hn
    exact h.unique X n hn

/-- Sinks have grown by the methods in `K` and the entries in `T`. The callees of a method stay
unless a method of its name in another module has taken its place. -/
structure Extends (K T : String → String → Prop) (ss ss' : Sinks) : Prop where
  resources : ss'.resources = ss.resources
  roots : ss'.roots = ss.roots
  nodes : ∀ X, (ss.node? X).isSome = true → (ss'.node? X).isSome = true
  methods : ∀ X x, ss.HasMethod X x → ss'.HasMethod X x
  newMethods : ∀ X x, ss'.HasMethod X x → ss.HasMethod X x ∨ K X x
  callees : ∀ X x l, ss.links? X x = some l →
    (∃ l', ss'.links? X x = some l' ∧ l'.callees = l.callees) ∨ ∃ N, N ≠ X ∧ ss'.HasMethod N x
  sets : ∀ i, ∀ n ∈ ss.setOf i, n ∈ ss'.setOf i
  size : ss.pool.sets.length ≤ ss'.pool.sets.length
  orderly : ss.Orderly → ss'.Orderly
  entries : ∀ k, ∀ e ∈ ss.entries k, e ∈ ss'.entries k
  newEntries : ∀ k, ∀ e ∈ ss'.entries k, e ∈ ss.entries k ∨ T k e
  rows : ∀ k, ss'.potentMethods.contains k = true →
    ss.potentMethods.contains k = true ∨ ∃ e, e ∈ ss'.entries k
  sources : ∀ X n', ss'.node? X = some n' →
    (∃ n, ss.node? X = some n ∧ n'.callers = n.callers) ∨ PlainSource X n'.callers
  analyzed : ∀ X x, ss'.Analyzed X x → ss.Analyzed X x

abbrev Settles : Sinks → Sinks → Prop := Extends (fun _ _ => False) (fun _ _ => False)

variable {K T K' T' : String → String → Prop} {ss ss' ss'' : Sinks}

lemma Extends.trans (h : Extends K T ss ss') (h' : Extends K T ss' ss'') : Extends K T ss ss'' where
  resources := h'.resources.trans h.resources
  roots := h'.roots.trans h.roots
  nodes X hX := h'.nodes X (h.nodes X hX)
  methods X x hx := h'.methods X x (h.methods X x hx)
  newMethods X x hx := (h'.newMethods X x hx).elim (h.newMethods X x) .inr
  callees X x l hl := by
    rcases h.callees X x l hl with ⟨l', hl', hid⟩ | ⟨N, hN, hx⟩
    · rcases h'.callees X x l' hl' with ⟨l'', hl'', hid'⟩ | hother
      · exact .inl ⟨l'', hl'', hid'.trans hid⟩
      · exact .inr hother
    · exact .inr ⟨N, hN, h'.methods N x hx⟩
  sets i n hn := h'.sets i n (h.sets i n hn)
  size := h.size.trans h'.size
  orderly hss := h'.orderly (h.orderly hss)
  entries k e he := h'.entries k e (h.entries k e he)
  newEntries k e he := (h'.newEntries k e he).elim (h.newEntries k e) .inr
  rows k hk := by
    rcases h'.rows k hk with hk' | hrow
    · exact (h.rows k hk').imp_right fun ⟨e, he⟩ => ⟨e, h'.entries k e he⟩
    · exact .inr hrow
  sources X n'' hn'' := by
    rcases h'.sources X n'' hn'' with ⟨n', hn', heq⟩ | hplain
    · rcases h.sources X n' hn' with ⟨n, hn, heq'⟩ | hplain
      · exact .inl ⟨n, hn, heq.trans heq'⟩
      · rw [← heq] at hplain
        exact .inr hplain
    · exact .inr hplain
  analyzed X x hx := h.analyzed X x (h'.analyzed X x hx)

lemma Extends.mono (h : Extends K T ss ss') (hK : ∀ X x, K X x → K' X x)
    (hT : ∀ k e, T k e → T' k e) : Extends K' T' ss ss' :=
  { h with
    newMethods := fun X x hx => (h.newMethods X x hx).imp_right (hK X x)
    newEntries := fun k e he => (h.newEntries k e he).imp_right (hT k e) }

lemma Extends.refl (ss : Sinks) : Extends K T ss ss where
  resources := rfl
  roots := rfl
  nodes _ hX := hX
  methods _ _ hx := hx
  newMethods _ _ hx := .inl hx
  callees _ _ l hl := .inl ⟨l, hl, rfl⟩
  sets _ _ hn := hn
  size := le_rfl
  orderly hss := hss
  entries _ _ he := he
  newEntries _ _ he := .inl he
  rows _ hk := .inl hk
  sources _ n hn := .inl ⟨n, hn, rfl⟩
  analyzed _ _ hx := hx

lemma Settles.extends (h : Settles ss ss') : Extends K T ss ss' :=
  h.mono (fun _ _ => False.elim) fun _ _ => False.elim

/-! ### Changes that bring nothing new -/

/-- A node keeps its methods, and its callers unless these become those of its module. -/
structure Refits (mod : String) (n n' : SinkNode) : Prop where
  methods : n'.methodUsers = n.methodUsers
  callers : n'.callers = n.callers ∨ PlainSource mod n'.callers
  analyzed : n'.analyzed = n.analyzed

lemma settles_of_refits (hresources : ss'.resources = ss.resources) (hroots : ss'.roots = ss.roots)
    (hregister : ss'.potentMethods = ss.potentMethods)
    (hsets : ∀ i, ∀ n ∈ ss.setOf i, n ∈ ss'.setOf i)
    (hsize : ss.pool.sets.length ≤ ss'.pool.sets.length)
    (hkeys : ss.nodes.keys.Nodup → ss'.nodes.keys.Nodup)
    (hstay : ∀ X, (ss.node? X).isSome → (ss'.node? X).isSome)
    (hrefits : ∀ X n', ss'.node? X = some n' → Refits X ((ss.node? X).getD {}) n') :
    Settles ss ss' := by
  have hlinks (X x : String) : ss'.links? X x = ss.links? X x := by
    have hthere := hstay X
    have hmethods := fun n' hn' => (hrefits X n' hn').methods
    unfold links?
    cases hn : ss.node? X <;> cases hn' : ss'.node? X <;> simp_all
    rfl
  refine
    { resources := hresources
      roots := hroots
      nodes := hstay
      methods := fun X x hx => by rwa [HasMethod, hlinks]
      newMethods := fun X x hx => .inl (by rwa [HasMethod, hlinks] at hx)
      callees := fun X x l hl => .inl ⟨l, by rwa [hlinks], rfl⟩
      sets := hsets
      size := hsize
      orderly := fun hss => ⟨hkeys hss.nodes,
        fun X x l hl => (hss.allocated X x l (hlinks X x ▸ hl)).trans_le hsize, fun X n' hn' => ?_⟩
      entries := fun k e he => by rwa [Sinks.entries, hregister]
      newEntries := fun k e he => .inl (by rwa [Sinks.entries, hregister] at he)
      rows := fun k hk => .inl (hregister ▸ hk)
      sources := fun X n' hn' => ?_
      analyzed := fun X x ⟨n', hn', hmem⟩ => ?_ }
  · rw [(hrefits X n' hn').methods]
    cases hn : ss.node? X with
    | none => exact List.nodup_nil
    | some n => exact hss.unique X n hn
  · have hcallers := (hrefits X n' hn').callers
    cases hn : ss.node? X with
    | none =>
      rw [hn] at hcallers
      exact .inr (hcallers.elim .inl id)
    | some n =>
      rw [hn] at hcallers
      exact hcallers.imp_left fun heq => ⟨n, rfl, heq⟩
  · rw [(hrefits X n' hn').analyzed] at hmem
    cases hn : ss.node? X with
    | none =>
      rw [hn] at hmem
      cases hmem
    | some n => exact ⟨n, hn, by rwa [hn] at hmem⟩

lemma settles_of_nodes (hresources : ss'.resources = ss.resources) (hroots : ss'.roots = ss.roots)
    (hnodes : ss'.nodes = ss.nodes)
    (hregister : ss'.potentMethods = ss.potentMethods)
    (hsets : ∀ i, ∀ n ∈ ss.setOf i, n ∈ ss'.setOf i)
    (hsize : ss.pool.sets.length ≤ ss'.pool.sets.length) : Settles ss ss' := by
  have hnode := node?_eq_of_nodes hnodes
  refine settles_of_refits hresources hroots hregister hsets hsize (hnodes ▸ id)
    (fun X hX => hnode X ▸ hX) fun X n hn => ?_
  rw [← hnode, hn]
  exact ⟨rfl, .inl rfl, rfl⟩

lemma settles_adjustSet (ss : Sinks) (i : SetId) (hf : ∀ s, ∀ n ∈ s, n ∈ f s) :
    Settles ss (ss.adjustSet i f) :=
  settles_of_nodes rfl rfl rfl rfl (fun _ _ => Pool.mem_modify hf) (Pool.length_modify ..).ge

lemma settles_insertSet (ss : Sinks) (i : SetId) (name : String) :
    Settles ss (ss.adjustSet i fun s => s.insertEnd name) :=
  settles_adjustSet ss i fun _ _ hn => List.mem_insertEnd_iff.mpr (.inr hn)

lemma settles_unionSet {names : Names} : Settles ss (ss.adjustSet i fun s => s.union names) :=
  settles_adjustSet ss i fun _ _ hn => Names.mem_union.mpr (.inl hn)

lemma settles_newSet (ss : Sinks) (s : Names) : Settles ss (ss.newSet s).1 :=
  settles_of_nodes rfl rfl rfl rfl (fun _ _ => Pool.mem_alloc)
  (Pool.length_alloc .. ▸ Nat.le_succ _)

lemma settles_newLinks (ss : Sinks) (callees callers : Names) :
    Settles ss (ss.newLinks callees callers).1 :=
  (settles_newSet ss callees).trans (settles_newSet _ callers)

lemma callees_newLinks_lt (ss : Sinks) (callees callers : Names) :
    (ss.newLinks callees callers).2.callees < (ss.newLinks callees callers).1.pool.sets.length :=
  Pool.alloc_lt.trans_le (settles_newSet (ss.newSet callees).1 callers).size

lemma settles_adjustNode (ss : Sinks) (mod : String) {f : SinkNode → SinkNode}
    (hf : ∀ n, Refits mod n (f n)) : Settles ss (ss.adjustNode mod f) := by
  refine settles_of_refits rfl rfl rfl (fun _ _ => id) le_rfl
    ((keys_modify ss.nodes mod f).symm ▸ id) (fun X hX => ?_) fun X _ hn' => ?_
  · rw [node?_adjustNode]
    split_ifs
    · rwa [isSome_map]
    · exact hX
  · rw [node?_adjustNode] at hn'
    split_ifs at hn' with hX
    · obtain ⟨n, hn, rfl⟩ := map_eq_some_iff.mp hn'
      rw [hn, hX]
      exact hf n
    · rw [hn']
      exact ⟨rfl, .inl rfl, rfl⟩

lemma settles_newNode (h : ss.nodes.contains mod = false) :
    Settles ss { ss with nodes := ss.nodes.set mod {} } := by
  have hnode (X : String) : Sinks.node? { ss with nodes := ss.nodes.set mod {} } X
      = if X = mod then some {} else ss.node? X := get?_set ..
  refine settles_of_refits rfl rfl rfl (fun _ _ => id) le_rfl
    (fun hkeys => nodup_keys_set hkeys) (fun X hX => ?_) fun X _ hn' => ?_
  · rw [hnode]
    split_ifs
    · rfl
    · exact hX
  · rw [hnode] at hn'
    split_ifs at hn' with hX
    · obtain rfl := some.inj hn'
      have hnone : ss.node? mod = none := not_contains_iff.mp h
      rw [hX, hnone]
      exact ⟨rfl, .inl rfl, rfl⟩
    · rw [hn']
      exact ⟨rfl, .inl rfl, rfl⟩

lemma leads_createNode : Leads Settles (createNode mod) := by
  refine .get_bind fun _ => ?_
  rw [run_ite]
  split_ifs with hmod
  · exact .refl
  · exact .refl
  · exact .single (settles_newNode (Bool.eq_false_iff.mpr hmod))

lemma leads_setFilename : Leads Settles (setFilename mod file) := by
  unfold setFilename
  split
  · exact .throw
  · exact .throw
  · refine Leads.get.bind fun ss => .when .throw ?_
    refine .modify fun ss => .single (settles_adjustNode ss mod fun n => ?_)
    exact ⟨rfl, .inl rfl, rfl⟩

lemma leads_setCallers : Leads Settles (setCallers mod (.ofModule mod)) := by
  refine Leads.get.bind fun ss => .when .throw ?_
  refine .modify fun ss => .single (settles_adjustNode ss mod fun n => ?_)
  exact ⟨rfl, .inr (.inr rfl), rfl⟩

lemma isSome_adjustNode (h : ¬(!ss.nodes.contains mod)) {f : SinkNode → SinkNode} :
    ((ss.adjustNode mod f).node? mod).isSome := by
  rw [Bool.not_eq_true', Bool.not_eq_false, contains_eq_isSome] at h
  rw [node?_adjustNode, if_pos rfl, isSome_map]
  exact h

lemma isSome_of_setCallers {callers : CallerSource} {v : Unit}
    (h : setCallers mod callers ss = (.ok v, ss')) : (ss'.node? mod).isSome := by
  obtain ⟨_, _, hget, hset⟩ := of_bind h
  cases hget
  rw [run_ite] at hset
  split_ifs at hset with hmod
  · cases hset
  · cases hset
    exact isSome_adjustNode hmod

lemma isSome_of_setFilename {v : Unit} (h : setFilename mod file ss = (.ok v, ss')) :
    (ss'.node? mod).isSome := by
  unfold setFilename at h
  split at h
  · cases h
  · cases h
  · obtain ⟨_, _, hget, hset⟩ := of_bind h
    cases hget
    rw [run_ite] at hset
    split_ifs at hset with hmod
    · cases hset
    · cases hset
      exact isSome_adjustNode hmod

lemma settles_addModuleUsers : Settles ss (ss.addModuleUsers mod method mods) := by
  unfold addModuleUsers
  split
  · exact settles_unionSet
  · exact (settles_newSet ss _).trans (settles_adjustNode _ mod fun n => ⟨rfl, .inl rfl, rfl⟩)

lemma settles_addPotentModule : Settles ss (ss.addPotentModule method mods) :=
  settles_of_nodes rfl rfl rfl rfl (fun _ _ => id) le_rfl

lemma settles_addModuleMod (ss : Sinks) (method : String) (mods : Names) :
    Settles ss (ss.addModuleMod method mods) :=
  settles_of_nodes rfl rfl rfl rfl (fun _ _ => id) le_rfl

/-! ### New methods -/

lemma extends_withMethod {l : Links} (hl : l.callees < ss.pool.sets.length)
    (h : (∀ l', ss.links? mod method = some l' → l.callees = l'.callees) ∨ ∃ N, N ≠ mod ∧
      ss.HasMethod N method) :
    Extends (fun X x => X = mod ∧ x = method) (fun _ _ => False) ss
    (withMethod mod method l ss) where
  resources := rfl
  roots := rfl
  nodes X hX := by
    rw [node?_adjustNode]
    split_ifs
    · rwa [isSome_map]
    · exact hX
  methods X x hx := hasMethod_withMethod.mpr (.inl hx)
  newMethods X x hx := (hasMethod_withMethod.mp hx).imp_right And.left
  callees X x l' hl' := by
    rw [links?_withMethod]
    split_ifs with hXx
    · obtain ⟨rfl, rfl⟩ := hXx
      have hold : ss.HasMethod X x := by
        rw [HasMethod, hl']
        rfl
      obtain ⟨n, hn⟩ := hold.node
      refine h.imp (fun h => ⟨l, by rw [hn]; rfl, h l' hl'⟩) fun ⟨N, hN, hx⟩ => ?_
      exact ⟨N, hN, hasMethod_withMethod.mpr (.inl hx)⟩
    · exact .inl ⟨l', hl', rfl⟩
  sets _ _ hn := hn
  size := le_rfl
  orderly hss := by
    refine ⟨(keys_modify ss.nodes mod _).symm ▸ hss.nodes, fun X x l' hl' => ?_, fun X n' hn' => ?_⟩
    · rw [links?_withMethod] at hl'
      split_ifs at hl'
      · obtain ⟨_, -, rfl⟩ := map_eq_some_iff.mp hl'
        exact hl
      · exact hss.allocated X x l' hl'
    · rw [node?_adjustNode] at hn'
      split_ifs at hn'
      · obtain ⟨n, hn, rfl⟩ := map_eq_some_iff.mp hn'
        exact nodup_keys_set (hss.unique X n hn)
      · exact hss.unique X n' hn'
  entries _ _ he := he
  newEntries _ _ he := .inl he
  rows _ hk := .inl hk
  sources X n' hn' := by
    rw [node?_adjustNode] at hn'
    split_ifs at hn'
    · obtain ⟨n, hn, rfl⟩ := map_eq_some_iff.mp hn'
      exact .inl ⟨n, hn, rfl⟩
    · exact .inl ⟨n', hn', rfl⟩
  analyzed _ _ := analyzed_of_adjustNode fun _ _ hb => hb

lemma extends_ensureLinks (ss : Sinks) (mod method : String) :
    Extends (fun X x => X = mod ∧ x = method) (fun _ _ => False) ss
      (ss.ensureLinks mod method).1 := by
  unfold ensureLinks
  cases hl : ss.links? mod method with
  | some l => exact .refl ss
  | none =>
    have hnew : (ss.newLinks [] []).1.links? mod method = none := hl
    exact (settles_newLinks ss [] []).extends.trans (extends_withMethod
      (callees_newLinks_lt ss [] [])
      (.inl fun _ hl' => by rw [hnew] at hl'; cases hl'))

lemma extends_ensureSet (ss : Sinks) (mod method : String) (side : Links → SetId)
    (hf : ∀ s, ∀ n ∈ s, n ∈ f s) :
    Extends (fun X x => X = mod ∧ x = method) (fun _ _ => False) ss
      ((ss.ensureLinks mod method).1.adjustSet (side (ss.ensureLinks mod method).2) f) :=
  (extends_ensureLinks ss mod method).trans (settles_adjustSet _ _ hf).extends

lemma extends_addCallee (ss : Sinks) (mod method callee : String) :
    Extends (fun X x => X = mod ∧ x = method) (fun _ _ => False) ss
      ((ss.ensureLinks mod method).1.adjustSet (ss.ensureLinks mod method).2.callees
        fun s => s.insertEnd callee) :=
  extends_ensureSet ss mod method (·.callees) fun _ _ hn => List.mem_insertEnd_iff.mpr (.inr hn)

lemma links?_ensureLinks (hmod : (ss.node? mod).isSome) (method : String) :
    (ss.ensureLinks mod method).1.links? mod method = some (ss.ensureLinks mod method).2 := by
  unfold ensureLinks
  cases hl : ss.links? mod method with
  | some l => exact hl
  | none =>
    obtain ⟨n, hn⟩ := isSome_iff_exists.mp hmod
    have hn' : (ss.newLinks [] []).1.node? mod = some n := hn
    simp only [links?_withMethod, hn', and_self, if_true, map_some]

lemma mem_callees_ensureSet (hss : ss.Orderly) (hmod : (ss.node? mod).isSome) (method : String)
    (hf : ∀ s, n ∈ f s) :
    ∃ l, ((ss.ensureLinks mod method).1.adjustSet
      (ss.ensureLinks mod method).2.callees f).links? mod
      method = some l ∧ n ∈ ((ss.ensureLinks mod method).1.adjustSet
        (ss.ensureLinks mod method).2.callees f).setOf l.callees := by
  have hlinks := links?_ensureLinks hmod method
  have horder := (extends_ensureLinks ss mod method).orderly hss
  exact ⟨_, hlinks, Pool.mem_modify_self (horder.allocated mod method _ hlinks) hf⟩

/-! ### The register -/

lemma mem_entries_addPotentMethod {k e : String} :
    e ∈ (ss.addPotentMethod method mods).entries k ↔ e ∈ ss.entries k ∨ k = method ∧ e ∈ mods := by
  simp only [entries, addPotentMethod, Names.unionAt, getD_set]
  split_ifs with hk
  · rw [hk, Names.mem_union]
    simp
  · simp [hk]

lemma extends_addPotentMethod (ss : Sinks) (method : String) (hmods : mods ≠ []) :
    Extends (fun _ _ => False) (fun k e => k = method ∧ e ∈ mods) ss
      (ss.addPotentMethod method mods) :=
  { Extends.refl (T := fun _ _ => False) ss with
    orderly := fun hss => hss.of_eq rfl rfl
    entries := fun k e he => mem_entries_addPotentMethod.mpr (.inl he)
    newEntries := fun k e he => mem_entries_addPotentMethod.mp he
    rows := fun k hk => by
      by_cases hkm : k = method
      · obtain ⟨e, he⟩ := List.exists_mem_of_ne_nil _ hmods
        exact .inr ⟨e, mem_entries_addPotentMethod.mpr (.inr ⟨hkm, he⟩)⟩
      · left
        rw [contains_iff] at hk ⊢
        simpa [addPotentMethod, Names.unionAt, get?_set, hkm] using hk }

lemma extends_registerMethod (h : ss.HasMethod mod method) :
    Extends K (fun k e => e = mod ∧ ss.HasMethod mod k) ss (ss.addPotentMethod method [mod]) := by
  refine (extends_addPotentMethod ss method (List.cons_ne_nil _ _)).mono (fun _ _ => False.elim) ?_
  rintro k e ⟨rfl, he⟩
  exact ⟨List.mem_singleton.mp he, h⟩

/-! ### Blocks around a method -/

def Around (inner outer : String) : Prop := ∃ last, Text.cutLast? inner "." = some (outer, last)

lemma Around.length_lt (h : Around inner outer) : outer.length < inner.length := by
  obtain ⟨last, hcut⟩ := h
  exact length_of_cutLast? rfl hcut

/-- One step outward: the block `outer` leads to the sinks of `ns` too. -/
def spreadTo (mod ns outer last : String) (ss : Sinks) : Sinks :=
  match ss.links? mod ns with
  | none => ss
  | some l =>
    let (ss, around) := ss.ensureLinks mod outer
    let ss := ss.adjustSet around.callees fun s => s.insertEnd (mod ++ ":" ++ ns)
    let ss := ss.adjustSet l.callers fun s => s.insertEnd (mod ++ ":" ++ outer)
    let ss := ss.addPotentMethod outer [mod]
    if last.length > 9 then ss.addPotentMethod last [mod ++ "@" ++ ns] else ss

lemma spreadOutward_cut (h : cutLast? inner "." = some (outer, last)) (mod ns : String)
    (fuel : Nat) (ss : Sinks) :
    spreadOutward mod ns (fuel + 1) inner ss
      = spreadOutward mod ns fuel outer (spreadTo mod ns outer last ss) := by
  rw [spreadOutward, h]
  rfl

lemma spreadOutward_uncut (h : cutLast? inner "." = none) (mod ns : String) (fuel : Nat)
    (ss : Sinks) : spreadOutward mod ns fuel inner ss = ss := by
  cases fuel with
  | zero => rfl
  | succ fuel => rw [spreadOutward, h]

/-- The entries that a step outward from `ns` makes. -/
def OutwardEntry (mod ns : String) (ss : Sinks) (k e : String) : Prop :=
  e = mod ∧ ss.HasMethod mod k ∨ e = mod ++ "@" ++ ns ∧ '.' ∉ k.toList ∧ ss.HasMethod mod ns

lemma spreadTo_of_none (h : ¬ ss.HasMethod mod ns) (outer last : String) :
    spreadTo mod ns outer last ss = ss := by
  have hnone : ss.links? mod ns = none := by
    rwa [HasMethod, not_isSome_iff_eq_none] at h
  rw [spreadTo, hnone]

lemma OutwardEntry.mono {k e : String} (h : OutwardEntry mod ns ss k e)
    (hgrow : ∀ x, ss.HasMethod mod x → ss'.HasMethod mod x) : OutwardEntry mod ns ss' k e :=
  h.imp (fun ⟨he, hk⟩ => ⟨he, hgrow k hk⟩) fun ⟨he, hdot, hns⟩ => ⟨he, hdot, hgrow ns hns⟩

lemma extends_fullName (hlast : '.' ∉ last.toList) (hns : ss.HasMethod mod ns) :
    Extends K (OutwardEntry mod ns ss) ss
      (if last.length > 9 then ss.addPotentMethod last [mod ++ "@" ++ ns] else ss) := by
  split_ifs
  · refine (extends_addPotentMethod ss last (List.cons_ne_nil _ _)).mono (fun _ _ => False.elim) ?_
    rintro k e ⟨rfl, he⟩
    exact .inr ⟨List.mem_singleton.mp he, hlast, hns⟩
  · exact .refl ss

lemma extends_spreadTo (outer : String) (hlast : '.' ∉ last.toList) (hns : ss.HasMethod mod ns) :
    (spreadTo mod ns outer last ss).HasMethod mod outer ∧
      Extends (fun X x => X = mod ∧ x = outer) (OutwardEntry mod ns
        (spreadTo mod ns outer last ss)) ss
        (spreadTo mod ns outer last ss) := by
  obtain ⟨l, hl⟩ := isSome_iff_exists.mp hns
  obtain ⟨n, hn⟩ := hns.node
  have hlinks := extends_ensureLinks ss mod outer
  have houter : (ss.ensureLinks mod outer).1.HasMethod mod outer :=
    hasMethod_ensureLinks.mpr (.inr ⟨⟨rfl, rfl⟩, by rw [hn]; rfl⟩)
  unfold spreadTo
  rw [hl]
  dsimp only
  generalize ss.ensureLinks mod outer = made at hlinks houter
  obtain ⟨ss₁, around⟩ := made
  dsimp only at hlinks houter
  have hcallees := settles_insertSet ss₁ around.callees (mod ++ ":" ++ ns)
  generalize ss₁.adjustSet around.callees (fun s => s.insertEnd (mod ++ ":" ++ ns)) =
    ss₂ at hcallees
  have hcallers := settles_insertSet ss₂ l.callers (mod ++ ":" ++ outer)
  generalize ss₂.adjustSet l.callers (fun s => s.insertEnd (mod ++ ":" ++ outer)) = ss₃ at hcallers
  have houter₃ := hcallers.methods _ _ (hcallees.methods _ _ houter)
  have hns₃ := hcallers.methods _ _ (hcallees.methods _ _ (hlinks.methods _ _ hns))
  have hns₄ : (ss₃.addPotentMethod outer [mod]).HasMethod mod ns := hns₃
  have hfull := extends_fullName (K := fun X x => X = mod ∧ x = outer) hlast hns₄
  generalize (if last.length > 9 then (ss₃.addPotentMethod outer [mod]).addPotentMethod last
    [mod ++ "@" ++ ns] else ss₃.addPotentMethod outer [mod]) = ss₅ at hfull
  have hgrow (x : String) (hx : ss₃.HasMethod mod x) : ss₅.HasMethod mod x := hfull.methods _ _ hx
  refine ⟨hgrow _ houter₃, ?_⟩
  refine (hlinks.mono (fun _ _ => id) fun _ _ => False.elim).trans (hcallees.extends.trans
    (hcallers.extends.trans ?_))
  refine ((extends_registerMethod houter₃).mono (fun _ _ => id) ?_).trans
    (hfull.mono (fun _ _ => id) ?_)
  · exact fun k e ⟨he, hk⟩ => .inl ⟨he, hgrow k hk⟩
  · exact fun k e he => he.mono hgrow

lemma extends_spreadOutward (fuel : Nat) (inner : String)
    (hinner : Relation.ReflTransGen Around ns inner) (hns : ss.HasMethod mod ns) :
    Extends (fun X x => X = mod ∧ Relation.TransGen Around ns x)
      (OutwardEntry mod ns (spreadOutward mod ns fuel inner ss)) ss
      (spreadOutward mod ns fuel inner ss) := by
  induction fuel generalizing inner ss with
  | zero => exact .refl ss
  | succ fuel ih =>
    cases hcut : cutLast? inner "." with
    | none =>
      rw [spreadOutward_uncut hcut]
      exact .refl ss
    | some parts =>
      obtain ⟨outer, last⟩ := parts
      have haround : Around inner outer := ⟨last, hcut⟩
      rw [spreadOutward_cut hcut]
      obtain ⟨-, hstep⟩ := extends_spreadTo outer (cutLast?_eq_some rfl hcut).2 hns
      have hrest := ih outer (hinner.tail haround) (hstep.methods _ _ hns)
      refine (hstep.mono ?_ ?_).trans hrest
      · rintro X x ⟨rfl, rfl⟩
        exact ⟨rfl, .tail' hinner haround⟩
      · exact fun k e he => he.mono fun x hx => hrest.methods _ _ hx

lemma hasMethod_spreadOutward (hfuel : inner.length ≤ fuel)
    (hinner : Relation.ReflTransGen Around ns inner) (houter : Relation.TransGen Around inner outer)
    (hns : ss.HasMethod mod ns) : (spreadOutward mod ns fuel inner ss).HasMethod mod outer := by
  induction fuel generalizing inner ss with
  | zero =>
    obtain ⟨first, haround, -⟩ := Relation.TransGen.head'_iff.mp houter
    exact absurd haround.length_lt (by omega)
  | succ fuel ih =>
    obtain ⟨first, haround, hrest⟩ := Relation.TransGen.head'_iff.mp houter
    obtain ⟨last, hcut⟩ := haround
    have hlength := length_of_cutLast? rfl hcut
    obtain ⟨hfirst, hstep⟩ := extends_spreadTo first (cutLast?_eq_some rfl hcut).2 hns
    have hns' := hstep.methods _ _ hns
    have hinner' := hinner.tail ⟨last, hcut⟩
    rw [spreadOutward_cut hcut]
    rcases Relation.reflTransGen_iff_eq_or_transGen.mp hrest with rfl | hrest
    · exact (extends_spreadOutward fuel _ hinner' hns').methods _ _ hfirst
    · exact ih (by omega) hinner' hrest hns'

lemma spreadOutward_of_none (h : ¬ ss.HasMethod mod ns) (fuel : Nat) (inner : String) :
    spreadOutward mod ns fuel inner ss = ss := by
  induction fuel generalizing inner with
  | zero => rfl
  | succ fuel ih =>
    cases hcut : cutLast? inner "." with
    | none => exact spreadOutward_uncut hcut mod ns _ ss
    | some parts => rw [spreadOutward_cut hcut, spreadTo_of_none h, ih]

lemma hasMethod_of_spreadOutward {X x : String} (h : ss.HasMethod X x)
    (hinner : Relation.ReflTransGen Around ns inner) :
    (spreadOutward mod ns fuel inner ss).HasMethod X x := by
  by_cases hns : ss.HasMethod mod ns
  · exact (extends_spreadOutward fuel inner hinner hns).methods X x h
  · rwa [spreadOutward_of_none hns]

lemma analyzed_of_spreadOutward {X x : String}
    (h : (spreadOutward mod ns fuel inner ss).Analyzed X x)
    (hinner : Relation.ReflTransGen Around ns inner) : ss.Analyzed X x := by
  by_cases hns : ss.HasMethod mod ns
  · exact (extends_spreadOutward fuel inner hinner hns).analyzed X x h
  · rwa [spreadOutward_of_none hns] at h

/-! ### Callers within a module -/

section Callers

variable {callers : NameTable} {caller : String} {shared : Links}

/-- The methods of a module that its table of callers brings. -/
def NotedCaller (mod : String) (callers : NameTable) (X x : String) : Prop :=
  X = mod ∧ ∃ method, x ∈ callers.getD method []

/-- The entries that come with methods of the module. -/
abbrev MethodEntry (mod : String) (ss : Sinks) (k e : String) : Prop := e = mod ∧ ss.HasMethod mod k

lemma extends_shareLinks (method : String) (hshared : shared.callees < ss.pool.sets.length)
    (hmod : (ss.node? mod).isSome) :
    (shareLinks mod method shared ss).HasMethod mod method ∧
      Extends (fun X x => X = mod ∧ x = method) (fun _ _ => False) ss
        (shareLinks mod method shared ss) := by
  unfold shareLinks
  cases hl : ss.links? mod method with
  | some l => exact ⟨by rw [HasMethod, hl]; rfl, .refl ss⟩
  | none =>
    refine ⟨hasMethod_withMethod.mpr (.inr ⟨⟨rfl, rfl⟩, hmod⟩), extends_withMethod hshared ?_⟩
    exact .inl fun _ hl' => by rw [hl] at hl'; cases hl'

lemma settles_insertIn (side : Links → SetId) (mod method name : String) (ss : Sinks) :
    Settles ss (insertIn side mod method name ss) := by
  unfold insertIn
  split
  · exact settles_insertSet ss _ name
  · exact .refl ss

lemma settles_shareModules : Settles ss (shareModules mod method caller ss) := by
  refine settles_adjustNode ss mod fun n => ?_
  split
  · exact ⟨rfl, .inl rfl, rfl⟩
  · exact ⟨rfl, .inl rfl, rfl⟩

lemma extends_addCaller (hshared : shared.callees < ss.pool.sets.length)
    (hcaller : caller ∈ callers.getD method []) (hmod : (ss.node? mod).isSome) :
    Extends (NotedCaller mod callers) (MethodEntry mod (addCaller mod method shared ss caller)) ss
      (addCaller mod method shared ss caller) := by
  obtain ⟨hthere, hshare⟩ := extends_shareLinks caller hshared hmod
  have hcallees := settles_insertIn (·.callees) mod caller (mod ++ ":" ++ method)
    (shareLinks mod caller shared ss)
  have hregister := extends_registerMethod (K := NotedCaller mod callers)
    (hcallees.methods _ _ hthere)
  have hrest (ss : Sinks) : Settles ss (shareModules mod method caller
      (insertIn (·.callers) mod method (mod ++ ":" ++ caller) ss)) :=
    (settles_insertIn _ _ _ _ ss).trans settles_shareModules
  rw [addCaller]
  refine (hshare.mono ?_ fun _ _ => False.elim).trans (hcallees.extends.trans
    ((hregister.mono (fun _ _ => id) ?_).trans (hrest _).extends))
  · rintro X x ⟨rfl, rfl⟩
    exact ⟨rfl, method, hcaller⟩
  · exact fun k e ⟨he, hk⟩ => ⟨he, (hrest _).methods _ _ (hregister.methods _ _ hk)⟩

lemma extends_foldl {α : Type} {f : Sinks → α → Sinks} {as : List α}
    (h : ∀ ss', ss.pool.sets.length ≤ ss'.pool.sets.length → (ss'.node? mod).isSome →
      ∀ a ∈ as, Extends K (MethodEntry mod (f ss' a)) ss' (f ss' a))
    (hmod : (ss.node? mod).isSome) :
    Extends K (MethodEntry mod (as.foldl f ss)) ss (as.foldl f ss) := by
  induction as generalizing ss with
  | nil => exact .refl ss
  | cons a as ih =>
    have hfirst := h ss le_rfl hmod a List.mem_cons_self
    have hrest := ih (fun ss' hsize hmod b hb => h ss' (hfirst.size.trans hsize) hmod b
      (List.mem_cons_of_mem _ hb)) (hfirst.nodes mod hmod)
    refine (hfirst.mono (fun _ _ => id) ?_).trans hrest
    exact fun k e ⟨he, hk⟩ => ⟨he, hrest.methods _ _ hk⟩

lemma extends_addCallers (hmod : (ss.node? mod).isSome) :
    Extends (NotedCaller mod callers) (MethodEntry mod (addCallers mod callers ss method)) ss
      (addCallers mod callers ss method) := by
  unfold addCallers
  have hnew := settles_newLinks ss [] []
  have hshared := callees_newLinks_lt ss [] []
  generalize ss.newLinks [] [] = made at hnew hshared
  obtain ⟨ss₁, shared⟩ := made
  refine hnew.extends.trans (extends_foldl (fun _ hsize hmod _ hcaller => ?_) (hnew.nodes mod hmod))
  exact extends_addCaller (hshared.trans_le hsize) (List.mem_filter.mp hcaller).1 hmod

lemma extends_spreadRounds (seen : Names) (ss : Sinks) :
    Extends (NotedCaller mod callers) (MethodEntry mod (spreadRounds mod callers fuel seen ss)) ss
      (spreadRounds mod callers fuel seen ss) := by
  induction fuel generalizing seen ss with
  | zero => exact .refl ss
  | succ fuel ih =>
    unfold spreadRounds
    cases hn : ss.node? mod with
    | none => exact .refl ss
    | some n =>
      dsimp only
      split_ifs
      · exact .refl ss
      · have hmod : (ss.node? mod).isSome := by
          rw [hn]
          rfl
        have hround : Extends (NotedCaller mod callers) _ ss
            ((unseen n seen).foldl (addCallers mod callers) ss) :=
          extends_foldl (fun _ _ hmod _ _ => extends_addCallers hmod) hmod
        generalize List.foldl (addCallers mod callers) ss _ = ss₁ at hround
        have hmark : Settles ss₁ (markFollowed mod ss₁) :=
          settles_adjustNode ss₁ mod fun n => ⟨rfl, .inl rfl, rfl⟩
        generalize markFollowed mod ss₁ = ss₂ at hmark
        have hrest := ih (seen ++ unseen n seen) ss₂
        refine (hround.mono (fun _ _ => id) ?_).trans (hmark.extends.trans hrest)
        exact fun k e ⟨he, hk⟩ => ⟨he, hrest.methods _ _ (hmark.methods _ _ hk)⟩

lemma extends_spreadModule (ss : Sinks) (table : Callers) (mod : String) :
    Extends (fun X x => ∃ n, ss.node? mod = some n ∧ NotedCaller mod (table n.callers) X x)
      (MethodEntry mod (ss.spreadModule table mod)) ss (ss.spreadModule table mod) := by
  unfold spreadModule
  cases hn : ss.node? mod with
  | none => exact .refl ss
  | some n =>
    dsimp only
    split_ifs
    · exact .refl ss
    · exact (extends_spreadRounds _ ss).mono (fun X x hx => ⟨n, rfl, hx⟩) fun _ _ => id

end Callers

end Sinks

end SinkTrace
