import SinkTrace.Proofs.Walk.CallEdges

/-!
# Callees in a context

A method that is called on a receiver of a known class loses its callees of that class to the method
in the context of the call. The first of them goes over to `context:method`, but each further one to
a form with one context more, and only the last form is called from the current function. So a
single callee can still be reached. Of several, those before the last stand behind nodes that the
call does not lead to.
-/

namespace SinkTrace

open Text Relation Act

variable {k : Nat} {dst ns src : String}

namespace CallGraph

variable {g g' : CallGraph} {callee name : String}

/-- A name in a context, `n` times over. -/
def contextForm (ns name : String) : Nat → String
  | 0 => name
  | n + 1 => ns ++ ":" ++ contextForm ns name n

/-- The callees of a name that are of a class. In its own namespace a name is left as it is. -/
def splitOff (g : CallGraph) (ns cls name : String) : List String :=
  if ns = name then [] else (g.callees.getD name []).filter (Text.contains · cls)

lemma length_le_contextForm (ns name : String) (n : Nat) :
    n + name.length ≤ (contextForm ns name n).length := by
  induction n with
  | zero => simp [contextForm]
  | succ n ih =>
    have hcolon : ":".length = 1 := rfl
    simp only [contextForm, String.length_append, hcolon]
    omega

lemma contextForm_succ_ne (ns name : String) {n : Nat} : contextForm ns name (n + 1) ≠ name := by
  intro h
  have hlen := length_le_contextForm ns name (n + 1)
  rw [h] at hlen
  omega

lemma ne_contextForm (h : ns ≠ name) (n : Nat) : ns ≠ contextForm ns name n := by
  cases n with
  | zero => exact h
  | succ n =>
    intro heq
    have hlen := congrArg String.length heq
    have hcolon : ":".length = 1 := rfl
    simp only [contextForm, String.length_append, hcolon] at hlen
    omega

lemma contains_contextForm {n : Nat} : contains (contextForm ns name (n + 1)) ":" := by
  have hmem : ':' ∈ (contextForm ns name (n + 1)).toList := by simp [contextForm]
  unfold contains
  rw [Option.isSome_iff_ne_none]
  intro hnone
  obtain ⟨a, b, hab, ha⟩ := List.eq_append_cons_of_mem hmem
  rw [hab, show ":".toList = [':'] from rfl, cutChars?_append ha] at hnone
  cases hnone

/-! ### Edges that are moved -/

def Plain (g : CallGraph) : Prop := ∀ src, (g.callees.getD src []).Nodup

lemma Plain.node (h : Plain g) {module : Option String} : Plain (g.withNode name module) := by
  intro src
  simpa [withNode] using h src

lemma Plain.edge (h : Plain g) (hsrc : g.callees.contains src) : Plain (g.withEdge src dst) := by
  intro s
  unfold withEdge
  rw [Table.getD_modify_of_contains hsrc]
  split_ifs with hs hmem
  · exact h s
  · rw [List.contains_iff_mem] at hmem
    refine List.nodup_append.mpr ⟨h s, List.pairwise_singleton _ dst, ?_⟩
    rintro a ha b hb rfl
    exact hmem (List.mem_singleton.mp hb ▸ ha)
  · exact h s

lemma Plain.drop (h : Plain g) : Plain (g.dropCallee name callee) := by
  intro s
  unfold dropCallee
  rw [Table.getD_modify rfl]
  split_ifs
  · exact (h s).erase callee
  · exact h s

lemma Step.plain (h : Step g g') (hg : Plain g) : Plain g' := by
  cases h with
  | node module hname => exact hg.node
  | edge hsrc hdst => exact hg.edge hsrc
  | drop hspecial => exact hg.drop
  | call node line method => exact hg
  | statement node line text => exact hg

lemma Drawn.plain (h : Drawn {} g) : Plain g := by
  induction h with
  | refl => exact fun _ => List.nodup_nil
  | tail _ hlast ih => exact hlast.plain ih

lemma mem_callees_joined (g : CallGraph) (src dst s d : String) :
    d ∈ (g.joined src dst).callees.getD s [] ↔ d ∈ g.callees.getD s [] ∨ s = src ∧ d = dst := by
  rw [joined, mem_callees_withEdge (contains_callees_withNode (.inr ?_))]
  · simp [withNode]
  · exact contains_callees_withNode (.inl rfl)

lemma Plain.mem_callees_dropCallee_iff (h : Plain g) (name callee s d : String) :
    d ∈ (g.dropCallee name callee).callees.getD s [] ↔
      d ∈ g.callees.getD s [] ∧ ¬ (s = name ∧ d = callee) := by
  unfold dropCallee
  rw [Table.getD_modify rfl]
  split_ifs with hs
  · rw [(h s).mem_erase_iff]
    simp [hs, and_comm]
  · simp [hs]

/-- The graph after the callees `ds` of a name have gone over to forms of it. -/
def Moves (ns name : String) (k : Nat) (ds : List String) (g g' : CallGraph) : Prop :=
  ∀ src d, d ∈ g'.callees.getD src [] ↔ (d ∈ g.callees.getD src [] ∧ ¬ (src = name ∧ d ∈ ds)) ∨
      ∃ i, ds[i]? = some d ∧ src = contextForm ns name (k + i + 1)

lemma moves_nil : Moves ns name k [] g g := by simp [Moves]

lemma Moves.cons {ds : List String} {g'' : CallGraph} (hfirst : Moves ns name k [callee] g g')
    (hrest : Moves ns name (k + 1) ds g' g'') : Moves ns name k (callee :: ds) g g'' := by
  intro src d
  rw [hrest src d, hfirst src d]
  constructor
  · rintro (⟨⟨hd, hne⟩ | ⟨i, hi, hsrc⟩, hds⟩ | ⟨i, hi, hsrc⟩)
    · refine .inl ⟨hd, ?_⟩
      rintro ⟨hname, hmem⟩
      rcases List.mem_cons.mp hmem with rfl | hmem
      · exact hne ⟨hname, List.mem_singleton_self d⟩
      · exact hds ⟨hname, hmem⟩
    · cases i with
      | zero => exact .inr ⟨0, hi, hsrc⟩
      | succ i => simp at hi
    · exact .inr ⟨i + 1, hi, by rw [hsrc]; congr 1; omega⟩
  · rintro (⟨hd, hne⟩ | ⟨i, hi, hsrc⟩)
    · refine .inl ⟨.inl ⟨hd, fun h => hne ⟨h.1, ?_⟩⟩, fun h => hne ⟨h.1, ?_⟩⟩
      · exact List.mem_singleton.mp h.2 ▸ List.mem_cons_self
      · exact List.mem_cons_of_mem _ h.2
    · cases i with
      | zero =>
        refine .inl ⟨.inr ⟨0, hi, hsrc⟩, fun h => ?_⟩
        exact contextForm_succ_ne ns name (hsrc.symm.trans h.1)
      | succ i => exact .inr ⟨i, hi, by rw [hsrc]; congr 1; omega⟩

lemma Plain.moves (h : Plain g) (ns name callee : String) (k : Nat) :
    let g' := (g.joined (contextForm ns name (k + 1)) callee).dropCallee name callee
    Plain g' ∧ Moves ns name k [callee] g g' := by
  have hjoined : Plain (g.joined (contextForm ns name (k + 1)) callee) := by
    refine h.node.node.edge (contains_callees_withNode (.inr ?_))
    exact contains_callees_withNode (.inl rfl)
  refine ⟨hjoined.drop, fun _ d => ?_⟩
  rw [hjoined.mem_callees_dropCallee_iff, mem_callees_joined]
  constructor
  · rintro ⟨hd | ⟨hsrc, rfl⟩, hne⟩
    · exact .inl ⟨hd, by simpa using hne⟩
    · exact .inr ⟨0, rfl, hsrc⟩
  · rintro (⟨hd, hne⟩ | ⟨i, hi, hsrc⟩)
    · exact ⟨.inl hd, by simpa using hne⟩
    · cases i with
      | zero =>
        cases hi
        exact ⟨.inr ⟨hsrc, rfl⟩, fun h => contextForm_succ_ne ns name (hsrc.symm.trans h.1)⟩
      | succ i => simp at hi

end CallGraph

namespace CallEdges

open Walk CallGraph

variable {v : CallView} {cls form name target : String} {α : Type} {s s' : Walk CallEdges}
  {a : Draw α}
  {names : List String}

/-- The special form of a method that is called like its owner's class, but is not on it, is left
out. -/
def CallView.leavesOut (v : CallView) (name : String) : Bool :=
  match given? v.owner with
  | some o => !v.receiver.classes.isEmpty && !Text.contains name ("." ++ o) &&
      Text.contains (v.receiver.cls.getD "") o
  | none => false

/-! ### What a called name takes away -/

/-- All nodes but those with `P` keep their callees. -/
def Retains (P : String → Prop) (s s' : Walk CallEdges) : Prop :=
  ∀ src, ¬ P src → ∀ d ∈ s.world.graph.callees.getD src [], d ∈ s'.world.graph.callees.getD src []

variable {P : String → Prop}

lemma Retains.trans {t u : Walk CallEdges} (hst : Retains P s t) (htu : Retains P t u) :
    Retains P s u :=
  fun src hsrc d hd => htu src hsrc d (hst src hsrc d hd)

lemma Retains.of_leads (h : Leads (Retains P) a) {r : Except Fault α} (hrun : a s = (r, s')) :
    Retains P s s' := by
  have hs := h.run (fun _ _ _ _ hd => hd) (fun _ _ _ => Retains.trans) s
  rwa [hrun] at hs

lemma retains_of_graph (h : ∀ s, (a s).2.world.graph = s.world.graph) : Leads (Retains P) a :=
  fun s => .single fun _ _ d _ => by rwa [h s]

lemma retains_addEdge : Leads (Retains P) (onGraph (addEdge src dst)) := by
  refine fun s => .single fun x _ d hd => ?_
  show d ∈ (addEdge src dst s.world.graph).2.callees.getD x []
  rcases addEdge_cases src dst s.world.graph with ⟨e, h⟩ | ⟨e, -, h⟩ | ⟨-, -, h⟩ <;> rw [h]
  · exact hd
  · simpa [withNode] using hd
  · exact (mem_callees_joined ..).mpr (.inl hd)

lemma retains_edgeTo (target : String) : Leads (Retains P) (edgeTo target) :=
  reads_currentMethod.next fun _ => retains_addEdge

lemma retains_callTo (line : Nat) (method : String) : Leads (Retains P) (callTo line method) := by
  refine Leads.bind (reads_currentNs.next fun _ s => ?_) fun _ => retains_edgeTo method
  exact .single fun _ _ d hd => hd

lemma retains_callOutside (line : Nat) (callee module : String) :
    Leads (Retains P) (callOutside line callee module) := by
  refine Leads.bind (retains_of_graph fun s => ?_) fun _ => Leads.bind (fun s => ?_) fun _ =>
    .or_pure (retains_callTo line callee)
  · unfold noteOutside
    simp only [getWorld, run_bind, run_get, run_pure, run_ite]
    split_ifs <;> rfl
  · refine .single fun src _ d hd => ?_
    show d ∈ (addNode callee (some module) s.world.graph).2.callees.getD src []
    rw [addNode_eq]
    split_ifs
    · exact hd
    · simpa [withNode] using hd

lemma retains_specialize : Leads (Retains (· = name)) (specialize cls name) := by
  refine reads_currentNs.next fun _ => reads_getWorld.next fun w => ?_
  refine .foldlM (fun _ _ _ => .ite (Leads.bind ?_ fun _ => .pure) .pure) name
  refine retains_addEdge.bind fun _ s => .single fun _ hsrc d hd => ?_
  exact mem_callees_dropCallee_of_ne s.world.graph (.inl hsrc) hd

lemma retains_nameOn? : Leads (Retains (· = name)) (nameOn? v name) := by
  unfold nameOn?
  split
  · exact .pure
  · refine reads_inheritance.next fun g => .pure_or ?_
    refine reads_currentNs.next fun _ => (retains_of_graph fun _ => rfl).bind fun _ => ?_
    exact retains_specialize.bind_pure

lemma run_meetsOwner (v : CallView) (special : String) (s : Walk CallEdges) :
    ∃ sinks, meetsOwner v special s =
      (.ok (!v.leavesOut special), { s with world := { s.world with sinks } }) := by
  cases howner : given? v.owner with
  | none => exact ⟨s.world.sinks, by simp [meetsOwner, CallView.leavesOut, howner]⟩
  | some o =>
    cases hclasses : v.receiver.classes.isEmpty with
    | true => exact ⟨s.world.sinks, by simp [meetsOwner, CallView.leavesOut, howner, hclasses]⟩
    | false =>
      simp only [meetsOwner, CallView.leavesOut, howner, hclasses, Bool.not_false]
      cases contains special ("." ++ o) with
      | true => exact ⟨_, rfl⟩
      | false => cases contains (v.receiver.cls.getD "") o <;> exact ⟨s.world.sinks, rfl⟩

lemma retains_callForm : Leads (Retains P) (callForm v form) := by
  refine Leads.bind (retains_of_graph fun s => ?_) fun b => .pure_or ?_
  · obtain ⟨sinks, h⟩ := run_meetsOwner v form s
    rw [h]
  · refine reads_getWorld.next fun w => .when (retains_callTo _ _) ?_
    split
    · exact .or_pure (retains_edgeTo _)
    · exact leads_callDefined retains_callOutside retains_callTo retains_edgeTo

lemma exists_of_callName (hrun : callName v name s = (.ok (), s')) :
    ∃ r t, nameOn? v name s = (.ok r, t) ∧
      ((r = none ∧ s' = t) ∨ ∃ form, r = some form ∧ callForm v form t = (.ok (), s')) := by
  obtain ⟨r, t, hname, hrest⟩ := of_bind hrun
  refine ⟨r, t, hname, ?_⟩
  cases r with
  | none =>
    cases hrest
    exact .inl ⟨rfl, rfl⟩
  | some form => exact .inr ⟨form, rfl, hrest⟩

lemma Retains.of_callName (hrun : callName v name s = (.ok (), s')) : Retains (· = name) s s' := by
  obtain ⟨r, t, hname, ⟨-, rfl⟩ | ⟨form, -, hform⟩⟩ := exists_of_callName hrun
  · exact .of_leads retains_nameOn? hname
  · exact .trans (.of_leads retains_nameOn? hname) (.of_leads retains_callForm hform)

lemma retains_callNames (hrun : names.forM (callName v) s = (.ok (), s')) :
    Retains (· ∈ names) s s' := by
  induction names generalizing s with
  | nil =>
    cases hrun
    exact fun _ _ _ hd => hd
  | cons name names ih =>
    obtain ⟨_, t, hfirst, hrest⟩ := of_bind hrun
    intro src hsrc d hd
    obtain ⟨hname, hnames⟩ := not_or.mp (mt List.mem_cons.mpr hsrc)
    exact ih hrest src hnames d (Retains.of_callName hfirst src hname d hd)

/-! ### What a called name adds -/

abbrev here (s : Walk CallEdges) : String := Text.dotted s.frame.names

abbrev caller (s : Walk CallEdges) : String := Text.dotted s.frame.methods

/-- The callees that a name loses when it is called here on a receiver of a class. -/
abbrev lost (s : Walk CallEdges) (cls name : String) : List String :=
  s.world.graph.splitOff (here s) cls name

abbrev special (s : Walk CallEdges) (cls name : String) : String :=
  contextForm (here s) name (lost s cls name).length

/-- The place in the program and the definitions are the same. -/
structure Beside (s s' : Walk CallEdges) : Prop where
  frame : s'.frame = s.frame
  defs : s'.world.defs = s.world.defs

lemma Beside.trans {t u : Walk CallEdges} (hst : Beside s t) (htu : Beside t u) : Beside s u :=
  ⟨htu.frame.trans hst.frame, htu.defs.trans hst.defs⟩

lemma Beside.caller (h : Beside s s') : CallEdges.caller s' = CallEdges.caller s := by
  rw [CallEdges.caller, h.frame]

lemma run_onGraph (a : Act CallGraph α) (s : Walk CallEdges) : onGraph a s = ((a s.world.graph).1,
      { s with world := { s.world with graph := (a s.world.graph).2 } }) := rfl

lemma run_of_addEdge (hrun : onGraph (addEdge src dst) s = (.ok (), s')) :
    Beside s s' ∧ s'.world.graph = s.world.graph.joined src dst := by
  rw [run_onGraph] at hrun
  rcases addEdge_cases src dst s.world.graph with ⟨e, h⟩ | ⟨e, -, h⟩ | ⟨-, -, h⟩ <;>
    rw [h] at hrun <;> cases hrun
  exact ⟨⟨rfl, rfl⟩, rfl⟩

lemma run_of_edgeTo (hrun : edgeTo target s = (.ok (), s')) :
    Beside s s' ∧ ∀ src d, d ∈ s'.world.graph.callees.getD src [] ↔
      d ∈ s.world.graph.callees.getD src [] ∨ src = caller s ∧ d = target := by
  obtain ⟨hbeside, hgraph⟩ := run_of_addEdge (show onGraph _ s = _ from hrun)
  exact ⟨hbeside, fun _ d => hgraph ▸ mem_callees_joined ..⟩

lemma run_of_callTo {line : Nat} (hrun : callTo line target s = (.ok (), s')) :
    Beside s s' ∧ ∀ src d, d ∈ s'.world.graph.callees.getD src [] ↔
      d ∈ s.world.graph.callees.getD src [] ∨ src = caller s ∧ d = target := by
  obtain ⟨_, _, hat, hedge⟩ := of_bind hrun
  cases hat
  obtain ⟨hbeside, hedges⟩ := run_of_edgeTo hedge
  exact ⟨⟨hbeside.frame, hbeside.defs⟩, hedges⟩

lemma run_of_moveCallee {callee : String} (hplain : Plain s.world.graph)
    (hrun : moveCallee (contextForm ns name (k + 1)) name callee s = (.ok (), s')) :
    Beside s s' ∧ Plain s'.world.graph ∧ Moves ns name k [callee] s.world.graph s'.world.graph := by
  obtain ⟨_, t, hadd, hdrop⟩ := of_bind hrun
  obtain ⟨hbeside, hgraph⟩ := run_of_addEdge hadd
  cases hdrop
  refine ⟨⟨hbeside.frame, hbeside.defs⟩, ?_⟩
  have hmoves := hplain.moves ns name callee k
  rwa [← hgraph] at hmoves

lemma run_of_splitSteps {special : String} {callees : List String} (hns : ns ≠ name)
    (hplain : Plain s.world.graph)
    (hrun : callees.foldlM (splitStep ns cls name) (contextForm ns name k) s = (.ok special, s')) :
    let ds := callees.filter (contains · cls)
    special = contextForm ns name (k + ds.length) ∧ Beside s s' ∧
      Moves ns name k ds s.world.graph s'.world.graph := by
  induction callees generalizing k s with
  | nil =>
    cases hrun
    exact ⟨rfl, ⟨rfl, rfl⟩, moves_nil⟩
  | cons callee callees ih =>
    rw [List.foldlM_cons] at hrun
    obtain ⟨next, t, hstep, hrest⟩ := of_bind hrun
    unfold splitStep at hstep
    by_cases hcls : contains callee cls
    · rw [if_pos (by simp [hcls, ne_contextForm hns k])] at hstep
      obtain ⟨_, _, hmove, hnext⟩ := of_bind hstep
      cases hnext
      obtain ⟨hbeside, hplain', hfirst⟩ := run_of_moveCallee hplain hmove
      obtain ⟨hspecial, hbeside', hmoves⟩ := ih (k := k + 1) hplain' hrest
      rw [List.filter_cons_of_pos (p := (contains · cls)) hcls]
      refine ⟨?_, hbeside.trans hbeside', hfirst.cons hmoves⟩
      rw [hspecial, List.length_cons, Nat.add_assoc, Nat.add_comm 1]
    · rw [if_neg (by simp [hcls])] at hstep
      cases hstep
      rw [List.filter_cons_of_neg (p := (contains · cls)) hcls]
      exact ih hplain hrest

lemma run_splitSteps_self (cls name : String) (callees : List String) (s : Walk CallEdges) :
    callees.foldlM (splitStep name cls name) name s = (.ok name, s) := by
  induction callees with
  | nil => rfl
  | cons callee callees ih =>
    rw [List.foldlM_cons, run_bind]
    simpa [splitStep] using ih

lemma run_of_specialize {called : String} (hplain : Plain s.world.graph)
    (hrun : specialize cls name s = (.ok called, s')) :
    called = special s cls name ∧ Beside s s' ∧
      Moves (here s) name 0 (lost s cls name) s.world.graph s'.world.graph := by
  have hrun : (s.world.graph.callees.getD name []).foldlM (splitStep (here s) cls name) name s
    = (.ok called, s') := hrun
  unfold special lost splitOff
  by_cases hns : here s = name
  · rw [hns, run_splitSteps_self] at hrun
    cases hrun
    simp only [hns, if_true]
    exact ⟨rfl, ⟨rfl, rfl⟩, moves_nil⟩
  · have hsteps := run_of_splitSteps (k := 0) hns hplain hrun
    simpa only [hns, if_false, Nat.zero_add] using hsteps

lemma run_of_nameOn? {r : Option String} (hcls : v.receiver.cls = some cls)
    (hplain : Plain s.world.graph)
    (hasked : v.excludes s.world.sinks.hierarchy cls (parent name) = false)
    (hrun : nameOn? v name s = (.ok r, s')) :
    r = some (special s cls name) ∧ Beside s s' ∧
      Moves (here s) name 0 (lost s cls name) s.world.graph s'.world.graph := by
  simp only [nameOn?, hcls] at hrun
  obtain ⟨_, _, hread, hrun⟩ := of_bind hrun
  cases hread
  rw [if_neg (by simpa using hasked)] at hrun
  obtain ⟨_, _, hread, hrun⟩ := of_bind hrun
  cases hread
  obtain ⟨_, t, hset, hrun⟩ := of_bind hrun
  cases hset
  obtain ⟨special, _, hspecial, hrun⟩ := of_bind hrun
  cases hrun
  obtain ⟨hname, hbeside, hmoves⟩ := run_of_specialize (by exact hplain) hspecial
  exact ⟨congrArg some hname, ⟨hbeside.frame, hbeside.defs⟩, hmoves⟩

lemma mem_callees_callForm (hcolon : contains form ":")
    (hdef : s.world.defs.get? form = none) (hrun : callForm v form s = (.ok (), s'))
    (src d : String) :
    d ∈ s'.world.graph.callees.getD src [] ↔ d ∈ s.world.graph.callees.getD src [] ∨
      v.leavesOut form = false ∧ src = caller s ∧ d = form := by
  obtain ⟨b, t, howner, hrun⟩ := of_bind hrun
  obtain ⟨sinks, hmeets⟩ := run_meetsOwner v form s
  cases hmeets.symm.trans howner
  cases hout : v.leavesOut form with
  | true =>
    rw [if_pos (by simpa using hout)] at hrun
    cases hrun
    simp
  | false =>
    rw [if_neg (by simpa using hout)] at hrun
    obtain ⟨_, _, hread, hrun⟩ := of_bind hrun
    cases hread
    simp only [hdef, hcolon, if_true] at hrun
    simp only [true_and]
    split_ifs at hrun
    · -- A sink gets the same edge twice.
      obtain ⟨_, t, hcall, hedge⟩ := of_bind hrun
      obtain ⟨hbeside, hfirst⟩ := run_of_callTo hcall
      rw [(run_of_edgeTo hedge).2, hfirst, hbeside.caller, or_assoc, or_self]
    · exact (run_of_edgeTo hrun).2 src d

/-- What becomes of the edges of a name where callees are split off: they go over to forms of it. -/
def CallView.Splits (v : CallView) (cls name : String) (s s' : Walk CallEdges) : Prop :=
  ∀ src d, d ∈ s'.world.graph.callees.getD src [] ↔
    ((d ∈ s.world.graph.callees.getD src [] ∧ ¬ (src = name ∧ d ∈ lost s cls name)) ∨
      ∃ i, (lost s cls name)[i]? = some d ∧ src = contextForm (here s) name (i + 1)) ∨
    v.leavesOut (special s cls name) = false ∧ src = caller s ∧ d = special s cls name

lemma splits_callName (hcls : v.receiver.cls = some cls) (hplain : Plain s.world.graph)
    (hasked : v.excludes s.world.sinks.hierarchy cls (parent name) = false)
    (hlost : lost s cls name ≠ []) (hdef : s.world.defs.get? (special s cls name) = none)
    (hrun : callName v name s = (.ok (), s')) : v.Splits cls name s s' := by
  obtain ⟨r, t, hname, hrun⟩ := exists_of_callName hrun
  obtain ⟨rfl, hbeside, hmoves⟩ := run_of_nameOn? hcls hplain hasked hname
  obtain ⟨hnone, -⟩ | ⟨form, hform, hrun⟩ := hrun
  · cases hnone
  cases hform
  obtain ⟨n, hn⟩ := Nat.exists_eq_succ_of_ne_zero (mt List.length_eq_zero_iff.mp hlost)
  have hcolon : contains (special s cls name) ":" := by
    rw [special, hn]
    exact contains_contextForm
  intro src d
  rw [mem_callees_callForm hcolon (hbeside.defs ▸ hdef) hrun, hmoves src d, hbeside.caller]
  simp only [Nat.zero_add]

lemma mem_callees_of_callName (hcls : v.receiver.cls = some cls) (hplain : Plain s.world.graph)
    (hasked : v.excludes s.world.sinks.hierarchy cls (parent name) = false)
    (hrun : callName v name s = (.ok (), s')) {d : String}
    (hd : d ∈ s.world.graph.callees.getD src []) :
    d ∈ s'.world.graph.callees.getD src [] ∨ src = name ∧ d ∈ lost s cls name := by
  by_cases hmoved : src = name ∧ d ∈ lost s cls name
  · exact .inr hmoved
  obtain ⟨r, t, hname, hrun⟩ := exists_of_callName hrun
  obtain ⟨rfl, -, hmoves⟩ := run_of_nameOn? hcls hplain hasked hname
  obtain ⟨hnone, -⟩ | ⟨form, -, hrun⟩ := hrun
  · cases hnone
  · have hkeeps := Retains.of_leads (retains_callForm (P := fun _ => False)) hrun
    exact .inl (hkeeps src not_false d ((hmoves src d).mpr (.inl ⟨hd, hmoved⟩)))

lemma run_callName_excluded (hcls : v.receiver.cls = some cls)
    (hexcluded : v.excludes s.world.sinks.hierarchy cls (parent name)) :
    callName v name s = (.ok (), s) := by
  have hname : nameOn? v name s = (.ok none, s) := by
    simp only [nameOn?, hcls]
    exact congrFun (if_pos hexcluded) s
  rw [callName, run_bind, hname]
  rfl

lemma drawn_callNames (hrun : names.forM (callName v) s = (.ok (), s')) :
    Drawn s.world.graph s'.world.graph := by
  have hdrawing : Drawing (names.forM (callName v)) := .forM fun _ _ => drawing_callName
  have hgraph : Leads (fun s s' : Walk CallEdges => Drawn s.world.graph s'.world.graph)
      (names.forM (callName v)) := hdrawing.mono fun _ _ h => h.world.graph
  have hsteps := hgraph.run (fun _ => .refl) (fun _ _ _ => .trans) s
  rwa [hrun] at hsteps

/-- A name of a call may lose callees of the class of the receiver. They go over to forms of the
name and the last form is called, and no edge is lost or new besides. So what goes over can be
reached through `context:name`, if it is a single callee. -/
theorem callees_in_context {v : CallView} {cls name : String} {pre post : List String}
    {s s' : Walk CallEdges} (hcls : v.receiver.cls = some cls) (hdrawn : Drawn {} s.world.graph)
    (hrun : (pre ++ name :: post).forM (callName v) s = (.ok (), s')) :
    ∃ t t', pre.forM (callName v) s = (.ok (), t) ∧ callName v name t = (.ok (), t') ∧
      (v.excludes t.world.sinks.hierarchy cls (Text.parent name) = true → t' = t) ∧
      (v.excludes t.world.sinks.hierarchy cls (Text.parent name) = false →
        (∀ src, ∀ d ∈ t.world.graph.callees.getD src [],
          d ∈ t'.world.graph.callees.getD src [] ∨ src = name ∧ d ∈ lost t cls name) ∧
        (lost t cls name ≠ [] → t.world.defs.get? (special t cls name) = none →
          v.Splits cls name t t' ∧
          (∀ i d, (lost t cls name)[i]? = some d → contextForm (here t) name (i + 1) ∉ post →
            d ∈ s'.world.graph.callees.getD (contextForm (here t) name (i + 1)) []) ∧
          (v.leavesOut (special t cls name) = false → caller t ∉ post →
            special t cls name ∈ s'.world.graph.callees.getD (caller t) []))) := by
  obtain ⟨t, hpre, hrun⟩ := exists_of_forM_append hrun
  obtain ⟨_, t', hname, hpost⟩ := of_bind hrun
  have hplain := Drawn.plain (hdrawn.trans (drawn_callNames hpre))
  have hkept := retains_callNames hpost
  refine ⟨t, t', hpre, hname, fun hexcluded => ?_, fun hasked => ⟨fun _ d hd => ?_, ?_⟩⟩
  · rw [run_callName_excluded hcls hexcluded] at hname
    cases hname
    rfl
  · exact mem_callees_of_callName hcls hplain hasked hname hd
  · intro hlost hdef
    have hsplits := splits_callName hcls hplain hasked hlost hdef hname
    refine ⟨hsplits, fun i d hd hform => ?_, fun hout hcaller => ?_⟩
    · exact hkept _ hform d ((hsplits _ d).mpr (.inl (.inr ⟨i, hd, rfl⟩)))
    · exact hkept _ hcaller _ ((hsplits _ _).mpr (.inr ⟨hout, rfl, rfl⟩))

def forked : Act CallGraph Unit := do
  addEdge "m.A.run" "m.A.go"
  addEdge "m.A.run" "m.A.fly"

def forkedCall : Walk CallEdges where
  world := { files := ⟨{}⟩, graph := (forked {}).2 }
  frame := { file := "m.py", module := "m", names := ["m"], methods := ["m"] }
  own := {}

def forkedView : CallView where
  line := 1
  receiver := { cls := some "m.A" }
  owner := none
  hasMethod := true
  cls := "m"

lemma forkedCall_spec :
    (["m.A.run", "m.A.go"].forM (callName forkedView) forkedCall).1.toOption = some () ∧
      forkedView.excludes forkedCall.world.sinks.hierarchy "m.A" (parent "m.A.run") = false ∧
      lost forkedCall "m.A" "m.A.run" = ["m.A.go", "m.A.fly"] ∧
      forkedView.leavesOut (special forkedCall "m.A" "m.A.run") = false := by decide

theorem callees_in_context_forked :
    Drawn {} forkedCall.world.graph ∧ lost forkedCall "m.A" "m.A.run" = ["m.A.go", "m.A.fly"] ∧
    ∃ s', ["m.A.run", "m.A.go"].forM (callName forkedView) forkedCall = (.ok (), s') ∧
      "m.A.go" ∈ s'.world.graph.callees.getD "m:m.A.run" [] ∧
      "m.A.fly" ∈ s'.world.graph.callees.getD "m:m:m.A.run" [] ∧
      "m:m:m.A.run" ∈ s'.world.graph.callees.getD "m" [] := by
  obtain ⟨hok, hasked, hlost, hout⟩ := forkedCall_spec
  have hdrawn : Drawn {} forkedCall.world.graph :=
    ((leads_addEdge "m.A.run" "m.A.go").bind fun _ => leads_addEdge "m.A.run" "m.A.fly") {}
  refine ⟨hdrawn, hlost, _, eq_of_toOption hok, ?_⟩
  have hrun : ([] ++ "m.A.run" :: ["m.A.go"]).forM (callName forkedView) forkedCall = (.ok (), _) :=
    eq_of_toOption hok
  obtain ⟨t, t', hpre, -, -, hsplit⟩ := callees_in_context rfl hdrawn hrun
  cases hpre
  obtain ⟨-, hforms, hcalled⟩ := (hsplit hasked).2 (by rw [hlost]; exact List.cons_ne_nil _ _) rfl
  refine ⟨hforms 0 _ (by rw [hlost]; rfl) (by decide), hforms 1 _ (by rw [hlost]; rfl)
    (by decide), ?_⟩
  have hspecial : special forkedCall "m.A" "m.A.run" = "m:m:m.A.run" := by rw [special, hlost]; rfl
  exact hspecial ▸ hcalled hout (by decide)

def threeMethods : World :=
  let text := "class A:\n def go():\n  pass\n def fly():\n  pass\n" ++
    " def run():\n  A.go()\n  A.fly()\nA.run()\n"
  let users := ["A.go", "A.fly", "A.run"]
  { twoCalls with
    files := ⟨Table.ofList [("m.py", text.toList.map (·.toNat.toUInt8))]⟩
    sinks :=
      { nodes := Table.ofList [("m", { methodUsers := Table.ofList (users.map (·, ⟨0, 0⟩)) })] }
    defs :=
      { twoCalls.defs with
        current := twoCalls.defs.current.set "m.A.fly"
          { ns := "m.A.fly", kind := .function, module := some "m" } }
    modules :=
      { inner := Table.ofList
          [("m", { name := "m", filename := some "m.py", members := users })] } }

def threeMethodsPass : Except Fault Unit × World :=
  Analysis.passOver false {} (analyze 2) (·.sources) 2 0 [] threeMethods

lemma threeMethodsPass_spec : threeMethodsPass.1.toOption = some () ∧
      threeMethodsPass.2.graph.callees.getD "m.A.run" [] = [] ∧
      threeMethodsPass.2.graph.callees.getD "m:m.A.run" [] = ["m.A.go"] ∧
      ∀ e ∈ threeMethodsPass.2.graph.edges, e.2 ≠ "m:m.A.run" := by decide +kernel

/-- The callee `go` goes over to `m:m.A.run`, but the other one to a further form, and only that is
called. -/
theorem callee_out_of_reach :
    ∃ w, Analysis.passOver false {} (analyze 2) (·.sources) 2 0 [] threeMethods = (.ok (), w) ∧
      w.graph.callees.getD "m.A.run" [] = [] ∧
      w.graph.callees.getD "m:m.A.run" [] = ["m.A.go"] ∧
      ∀ e ∈ w.graph.edges, e.2 ≠ "m:m.A.run" := by
  obtain ⟨hok, hgone, hmoved, hcalled⟩ := threeMethodsPass_spec
  exact ⟨threeMethodsPass.2, eq_of_toOption hok, hgone, hmoved, hcalled⟩

end CallEdges

end SinkTrace
