import Mathlib.Data.List.Chain
import SinkTrace.Proofs.Act
import SinkTrace.Proofs.Graph.Inheritance
import SinkTrace.Route.Search

/-!
# The routes that are found

A search that starts at a node of a closed graph ends, and what it finds are routes: chains of
callers without a repetition that end where they cannot be continued. The inheritance rules only
leave out some of them. Where no class inherits from another one they leave out nothing, and every
route that does not go through a node to be avoided is found.
-/

namespace SinkTrace

open Table Act List

def RouteMap.Closed (m : RouteMap) : Prop :=
  ∀ node cs, m.graph.callers.get? node = some cs → ∀ c ∈ cs, m.graph.callers.contains c = true

/-- A chain of callers of `sink` without a repetition that cannot go on. -/
structure IsRoute (m : RouteMap) (sink : String) (r : List String) : Prop where
  head : r.head? = some sink
  nodup : r.Nodup
  chain : r.IsChain fun a b => b ∈ m.graph.callers.getD a []
  last : ∃ l cs, r.getLast? = some l ∧ m.graph.callers.get? l = some cs ∧
    (cs = [] ∨ ∃ c ∈ cs, c ∈ r)

namespace RouteSearch

variable {m : RouteMap} {sink : String} {h : Inheritance} {path r rest : List String} {cs : Names}
  {s t u : RouteSearch} {cls node : String} {fuel n : Nat}

/-! ### Routes on their way -/

/-- The nodes from the latest one back to the sink. -/
structure OnWay (m : RouteMap) (sink : String) (path : List String) : Prop where
  nodup : path.Nodup
  nodes : ∀ n ∈ path, m.graph.callers.contains n = true
  chain : path.IsChain fun b a => b ∈ m.graph.callers.getD a []
  start : ∀ n, path.getLast? = some n → n = sink

/-- The node can be looked at after `path`. -/
def Next (m : RouteMap) (sink : String) : List String → String → Prop
  | [], node => node = sink
  | latest :: _, node => node ∈ m.graph.callers.getD latest []

lemma next_caller {c : String} (hcs : m.graph.callers.get? node = some cs) (hc : c ∈ cs) :
    Next m sink (node :: rest) c := by
  show c ∈ m.graph.callers.getD node []
  rwa [getD_of_get? hcs]

lemma onWay_nil : OnWay m sink [] := ⟨nodup_nil, nofun, .nil, nofun⟩

lemma OnWay.cons (h : OnWay m sink path) (hnext : Next m sink path node)
    (hnode : m.graph.callers.contains node) (hnot : node ∉ path) :
    OnWay m sink (node :: path) where
  nodup := nodup_cons.mpr ⟨hnot, h.nodup⟩
  nodes := forall_mem_cons.mpr ⟨hnode, h.nodes⟩
  chain := by
    cases path with
    | nil => exact .singleton node
    | cons latest rest => exact .cons_cons hnext h.chain
  start := by
    cases path with
    | nil =>
      rintro n ⟨⟩
      exact hnext
    | cons latest rest =>
      intro n hn
      rw [getLast?_cons_cons] at hn
      exact h.start n hn

lemma OnWay.length_le (h : OnWay m sink path) : path.length ≤ m.graph.callers.size :=
  length_le_size h.nodup h.nodes

lemma OnWay.isRoute {latest : String} (h : OnWay m sink (latest :: rest))
    (hcs : m.graph.callers.get? latest = some cs) (hend : cs = [] ∨ ∃ c ∈ cs, c ∈ latest :: rest) :
    IsRoute m sink (latest :: rest).reverse where
  head := by
    rw [head?_reverse]
    have hne : latest :: rest ≠ [] := cons_ne_nil _ _
    rw [getLast?_eq_some_getLast hne]
    exact congrArg some (h.start _ (getLast?_eq_some_getLast hne))
  nodup := nodup_reverse.mpr h.nodup
  chain := isChain_reverse.mpr h.chain
  last := by
    refine ⟨latest, cs, getLast?_reverse.trans rfl, hcs, hend.imp_right ?_⟩
    rintro ⟨c, hc, hmem⟩
    exact ⟨c, hc, mem_reverse.mpr hmem⟩

lemma OnWay.isRoute_of_mem (h : OnWay m sink path) (hnext : Next m sink path node)
    (hmem : node ∈ path) :
    IsRoute m sink path.reverse := by
  cases path with
  | nil => cases hmem
  | cons latest rest =>
    obtain ⟨cs, hcs⟩ := contains_iff.mp (h.nodes latest mem_cons_self)
    have hcall : node ∈ m.graph.callers.getD latest [] := hnext
    rw [getD_of_get? hcs] at hcall
    exact h.isRoute hcs (.inr ⟨node, hcall, hmem⟩)

/-- The route goes on with `node` after `path`, or it is `path` and `node` is on it already. -/
def Continues (path : List String) (node : String) (r : List String) : Prop :=
  node ∈ path ∧ r = path.reverse ∨ (node :: path).reverse <+: r

lemma continues_of_isRoute (h : IsRoute m sink r) (hr : (node :: path).reverse <+: r)
    (hcs : m.graph.callers.get? node = some cs) :
    cs = [] ∧ r = (node :: path).reverse ∨ ∃ c ∈ cs, Continues (node :: path) c r := by
  have hlatest : (node :: path).reverse.getLast? = some node := getLast?_reverse.trans rfl
  obtain ⟨rest, rfl⟩ := hr
  cases rest with
  | nil =>
    obtain ⟨l, cs', hl, hcs', hend⟩ := h.last
    rw [append_nil] at hl hend
    obtain rfl : node = l := Option.some.inj (hlatest.symm.trans hl)
    obtain rfl : cs = cs' := Option.some.inj (hcs.symm.trans hcs')
    rcases hend with hnone | ⟨c, hc, hmem⟩
    · exact .inl ⟨hnone, append_nil _⟩
    · exact .inr ⟨c, hc, .inl ⟨mem_reverse.mp hmem, append_nil _⟩⟩
  | cons c rest =>
    obtain ⟨-, -, hjoin⟩ := isChain_append.mp h.chain
    have hc : c ∈ m.graph.callers.getD node [] := hjoin node hlatest c rfl
    rw [getD_of_get? hcs] at hc
    refine .inr ⟨c, hc, .inr ⟨rest, ?_⟩⟩
    rw [reverse_cons, append_assoc]
    rfl

/-! ### The inheritance rules -/

lemma siblings_of_flat (hflat : h.Flat) (a b : String) : siblings h a b = false := by
  unfold siblings
  cases hab : h.related a b with
  | false => rfl
  | true =>
    obtain rfl := hflat.eq_of_related hab
    have hself : h.isSubclass a a := Inheritance.isSubclass_iff.mpr .refl
    rw [hself]
    rfl

lemma bothBelow_of_flat (hflat : h.Flat) {last : String} (hne : cls ≠ last) (second : String) :
    bothBelow h cls last second = false := by
  have hnot : h.isSubclass cls last = false :=
    Bool.eq_false_iff.mpr fun hsub => hne (hflat.eq_of_isSubclass hsub)
  unfold bothBelow
  rw [hnot, Bool.and_false]

lemma comesBelow_of_flat (hflat : h.Flat) (node last second : String) :
    comesBelow h node last second = false := by
  have hany : ((h.existingClassEdges node).any
      fun c => bothBelow h c last second && decide (c ≠ last)) = false := by
    refine any_eq_false.mpr fun c _ hc => ?_
    simp only [Bool.and_eq_true, decide_eq_true_eq] at hc
    rw [bothBelow_of_flat hflat hc.2] at hc
    exact absurd hc.1 Bool.false_ne_true
  unfold comesBelow
  dsimp only
  rw [hany, Bool.and_false]

/-! ### The parts of a visit -/

/-- The state a visit starts in: two classes mean a node before the one that is looked at. -/
structure Ready (m : RouteMap) (sink : String) (s : RouteSearch) : Prop where
  onWay : OnWay m sink s.path
  classes : s.classes.length ≤ s.path.length

lemma admits_eq (h : Inheritance) (owner : String) (method : Option String) (s : RouteSearch) :
    ∃ b owners, admits h owner method s = (.ok b, { s with owners }) ∧ (h.Flat → b) := by
  cases method with
  | none => exact ⟨true, s.owners, rfl, fun _ => rfl⟩
  | some name =>
    simp only [admits, run_bind, run_get]
    cases hfirst : s.owners.get? name with
    | none => exact ⟨true, s.owners.set name owner, rfl, fun _ => rfl⟩
    | some first =>
      refine ⟨!siblings h first owner, s.owners, rfl, fun hflat => ?_⟩
      rw [siblings_of_flat hflat]
      rfl

lemma turnsBack_eq (h : s.classes.length ≤ s.path.length) (node cls : String) :
    ∃ b, turnsBack m node cls s = (.ok b, s) ∧ (m.hierarchy.Flat → b = false) := by
  obtain ⟨path, classes, owners, found⟩ := s
  unfold turnsBack
  rw [run_bind, run_get]
  rcases classes with _ | ⟨last, _ | ⟨second, rest⟩⟩
  · exact ⟨false, rfl, fun _ => rfl⟩
  · exact ⟨false, rfl, fun _ => rfl⟩
  · dsimp only
    split_ifs with hcls
    · exact ⟨false, rfl, fun _ => rfl⟩
    · cases path with
      | nil => cases h
      | cons previous _ =>
        refine ⟨_, rfl, fun hflat => ?_⟩
        rw [bothBelow_of_flat hflat hcls, comesBelow_of_flat hflat, Bool.or_false, Bool.and_false,
          Bool.false_and]

lemma mayGo_eq (h : s.classes.length ≤ s.path.length) (node : String) :
    ∃ b owners, mayGo m node s = (.ok b, { s with owners }) ∧
      (m.hierarchy.Flat → Text.contains node avoided = false → b) := by
  unfold mayGo
  rw [run_ite]
  split_ifs with hnode
  · refine ⟨false, s.owners, rfl, fun _ hnot => ?_⟩
    rw [hnode] at hnot
    cases hnot
  · obtain ⟨b, owners, hadmits, hb⟩ :=
      admits_eq m.hierarchy (ownerAndMethod node).1 (ownerAndMethod node).2 s
    obtain ⟨c, hturns, hc⟩ := turnsBack_eq (m := m) (s := { s with owners }) h node
      (classOf m.hierarchy (ownerAndMethod node).1)
    dsimp only
    rw [run_bind, hadmits]
    cases b with
    | false => exact ⟨false, owners, rfl, fun hflat _ => hb hflat⟩
    | true =>
      refine ⟨!c, owners, ?_, fun hflat _ => by rw [hc hflat]; rfl⟩
      simp only [Bool.not_true, Bool.false_eq_true, if_false]
      rw [run_bind, hturns]
      rfl

@[simp] lemma path_forget {method : Option String} : (s.forget method).path = s.path := by
  unfold forget
  split
  · split_ifs <;> rfl
  · rfl

@[simp] lemma found_forget (s : RouteSearch) (method : Option String) :
    (s.forget method).found = s.found := by
  unfold forget
  split
  · split_ifs <;> rfl
  · rfl

lemma forget_classes (s : RouteSearch) (classes : List String) (method : Option String) :
    forget { s with classes } method = { s.forget method with classes } := by
  unfold forget
  split
  · split_ifs <;> rfl
  · rfl

lemma dropClass_eq (h : s.classes = cls :: rest) :
    dropClass s = (.ok (), { s with classes := rest }) := by
  simp only [dropClass, run_bind, run_get, h, tail?_cons, run_need_some, run_modify]

lemma dropNode_eq (h : s.path = node :: rest) : dropNode s = (.ok (), { s with path := rest }) := by
  simp only [dropNode, run_bind, run_get, h, tail?_cons, run_need_some, run_modify]

lemma pop_push (method : Option String) (hpath : t.path = (s.push node cls).path)
    (hclasses : t.classes = (s.push node cls).classes) :
    pop (s.staysIn cls) method t
      = (.ok (), { t.forget method with path := s.path, classes := s.classes }) := by
  have hnode : dropNode { t.forget method with classes := s.classes }
      = (.ok (), { t.forget method with path := s.path, classes := s.classes }) :=
    dropNode_eq (path_forget.trans hpath)
  unfold push at hclasses
  unfold pop
  cases hstays : s.staysIn cls with
  | true =>
    have hsame : t.classes = s.classes := by simpa only [hstays, if_true] using hclasses
    have hforget : t.forget method = { t.forget method with classes := s.classes } :=
      hsame ▸ forget_classes t t.classes method
    simp only [run_bind, run_modify, Bool.not_true, Bool.false_eq_true, if_false]
    exact (congrArg dropNode hforget).trans hnode
  | false =>
    have hmore : t.classes = cls :: s.classes := by
      simpa only [hstays, Bool.false_eq_true, if_false] using hclasses
    simp only [run_bind, run_modify, dropClass_eq hmore, forget_classes, hnode,
      Bool.not_false, if_true]

/-! ### Visits -/

lemma visit_of_mem (h : node ∈ s.path) : visit m (fuel + 1) node s = (.ok (), s.record) := by
  simp [visit, run_bind, h]

lemma visit_of_refused (h : node ∉ s.path) (hgo : mayGo m node s = (.ok false, t)) :
    visit m (fuel + 1) node s = (.ok (), t) := by simp [visit, run_bind, h, hgo]

abbrev classAt (m : RouteMap) (node : String) : String :=
  classOf m.hierarchy (ownerAndMethod node).1

lemma visit_of_go {v : RouteSearch} (h : node ∉ s.path) (hgo : mayGo m node s = (.ok true, t))
    (hon : goOn m (visit m fuel) node (t.push node (classAt m node)) = (.ok (), u))
    (hpop : pop (t.staysIn (classAt m node)) (ownerAndMethod node).2 u = (.ok (), v)) :
    visit m (fuel + 1) node s = (.ok (), v) := by simp [visit, run_bind, h, hgo, hon, hpop]

/-- What a visit leaves: the route is as before, and what was found meanwhile are routes. -/
structure Returned (m : RouteMap) (sink : String) (s t : RouteSearch) : Prop where
  path : t.path = s.path
  classes : t.classes = s.classes
  kept : s.found ⊆ t.found
  found : ∀ r ∈ t.found, r ∈ s.found ∨ IsRoute m sink r

lemma Returned.refl (s : RouteSearch) : Returned m sink s s :=
  ⟨rfl, rfl, fun _ hr => hr, fun _ => .inl⟩

lemma Returned.trans (h : Returned m sink s t) (h' : Returned m sink t u) :
    Returned m sink s u where
  path := h'.path.trans h.path
  classes := h'.classes.trans h.classes
  kept _ hr := h'.kept (h.kept hr)
  found r hr := (h'.found r hr).elim (h.found r) .inr

lemma Ready.returned (h : Ready m sink s) (hr : Returned m sink s t) : Ready m sink t where
  onWay := by
    rw [hr.path]
    exact h.onWay
  classes := by
    rw [hr.path, hr.classes]
    exact h.classes

lemma returned_record (h : IsRoute m sink s.path.reverse) : Returned m sink s s.record where
  path := rfl
  classes := rfl
  kept _ hr := mem_cons_of_mem _ hr
  found r hr := by
    rcases mem_cons.mp hr with rfl | hold
    · exact .inr h
    · exact .inl hold

lemma Returned.pop (h : Returned m sink (s.push node cls) t) (method : Option String) :
    ∃ u, Returned m sink s u ∧ u.found = t.found ∧ pop (s.staysIn cls) method t = (.ok (), u) := by
  have hfound := found_forget t method
  refine ⟨{ t.forget method with path := s.path, classes := s.classes }, ⟨rfl, rfl, ?_, ?_⟩, hfound,
    pop_push method h.path h.classes⟩
  · exact hfound.symm ▸ h.kept
  · exact hfound.symm ▸ h.found

lemma Ready.push (h : Ready m sink s) (hnext : Next m sink s.path node)
    (hnode : m.graph.callers.contains node) (hnot : node ∉ s.path) :
    Ready m sink (s.push node cls) where
  onWay := h.onWay.cons hnext hnode hnot
  classes := by
    have hlen := h.classes
    unfold RouteSearch.push
    split_ifs <;> simp only [length_cons] <;> omega

/-- The routes on which the search goes on everywhere, if no class inherits from another one. -/
structure Unhindered (m : RouteMap) (sink : String) (r : List String) : Prop where
  flat : m.hierarchy.Flat
  isRoute : IsRoute m sink r
  clear : ∀ n ∈ r, Text.contains n avoided = false

/-- The visit of a node in the state `s` finds the unhindered routes that go on with it. -/
def Finds (m : RouteMap) (sink node : String) (s t : RouteSearch) : Prop :=
  ∀ r, Unhindered m sink r → Continues s.path node r → r ∈ t.found

lemma finds_record (h : node ∈ s.path) : Finds m sink node s s.record := by
  rintro r hr (⟨-, rfl⟩ | hlong)
  · exact mem_cons_self
  · have hnodup := hr.isRoute.nodup.sublist hlong.sublist
    exact absurd h (nodup_cons.mp (nodup_reverse.mp hnodup)).1

lemma Finds.later (h : Finds m sink node s t) (htu : Returned m sink t u) : Finds m sink node s u :=
  fun r hr hnode => htu.kept (h r hr hnode)

lemma Finds.earlier (h : Finds m sink node t u) (hst : Returned m sink s t) :
    Finds m sink node s u := by
  unfold Finds at h
  rwa [hst.path] at h

lemma exists_forM_visit {nodes : List String}
    (hvisit : ∀ node ∈ nodes, ∀ t, Returned m sink s t → ∃ u, Returned m sink t u ∧
      Finds m sink node t u ∧ ∀ fuel, n ≤ fuel → visit m fuel node t = (.ok (), u))
    (ht : Returned m sink s t) :
    ∃ u, Returned m sink t u ∧ (∀ node ∈ nodes, Finds m sink node t u) ∧
      ∀ fuel, n ≤ fuel → nodes.forM (visit m fuel) t = (.ok (), u) := by
  induction nodes generalizing t with
  | nil => exact ⟨t, .refl t, nofun, fun _ _ => rfl⟩
  | cons node nodes ih =>
    obtain ⟨hfirst, hrest⟩ := forall_mem_cons.mp hvisit
    obtain ⟨u, hu, hfinds, hrun⟩ := hfirst t ht
    obtain ⟨v, hv, hrests, hruns⟩ := ih hrest (ht.trans hu)
    refine ⟨v, hu.trans hv, ?_, fun fuel hfuel => ?_⟩
    · exact forall_mem_cons.mpr ⟨hfinds.later hv, fun c hc => (hrests c hc).earlier hu⟩
    · rw [run_forM_cons, hrun fuel hfuel]
      exact hruns fuel hfuel

lemma exists_goOn (hs : Ready m sink s) (hpath : s.path = node :: rest)
    (hcs : m.graph.callers.get? node = some cs)
    (hvisit : ∀ c ∈ cs, ∀ t, Returned m sink s t → ∃ u, Returned m sink t u ∧
      Finds m sink c t u ∧ ∀ fuel, n ≤ fuel → visit m fuel c t = (.ok (), u)) :
    ∃ t, Returned m sink s t ∧
      (∀ r, Unhindered m sink r → (node :: rest).reverse <+: r → r ∈ t.found) ∧
      ∀ fuel, n ≤ fuel → goOn m (visit m fuel) node s = (.ok (), t) := by
  simp only [goOn, hcs, run_bind, run_need_some]
  cases cs with
  | nil =>
    have hway := hs.onWay
    refine ⟨s.record, returned_record ?_, fun r hr hlong => ?_, fun _ _ => rfl⟩
    · rw [hpath] at hway ⊢
      exact hway.isRoute hcs (.inl rfl)
    · rcases continues_of_isRoute hr.isRoute hlong hcs with ⟨-, rfl⟩ | ⟨c, hc, -⟩
      · rw [← hpath]
        exact mem_cons_self
      · cases hc
  | cons c cs =>
    obtain ⟨t, ht, hfinds, hrun⟩ := exists_forM_visit hvisit (.refl s)
    refine ⟨t, ht, fun r hr hlong => ?_, hrun⟩
    rcases continues_of_isRoute hr.isRoute hlong hcs with ⟨hnone, -⟩ | ⟨d, hd, hcont⟩
    · cases hnone
    · rw [← hpath] at hcont
      exact hfinds d hd r hr hcont

/-- A visit ends, and more fuel changes nothing: the route holds no node twice. -/
lemma exists_visit (hm : m.Closed) (n : Nat) (hs : Ready m sink s) (hnext : Next m sink s.path node)
    (hnode : m.graph.callers.contains node) (hn : depth m ≤ n + s.path.length) :
    ∃ t, Returned m sink s t ∧ Finds m sink node s t ∧
      ∀ fuel, n ≤ fuel → visit m fuel node s = (.ok (), t) := by
  have hlen := hs.onWay.length_le
  unfold depth at hn
  induction n generalizing s node with
  | zero => omega
  | succ n ih =>
    -- a visit of the node whose outcome is the same for all fuel
    suffices ∃ t, Returned m sink s t ∧ Finds m sink node s t ∧
        ∀ fuel, n ≤ fuel → visit m (fuel + 1) node s = (.ok (), t) by
      obtain ⟨t, ht, hfinds, hrun⟩ := this
      refine ⟨t, ht, hfinds, fun fuel hfuel => ?_⟩
      obtain ⟨fuel, rfl⟩ := Nat.exists_eq_add_one_of_ne_zero (by omega : fuel ≠ 0)
      exact hrun fuel (by omega)
    by_cases hmem : node ∈ s.path
    · have hroute := hs.onWay.isRoute_of_mem hnext hmem
      exact ⟨s.record, returned_record hroute, finds_record hmem, fun fuel _ => visit_of_mem hmem⟩
    -- a route that goes on with the node has it
    have hlong {r : List String} (hcont : Continues s.path node r) :
        (node :: s.path).reverse <+: r :=
      hcont.resolve_left fun h => hmem h.1
    obtain ⟨b, owners, hgo, hb⟩ := mayGo_eq hs.classes node
    cases b with
    | false =>
      refine ⟨{ s with owners }, ⟨rfl, rfl, fun _ hr => hr, fun _ => .inl⟩, fun r hr hcont => ?_,
        fun fuel _ => visit_of_refused hmem hgo⟩
      have hclear := hr.clear node ((hlong hcont).subset (mem_reverse.mpr mem_cons_self))
      exact absurd (hb hr.flat hclear) Bool.false_ne_true
    | true =>
      have hready : Ready m sink (RouteSearch.push { s with owners } node (classAt m node)) :=
        Ready.push ⟨hs.onWay, hs.classes⟩ hnext hnode hmem
      obtain ⟨cs, hcs⟩ := contains_iff.mp hnode
      obtain ⟨t, ht, hall, hon⟩ := exists_goOn hready rfl hcs fun c hc u hu => by
        have hpath : u.path = node :: s.path := hu.path
        have hur := hready.returned hu
        refine ih hur ?_ (hm node cs hcs c hc) ?_ hur.onWay.length_le
        · rw [hpath]
          exact next_caller hcs hc
        · rw [hpath, length_cons]
          omega
      obtain ⟨u, hu, hfound, hpop⟩ := ht.pop (ownerAndMethod node).2
      refine ⟨u, ⟨hu.path, hu.classes, hu.kept, hu.found⟩, fun r hr hcont => ?_, fun fuel hfuel =>
        visit_of_go hmem hgo (hon fuel hfuel) hpop⟩
      rw [hfound]
      exact hall r hr (hlong hcont)

lemma continues_nil_of_isRoute (h : IsRoute m sink r) : Continues [] sink r := by
  refine .inr ?_
  cases r with
  | nil => cases h.head
  | cons n r =>
    obtain rfl : n = sink := Option.some.inj h.head
    exact ⟨r, rfl⟩

/-- In a graph in which every listed caller is a node, the search from a node ends without a fault,
whatever the inheritance is, and finds only routes of that node. If no class inherits from another
one, it finds all routes that have no node to be avoided. -/
theorem visit_finds_routes {m : RouteMap} (hm : m.Closed) (sink : String)
    (hsink : m.graph.callers.contains sink = true) :
    ∃ s, (∀ fuel, depth m ≤ fuel → visit m fuel sink {} = (.ok (), s)) ∧
      (∀ a b fuel, m.hierarchy.parents.size < fuel →
        (m.hierarchy.reaches b fuel a []).1 = m.hierarchy.isSubclass a b) ∧
      (∀ r ∈ s.found, IsRoute m sink r) ∧
      (m.hierarchy.Flat → ∀ r, IsRoute m sink r →
        (∀ n ∈ r, Text.contains n avoided = false) → r ∈ s.found) := by
  obtain ⟨s, hs, hfinds, hrun⟩ := exists_visit hm (depth m) (s := {}) ⟨onWay_nil, Nat.le_refl 0⟩ rfl
    hsink (Nat.le_refl _)
  refine ⟨s, hrun, ?_, ?_, ?_⟩
  · exact fun a b _ hfuel => Inheritance.reaches_eq_isSubclass hfuel a b
  · exact fun r hr => (hs.found r hr).resolve_left nofun
  · exact fun hflat r hr hclear => hfinds r ⟨hflat, hr, hclear⟩ (continues_nil_of_isRoute hr)

/-- Two methods that call each other and reach the sink, and a class beside theirs. -/
def loopMap : RouteMap where
  graph :=
    { callers := Table.ofList
        [("exec", ["m.A.go", "m.B.go"]), ("m.A.go", ["m.A.run", "m.main"]), ("m.A.run", ["m.A.go"]),
          ("m.B.go", ["m.A.go"]), ("m.main", [])] }
  hierarchy := { parents := Table.ofList [("m.A", ["m.P"]), ("m.B", ["m.P"])] }

lemma closed_loopMap : loopMap.Closed := by
  have hentries : ∀ e ∈ loopMap.graph.callers.entries, ∀ c ∈ e.2,
      loopMap.graph.callers.contains c := by decide +kernel
  exact fun _ _ h => hentries _ (mem_entries_of_get? h)

def flatLoopMap : RouteMap := { loopMap with hierarchy := {} }

lemma isRoute_flatLoopMap : IsRoute flatLoopMap "exec" ["exec", "m.B.go", "m.A.go", "m.main"] where
  head := rfl
  nodup := by decide
  chain := by decide +kernel
  last := ⟨"m.main", [], rfl, by decide +kernel, .inl rfl⟩

theorem visit_finds_routes_loop : (∃ s, visit loopMap (depth loopMap) "exec" {} = (.ok (), s) ∧
      s.found.reverse = [["exec", "m.A.go", "m.A.run"], ["exec", "m.A.go", "m.main"]] ∧
      ∀ r ∈ s.found, IsRoute loopMap "exec" r) ∧
    ∃ s, visit flatLoopMap (depth flatLoopMap) "exec" {} = (.ok (), s) ∧
      ["exec", "m.B.go", "m.A.go", "m.main"] ∈ s.found := by
  constructor
  · obtain ⟨s, hrun, -, hroutes, -⟩ := visit_finds_routes closed_loopMap "exec" (by decide +kernel)
    have hs : s = (visit loopMap (depth loopMap) "exec" {}).2 := by rw [hrun _ (Nat.le_refl _)]
    refine ⟨s, hrun _ (Nat.le_refl _), ?_, hroutes⟩
    rw [hs]
    decide +kernel
  · have hclosed : flatLoopMap.Closed := closed_loopMap
    obtain ⟨s, hrun, -, -, hall⟩ := visit_finds_routes hclosed "exec" (by decide +kernel)
    have hflat : flatLoopMap.hierarchy.Flat := fun c p h => by cases h
    exact ⟨s, hrun _ (Nat.le_refl _), hall hflat _ isRoute_flatLoopMap (by decide +kernel)⟩

end RouteSearch

end SinkTrace
