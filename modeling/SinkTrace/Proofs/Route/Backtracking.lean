import SinkTrace.Proofs.Route.Search

/-!
# Going back

A visit takes back what it put onto the route: the nodes and the classes are as before when it
returns. It does not take back all that it noted about the owners of methods. A method that is met
again is noted once and forgotten by each of its visits, and a node that is refused because the
route would turn back leaves its note. Thus the notes at the end may differ for the methods of the
nodes that were looked at, and for no others.

A note only matters where the owners of two methods of one name are siblings. Where there are none,
a visit finds the same whatever was noted before. Where no class inherits from another one, the
search finds exactly the routes without a node to be avoided.
-/

namespace SinkTrace

open Table

namespace RouteSearch

open Act Relation

variable {m : RouteMap} {cls node owner : String} {s t u : RouteSearch} {fuel : Nat}
  {h : Inheritance}
  {method : Option String} {b stays : Bool}

/-! ### Inversion of the parts of a visit -/

/-- The owners after a node was looked at: the name of its method may be new, with its owner. -/
def Notes (node : String) (before after : Table String String) : Prop :=
  ∀ name, after.get? name = before.get? name ∨
    (ownerAndMethod node).2 = some name ∧ after.get? name = some (ownerAndMethod node).1

lemma admits_ok (hrun : admits h owner method s = (.ok b, t)) :
    ∃ owners, t = { s with owners } ∧ ∀ name, owners.get? name = s.owners.get? name ∨
      method = some name ∧ owners.get? name = some owner := by
  cases method with
  | none =>
    cases hrun
    exact ⟨s.owners, rfl, fun _ => .inl rfl⟩
  | some method =>
    simp only [admits, run_bind, run_get] at hrun
    cases hfirst : s.owners.get? method with
    | some first =>
      rw [hfirst] at hrun
      cases hrun
      exact ⟨s.owners, rfl, fun _ => .inl rfl⟩
    | none =>
      rw [hfirst] at hrun
      cases hrun
      refine ⟨s.owners.set method owner, rfl, fun _ => ?_⟩
      rw [get?_set]
      split_ifs with hname
      · exact .inr ⟨by rw [hname], rfl⟩
      · exact .inl rfl

lemma reads_turnsBack (m : RouteMap) (node cls : String) : Reads (turnsBack m node cls) := by
  refine Leads.get.bind fun s => ?_
  split
  · refine .pure_or ?_
    exact Leads.need.bind_pure
  · exact .pure

lemma mayGo_ok (hrun : mayGo m node s = (.ok b, t)) :
    ∃ owners, t = { s with owners } ∧ Notes node s.owners owners ∧
      (b → Text.contains node avoided = false) := by
  unfold mayGo at hrun
  rw [run_ite] at hrun
  split_ifs at hrun with hnode
  · cases hrun
    exact ⟨s.owners, rfl, fun _ => .inl rfl, nofun⟩
  · obtain ⟨c, u, hadmits, hrest⟩ := of_bind hrun
    obtain ⟨owners, rfl, hnotes⟩ := admits_ok hadmits
    refine ⟨owners, ?_, hnotes, fun _ => Bool.eq_false_iff.mpr hnode⟩
    cases c with
    | false =>
      cases hrest
      rfl
    | true =>
      obtain ⟨d, v, hturns, hlast⟩ := of_bind hrest
      cases hlast
      exact (congrArg Prod.snd hturns).symm.trans ((reads_turnsBack m node _).state_eq _)

lemma goOn_ok {visit : String → Act RouteSearch Unit} (hrun : goOn m visit node s = (.ok (), t)) :
    ∃ callers, m.graph.callers.get? node = some callers ∧
      (callers = [] ∧ t = s.record ∨ callers.forM visit s = (.ok (), t)) := by
  obtain ⟨callers, u, hneed, hrest⟩ := of_bind hrun
  cases hcallers : m.graph.callers.get? node with
  | none =>
    rw [hcallers] at hneed
    cases hneed
  | some cs =>
    rw [hcallers] at hneed
    cases hneed
    refine ⟨callers, rfl, ?_⟩
    cases callers with
    | nil =>
      cases hrest
      exact .inl ⟨rfl, rfl⟩
    | cons c callers => exact .inr hrest

lemma get?_forget (s : RouteSearch) (method : Option String) (name : String) :
    (s.forget method).owners.get? name
      = if method = some name ∧ name ≠ "" then none else s.owners.get? name := by
  cases method with
  | none => simp [forget]
  | some k =>
    by_cases hk : k = ""
    · subst hk
      by_cases hname : name = ""
      · simp [forget, hname]
      · simp [forget, Ne.symm hname]
    · by_cases hname : name = k
      · simp [forget, get?_erase, hname, hk]
      · simp [forget, get?_erase, hk, hname, Ne.symm hname]

lemma visit_ok (hrun : visit m (fuel + 1) node s = (.ok (), t)) : node ∈ s.path ∧ t = s.record ∨
      node ∉ s.path ∧ ∃ b u, mayGo m node s = (.ok b, u) ∧ (b = false ∧ t = u ∨ b ∧ ∃ v,
          goOn m (visit m fuel) node (u.push node (classAt m node)) = (.ok (), v) ∧
          pop (u.staysIn (classAt m node)) (ownerAndMethod node).2 v = (.ok (), t)) := by
  unfold visit at hrun
  rw [run_bind, run_get] at hrun
  dsimp only at hrun
  rw [run_ite] at hrun
  split_ifs at hrun with hmem
  · cases hrun
    exact .inl ⟨List.contains_iff_mem.mp hmem, rfl⟩
  · obtain ⟨b, u, hgo, hrest⟩ := of_bind hrun
    refine .inr ⟨fun h => hmem (List.contains_iff_mem.mpr h), b, u, hgo, ?_⟩
    cases b with
    | false =>
      cases hrest
      exact .inl ⟨rfl, rfl⟩
    | true =>
      obtain ⟨w, _, hget, hpush⟩ := of_bind hrest
      cases hget
      obtain ⟨_, _, hmodify, hon⟩ := of_bind hpush
      cases hmodify
      obtain ⟨_, v, hon, hpop⟩ := of_bind hon
      exact .inr ⟨rfl, v, hon, hpop⟩

/-! ### What is taken back -/

/-- The node is not on the route, and it is `node` or calls it, directly or through others. -/
def Ahead (m : RouteMap) (path : List String) (node n : String) : Prop :=
  n ∉ path ∧ ReflTransGen (fun a b => b ∈ m.graph.callers.getD a []) node n

/-- What is noted for a name is as before, or comes from a node of `looked`. -/
def NotedFrom (looked : String → Prop) (before after : Table String String)
    (name : String) : Prop :=
  after.get? name = before.get? name ∨ ∃ n, looked n ∧ (ownerAndMethod n).2 = some name ∧
      (after.get? name = none ∨ after.get? name = some (ownerAndMethod n).1)

/-- The route is as before. Only the nodes of `looked` have changed what is noted. -/
structure Restores (looked : String → Prop) (s t : RouteSearch) : Prop where
  path : t.path = s.path
  classes : t.classes = s.classes
  owners : ∀ name, NotedFrom looked s.owners t.owners name

variable {looked : String → Prop}

lemma Restores.refl : Restores looked s s := ⟨rfl, rfl, fun _ => .inl rfl⟩

lemma Restores.trans (h : Restores looked s t) (h' : Restores looked t u) :
    Restores looked s u where
  path := h'.path.trans h.path
  classes := h'.classes.trans h.classes
  owners name := by
    rcases h'.owners name with hsame | hnew
    · unfold NotedFrom
      rw [hsame]
      exact h.owners name
    · exact .inr hnew

lemma Restores.mono {looked' : String → Prop} (h : Restores looked s t)
    (hlooked : ∀ n, looked n → looked' n) : Restores looked' s t where
  path := h.path
  classes := h.classes
  owners name := (h.owners name).imp_right fun ⟨n, hn, hname, hnoted⟩ =>
  ⟨n, hlooked n hn, hname, hnoted⟩

lemma restores_forM {visit : String → Act RouteSearch Unit} {path cs : List String}
    (hvisit : ∀ c ∈ cs, ∀ s t, s.path = path → visit c s = (.ok (), t) → Restores looked s t)
    (hs : s.path = path) (hrun : cs.forM visit s = (.ok (), t)) : Restores looked s t := by
  induction cs generalizing s with
  | nil =>
    cases hrun
    exact .refl
  | cons c cs ih =>
    obtain ⟨hfirst, hrest⟩ := List.forall_mem_cons.mp hvisit
    obtain ⟨_, u, hc, hcs⟩ := of_bind hrun
    have hu := hfirst s u hs hc
    exact hu.trans (ih hrest (hu.path.trans hs) hcs)

lemma Restores.pop {owners : Table String String} (hnotes : Notes node s.owners owners)
    {v : RouteSearch} (hlooked : looked node)
    (hv : Restores looked (RouteSearch.push { s with owners } node cls) v)
    (hpop : pop (RouteSearch.staysIn { s with owners } cls) (ownerAndMethod node).2 v =
      (.ok (), t)) :
    Restores looked s t := by
  rw [pop_push _ hv.path hv.classes] at hpop
  cases hpop
  refine ⟨rfl, rfl, fun name => ?_⟩
  have hforget := get?_forget v (ownerAndMethod node).2 name
  unfold NotedFrom
  rw [hforget]
  by_cases hname : (ownerAndMethod node).2 = some name ∧ name ≠ ""
  · rw [if_pos hname]
    exact .inr ⟨node, hlooked, hname.1, .inl rfl⟩
  · rw [if_neg hname]
    rcases hv.owners name with hsame | hnew
    · rw [hsame]
      exact (hnotes name).imp_right fun ⟨hmethod, hnoted⟩ => ⟨node, hlooked, hmethod, .inr hnoted⟩
    · exact .inr hnew

lemma restores_visit (hrun : visit m fuel node s = (.ok (), t)) :
    Restores (Ahead m s.path node) s t := by
  induction fuel generalizing node s t with
  | zero => cases hrun
  | succ fuel ih =>
    rcases visit_ok hrun with ⟨-, rfl⟩ | ⟨hnot, b, u, hgo, hcases⟩
    · exact ⟨rfl, rfl, fun _ => .inl rfl⟩
    · obtain ⟨owners, rfl, hnotes, -⟩ := mayGo_ok hgo
      have hnode : Ahead m s.path node node := ⟨hnot, .refl⟩
      rcases hcases with ⟨-, rfl⟩ | ⟨-, v, hon, hpop⟩
      · exact ⟨rfl, rfl, fun name => (hnotes name).imp_right fun ⟨hmethod, hnoted⟩ =>
          ⟨node, hnode, hmethod, .inr hnoted⟩⟩
      · refine Restores.pop hnotes hnode ?_ hpop
        obtain ⟨callers, hcallers, ⟨-, rfl⟩ | hcs⟩ := goOn_ok hon
        · exact ⟨rfl, rfl, fun _ => .inl rfl⟩
        · refine restores_forM (fun c _ _ _ hpath hrun' => (ih hrun').mono fun n hn => ?_) rfl hcs
          rw [hpath] at hn
          have hcall : c ∈ m.graph.callers.getD node [] := by rwa [getD_of_get? hcallers]
          exact ⟨fun hmem => hn.1 (List.mem_cons_of_mem _ hmem), .head hcall hn.2⟩

/-! ### Notes that do not matter -/

/-- Where two nodes have methods of one name, their owners are not siblings. -/
def NamesApart (m : RouteMap) : Prop :=
  ∀ a b name, m.graph.callers.contains a = true → m.graph.callers.contains b = true →
    (ownerAndMethod a).2 = some name → (ownerAndMethod b).2 = some name →
    siblings m.hierarchy (ownerAndMethod a).1 (ownerAndMethod b).1 = false

def NotesNodes (m : RouteMap) (owners : Table String String) : Prop :=
  ∀ name owner, owners.get? name = some owner →
    ∃ n, m.graph.callers.contains n = true ∧ ownerAndMethod n = (owner, some name)

/-- The states differ only in the owners of nodes that are noted. -/
def Beside (m : RouteMap) (s s' : RouteSearch) : Prop :=
  NotesNodes m s.owners ∧ ∃ owners, s' = { s with owners } ∧ NotesNodes m owners

lemma NotesNodes.forget (h : NotesNodes m s.owners) (method : Option String) :
    NotesNodes m (s.forget method).owners := by
  intro name owner hnoted
  rw [get?_forget] at hnoted
  split_ifs at hnoted
  exact h name owner hnoted

lemma admits_of_apart (hm : NamesApart m) (hnode : m.graph.callers.contains node)
    (hs : NotesNodes m s.owners) :
    ∃ owners, admits m.hierarchy (ownerAndMethod node).1 (ownerAndMethod node).2 s
      = (.ok true, { s with owners }) ∧ NotesNodes m owners := by
  cases hmethod : (ownerAndMethod node).2 with
  | none => exact ⟨s.owners, rfl, hs⟩
  | some method =>
    simp only [admits, run_bind, run_get]
    cases hfirst : s.owners.get? method with
    | none =>
      refine ⟨s.owners.set method (ownerAndMethod node).1, rfl, fun name owner hnoted => ?_⟩
      rw [get?_set] at hnoted
      split_ifs at hnoted with hname
      · cases hnoted
        exact ⟨node, hnode, Prod.ext rfl (hname ▸ hmethod)⟩
      · exact hs name owner hnoted
    | some first =>
      obtain ⟨n, hn, hown⟩ := hs method first hfirst
      have happart := hm n node method hn hnode (congrArg Prod.snd hown) hmethod
      simp only [hown] at happart
      refine ⟨s.owners, ?_, hs⟩
      simp only [happart, Bool.not_false, run_pure]

lemma abreast_admits (hm : NamesApart m) (hnode : m.graph.callers.contains node) :
    Abreast (Beside m) (admits m.hierarchy (ownerAndMethod node).1 (ownerAndMethod node).2) := by
  rintro s _ ⟨hs, other, rfl, hs'⟩
  obtain ⟨owners, hrun, hnoted⟩ := admits_of_apart hm hnode hs
  obtain ⟨owners', hrun', hnoted'⟩ :=
    admits_of_apart (s := { s with owners := other }) hm hnode hs'
  rw [hrun, hrun']
  exact ⟨rfl, hnoted, owners', rfl, hnoted'⟩

lemma abreast_turnsBack : Abreast (Beside m) (turnsBack m node cls) := by
  intro s s' h
  have hstate := (reads_turnsBack m node cls).state_eq
  refine ⟨?_, by rw [hstate, hstate]; exact h⟩
  -- the answer looks at the route only
  obtain ⟨-, owners', rfl, -⟩ := h
  obtain ⟨path, classes, owners, found⟩ := s
  unfold turnsBack
  rw [run_bind, run_bind, run_get, run_get]
  rcases classes with _ | ⟨last, _ | ⟨second, rest⟩⟩
  · rfl
  · rfl
  · dsimp only
    split_ifs
    · rfl
    · cases path <;> rfl

lemma abreast_mayGo (hm : NamesApart m) (hnode : m.graph.callers.contains node) :
    Abreast (Beside m) (mayGo m node) := by
  refine .ite .pure ((abreast_admits hm hnode).bind fun b => .ite .pure ?_)
  exact abreast_turnsBack.bind fun c => .pure

lemma abreast_dropClass : Abreast (Beside m) dropClass := by
  rintro ⟨path, _ | ⟨cls, classes⟩, owners, found⟩ _ ⟨hs, owners', rfl, hs'⟩
  · exact ⟨rfl, hs, owners', rfl, hs'⟩
  · exact ⟨rfl, hs, owners', rfl, hs'⟩

lemma abreast_dropNode : Abreast (Beside m) dropNode := by
  rintro ⟨_ | ⟨latest, path⟩, classes, owners, found⟩ _ ⟨hs, owners', rfl, hs'⟩
  · exact ⟨rfl, hs, owners', rfl, hs'⟩
  · exact ⟨rfl, hs, owners', rfl, hs'⟩

lemma beside_forget {s' : RouteSearch} (h : Beside m s s') :
    Beside m (s.forget method) (s'.forget method) := by
  obtain ⟨hs, owners', rfl, hs'⟩ := h
  refine ⟨hs.forget method, _, ?_, NotesNodes.forget (s := { s with owners := owners' }) hs' method⟩
  unfold RouteSearch.forget
  split
  · split_ifs <;> rfl
  · rfl

lemma abreast_pop : Abreast (Beside m) (pop stays method) := by
  have hrest : Abreast (Beside m) (modify (·.forget method) >>= fun _ => dropNode) :=
    (Abreast.modify fun _ _ h => beside_forget h).bind fun _ => abreast_dropNode
  exact .ite (abreast_dropClass.bind fun _ => hrest) hrest

lemma abreast_visit (hclosed : m.Closed) (hm : NamesApart m) (fuel : Nat)
    (hnode : m.graph.callers.contains node) :
    Abreast (Beside m) (visit m fuel node) := by
  induction fuel generalizing node with
  | zero => exact .throw
  | succ fuel ih =>
    obtain ⟨cs, hcs⟩ := contains_iff.mp hnode
    have hon : Abreast (Beside m) (goOn m (visit m fuel) node) := by
      refine Abreast.need.bind_of (P := (· = cs)) (fun s v t hrun => ?_) fun _ hv => ?_
      · rw [hcs] at hrun
        cases hrun
        rfl
      · refine .ite (.modify fun s s' h => ?_) (.forM fun c hc => ?_)
        · obtain ⟨hs, owners', rfl, hs'⟩ := h
          exact ⟨hs, owners', rfl, hs'⟩
        · exact ih (hclosed node cs hcs c (hv ▸ hc))
    have hpush (cls : String) : ∀ s s', Beside m s s' →
        Beside m (s.push node cls) (s'.push node cls) := by
      rintro s _ ⟨hs, owners', rfl, hs'⟩
      exact ⟨hs, owners', rfl, hs'⟩
    rintro s _ ⟨hs, owners', rfl, hs'⟩
    unfold visit
    rw [run_bind, run_bind, run_get, run_get]
    dsimp only
    rw [run_ite, run_ite]
    split_ifs with hmem
    · exact ⟨rfl, hs, owners', rfl, hs'⟩
    · refine ((abreast_mayGo hm hnode).bind fun b => .ite ?_ .pure) s _
        ⟨hs, owners', rfl, hs'⟩
      rintro s _ ⟨hs, owners', rfl, hs'⟩
      exact ((Abreast.modify (hpush _)).bind fun _ => hon.bind fun _ => abreast_pop) s _
        ⟨hs, owners', rfl, hs'⟩

/-- A visit that returns leaves the nodes and the classes of the route as they were, and what is
noted about owners but for the names of methods that were looked at. Where the owners of two methods
of one name are never siblings, this does not matter. -/
theorem visit_goes_back {m : RouteMap} {fuel : Nat} {node : String} {s t : RouteSearch}
    (hrun : visit m fuel node s = (.ok (), t)) :
    t.path = s.path ∧ t.classes = s.classes ∧
      (∀ name, NotedFrom (Ahead m s.path node) s.owners t.owners name) ∧
      (m.Closed → NamesApart m → m.graph.callers.contains node = true → NotesNodes m s.owners →
        ∀ owners, NotesNodes m owners →
          ∃ owners', visit m fuel node { s with owners } =
          (.ok (), { t with owners := owners' })) := by
  have hback := restores_visit hrun
  refine ⟨hback.path, hback.classes, hback.owners, fun hclosed hm hnode hs owners howners => ?_⟩
  obtain ⟨hsame, -, owners', hstate, -⟩ :=
    abreast_visit hclosed hm fuel hnode s _ ⟨hs, owners, rfl, howners⟩
  rw [hrun] at hsame hstate
  exact ⟨owners', Prod.ext hsame.symm hstate⟩

/-- The classes `X` and `Z` are siblings, `Y` is a stranger to them. -/
def siblingMap : RouteMap where
  graph :=
    { callers := Table.ofList
        [("exec", ["m.X.f"]), ("m.X.f", ["m.Y.f", "m.Z.f"]), ("m.Y.f", []), ("m.Z.f", [])] }
  hierarchy := { parents := Table.ofList [("m.X", ["m.P"]), ("m.Z", ["m.P"])] }

def apartMap : RouteMap where
  graph :=
    { callers := Table.ofList
        [("exec", ["m.X.f"]), ("m.X.f", ["m.Y.f", "m.Z.g"]), ("m.Y.f", []), ("m.Z.g", [])] }
  hierarchy := siblingMap.hierarchy

def atX : RouteSearch where
  path := ["m.X.f", "exec"]
  classes := ["m.X", "exec"]
  owners := Table.ofList [("f", "m.X")]

lemma closed_apartMap : apartMap.Closed := by
  have hentries : ∀ e ∈ apartMap.graph.callers.entries, ∀ c ∈ e.2,
      apartMap.graph.callers.contains c := by decide +kernel
  exact fun _ _ h => hentries _ (mem_entries_of_get? h)

lemma namesApart_apartMap : NamesApart apartMap := by
  have hkeys : ∀ a ∈ apartMap.graph.callers.keys, ∀ b ∈ apartMap.graph.callers.keys,
      (ownerAndMethod a).2 = (ownerAndMethod b).2 →
      siblings apartMap.hierarchy (ownerAndMethod a).1 (ownerAndMethod b).1 = false := by
    decide +kernel
  intro a b name ha hb hname hname'
  exact hkeys a (mem_keys_iff.mpr ha) b (mem_keys_iff.mpr hb) (hname.trans hname'.symm)

lemma notesNodes_atX : NotesNodes apartMap atX.owners := by
  intro name owner hnoted
  obtain ⟨rfl, rfl⟩ : name = "f" ∧ owner = "m.X" := by
    simpa using mem_of_mem_ofList (mem_entries_of_get? hnoted)
  exact ⟨"m.X.f", by decide +kernel, by decide +kernel⟩

/-- The visit of `Y` forgets the owner of `f`, and finds the same where it was not noted. -/
theorem visit_goes_back_apart : ∃ t, visit apartMap (depth apartMap) "m.Y.f" atX = (.ok (), t) ∧
      t.path = atX.path ∧ t.classes = atX.classes ∧ t.owners.get? "f" = none ∧
      (∃ n, Ahead apartMap atX.path "m.Y.f" n ∧ (ownerAndMethod n).2 = some "f") ∧
      ∃ owners', visit apartMap (depth apartMap) "m.Y.f" { atX with owners := {} }
        = (.ok (), { t with owners := owners' }) := by
  have hrun : visit apartMap (depth apartMap) "m.Y.f" atX
      = (.ok (), (visit apartMap (depth apartMap) "m.Y.f" atX).2) := rfl
  obtain ⟨hpath, hclasses, howners, hsame⟩ := visit_goes_back hrun
  refine ⟨_, hrun, hpath, hclasses, rfl, ?_, ?_⟩
  · rcases howners "f" with hkept | ⟨n, hn, hname, -⟩
    · cases hkept
    · exact ⟨n, hn, hname⟩
  · exact hsame closed_apartMap namesApart_apartMap (by decide +kernel) notesNodes_atX {} nofun

/-- In the search from `sink` the node is visited in this state. -/
inductive Occurs (m : RouteMap) (sink : String) : String → RouteSearch → Prop
  | sink : Occurs m sink sink {}
  | caller (before after : List String) {node c : String} {s t u : RouteSearch}
      (h : Occurs m sink node s) (hnot : node ∉ s.path) (hgo : mayGo m node s = (.ok true, t))
      (hcallers : m.graph.callers.get? node = some (before ++ c :: after))
      (hbefore : before.forM (visit m (depth m)) (t.push node (classAt m node)) = (.ok (), u)) :
      Occurs m sink c u

lemma occurs_X : Occurs siblingMap "exec" "m.X.f" { path := ["exec"], classes := ["exec"] } :=
  .caller [] [] .sink (by decide) rfl rfl rfl

/-- The visit of `Y` forgets what is noted about `X`, so the search goes on with `Z` only after
it. -/
theorem note_lost_with_visit : Occurs siblingMap "exec" "m.Y.f" atX ∧
      ∃ t, visit siblingMap (depth siblingMap) "m.Y.f" atX = (.ok (), t) ∧
        Occurs siblingMap "exec" "m.Z.f" t ∧
        atX.owners.get? "f" = some "m.X" ∧ t.owners.get? "f" = none ∧
        mayGo siblingMap "m.Z.f" atX = (.ok false, atX) ∧
        ∃ u, mayGo siblingMap "m.Z.f" t = (.ok true, u) := by
  refine ⟨.caller [] _ occurs_X (by decide) rfl rfl rfl, _, rfl, ?_, rfl, rfl, rfl, _, rfl⟩
  exact .caller ["m.Y.f"] _ occurs_X (by decide) rfl rfl rfl

/-! ### All routes -/

/-- No node to be avoided is on the route, or on one that was found. -/
def Clear (s : RouteSearch) : Prop :=
  (∀ n ∈ s.path, Text.contains n avoided = false) ∧
    ∀ r ∈ s.found, ∀ n ∈ r, Text.contains n avoided = false

/-- The action brings no node to be avoided onto a route. -/
abbrev KeepsClear {α : Type} (a : Act RouteSearch α) : Prop :=
  Leads (fun s t => Clear s → Clear t) a

lemma keepsClear_modify {f : RouteSearch → RouteSearch} (h : ∀ s, Clear s → Clear (f s)) :
    KeepsClear (modify f) := .modify fun s => .single (h s)

lemma keepsClear_record : KeepsClear (modify record) := by
  refine keepsClear_modify fun s hs => ⟨hs.1, List.forall_mem_cons.mpr ⟨fun n hn => ?_, hs.2⟩⟩
  exact hs.1 n (List.mem_reverse.mp hn)

lemma keepsClear_admits : KeepsClear (admits h owner method) := by
  cases method with
  | none => exact .pure
  | some method =>
    refine Leads.get.bind fun s => ?_
    split
    · refine Leads.bind (keepsClear_modify fun s hs => ?_) fun _ => .pure
      exact hs
    · exact .pure

lemma keepsClear_mayGo : KeepsClear (mayGo m node) := by
  refine .pure_or (keepsClear_admits.bind fun b => .pure_or ?_)
  exact (reads_turnsBack m node _).leads.bind_pure

lemma keepsClear_pop : KeepsClear (pop stays method) := by
  have hclass : KeepsClear dropClass :=
    Leads.get.bind fun s => Leads.need.bind fun classes => keepsClear_modify fun s hs => hs
  have hforget : KeepsClear (modify (·.forget method)) := by
    refine keepsClear_modify fun s hs => ?_
    unfold Clear
    rwa [path_forget, found_forget]
  have hnode : KeepsClear dropNode := by
    intro s
    obtain ⟨_ | ⟨latest, path⟩, classes, owners, found⟩ := s
    · exact .refl
    · exact .single fun hs => ⟨(List.forall_mem_cons.mp hs.1).2, hs.2⟩
  exact .when hclass (hforget.bind fun _ => hnode)

lemma keepsClear_visit (m : RouteMap) (fuel : Nat) (node : String) :
    KeepsClear (visit m fuel node) := by
  induction fuel generalizing node with
  | zero => exact .throw
  | succ fuel ih =>
    refine Leads.get.bind fun s => .ite keepsClear_record ?_
    refine keepsClear_mayGo.bind_of
      (P := fun b => b → Text.contains node avoided = false) (fun s b t hgo => ?_) fun b hb => ?_
    · obtain ⟨-, -, -, hclear⟩ := mayGo_ok hgo
      exact hclear
    · split_ifs with hgo
      · refine Leads.get.bind fun s => (keepsClear_modify fun s hs => ?_).bind fun _ =>
          Leads.bind ?_ fun _ => keepsClear_pop
        · exact ⟨List.forall_mem_cons.mpr ⟨hb hgo, hs.1⟩, hs.2⟩
        · exact Leads.need.bind fun _ => .ite keepsClear_record (.forM fun c _ => ih c)
      · exact .pure

lemma contains_of_isRoute {sink : String} {r : List String} (h : IsRoute m sink r) :
    m.graph.callers.contains sink := by
  obtain ⟨l, cs, hl, hcs, -⟩ := h.last
  have hhead := h.head
  have hchain := h.chain
  rcases r with _ | ⟨a, _ | ⟨b, r⟩⟩
  · cases hhead
  · cases hhead
    cases hl
    exact contains_of_get? hcs
  · cases hhead
    have hb : b ∈ m.graph.callers.getD sink [] := (List.isChain_cons_cons.mp hchain).1
    rw [contains_eq_isSome]
    by_contra hnone
    rw [Option.not_isSome_iff_eq_none] at hnone
    rw [getD, hnone] at hb
    cases hb

lemma found_of_not_contains {sink : String} (h : m.graph.callers.contains sink = false)
    (fuel : Nat) :
    (visit m fuel sink {}).2.found = [] := by
  cases fuel with
  | zero => rfl
  | succ fuel =>
    have hnone := not_contains_iff.mp h
    obtain ⟨b, owners, hgo, -⟩ := mayGo_eq (m := m) (s := {}) (Nat.le_refl 0) sink
    cases b with
    | false => simp [visit, run_bind, hgo]
    | true => simp [visit, run_bind, hgo, goOn, hnone, need, push]

/-- In a graph in which every listed caller is a node, and where no class inherits from another one,
the search from a sink finds exactly its routes that have no node to be avoided. -/
theorem mem_found_iff_of_flat {m : RouteMap} (hm : m.Closed) (hflat : m.hierarchy.Flat)
    (sink : String) {fuel : Nat} (hfuel : depth m ≤ fuel) :
    (m.graph.callers.contains sink = true → (visit m fuel sink {}).1 = .ok ()) ∧
      ∀ r, r ∈ (visit m fuel sink {}).2.found ↔
        IsRoute m sink r ∧ ∀ n ∈ r, Text.contains n avoided = false := by
  cases hsink : m.graph.callers.contains sink with
  | false =>
    refine ⟨nofun, fun r => ?_⟩
    rw [found_of_not_contains hsink]
    refine ⟨nofun, fun hr => ?_⟩
    rw [contains_of_isRoute hr.1] at hsink
    cases hsink
  | true =>
    obtain ⟨s, hs, hfinds, hrun⟩ := exists_visit hm (depth m) (s := {})
      ⟨onWay_nil, Nat.le_refl 0⟩ rfl
      hsink (Nat.le_refl _)
    have hclear : Clear s := by
      have hsteps := keepsClear_visit m fuel sink {}
      rw [hrun fuel hfuel] at hsteps
      have hstart : Clear {} :=
        ⟨fun _ h => absurd h List.not_mem_nil, fun _ h => absurd h List.not_mem_nil⟩
      exact Stable.steps (fun _ _ hs hst => hst hs) hstart hsteps
    rw [hrun fuel hfuel]
    refine ⟨fun _ => rfl, fun r => ⟨fun hr => ⟨?_, hclear.2 r hr⟩, fun ⟨hr, hc⟩ => ?_⟩⟩
    · exact (hs.found r hr).resolve_left nofun
    · exact hfinds r ⟨hflat, hr, hc⟩ (continues_nil_of_isRoute hr)

theorem mem_found_iff_of_flat_loop : flatLoopMap.Closed ∧ flatLoopMap.hierarchy.Flat ∧
      (visit flatLoopMap (depth flatLoopMap) "exec" {}).1 = .ok () ∧
      ["exec", "m.B.go", "m.A.go", "m.main"]
        ∈ (visit flatLoopMap (depth flatLoopMap) "exec" {}).2.found ∧
      ["exec", "m.B.go"] ∉ (visit flatLoopMap (depth flatLoopMap) "exec" {}).2.found := by
  have hclosed : flatLoopMap.Closed := closed_loopMap
  have hflat : flatLoopMap.hierarchy.Flat := fun c p h => by cases h
  obtain ⟨hends, hfound⟩ := mem_found_iff_of_flat hclosed hflat "exec" (Nat.le_refl _)
  refine ⟨hclosed, hflat, hends (by decide +kernel), ?_, fun hmem => ?_⟩
  · exact (hfound _).mpr ⟨isRoute_flatLoopMap, by decide +kernel⟩
  · obtain ⟨l, cs, hl, hcs, hend⟩ := ((hfound _).mp hmem).1.last
    cases hl
    obtain rfl : ["m.A.go"] = cs := Option.some.inj hcs
    revert hend
    decide

end RouteSearch

end SinkTrace
