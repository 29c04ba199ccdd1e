import SinkTrace.Proofs.Route.ModelCall
import SinkTrace.Route.Account

/-!
# The account of a route ends

Nothing that is told is told again, and all that can be told is among finitely many names: the nodes
of the route, the recorded callees and the methods that statements name. So the names that are left
bound the nesting.
-/

namespace SinkTrace

open List

namespace Account

open Act

variable {m : RouteMap} {all told : List String} {guide : Guide} {first : String} {fuel : Nat}

/-- Nothing that was told is taken back, and only names of `all` are told. -/
structure Tells (all told : List String) (a : Account) : Prop where
  before : told <+: a.told
  names : a.told ⊆ told ++ all

lemma bounded_say (indent : Int) (line : String) : BoundedOn (Tells all told) (say indent line) :=
  bounded_modify fun _ h => ⟨h.before, h.names⟩

lemma bounded_nodesOf (guide : Guide) :
    BoundedOn (Tells all told) (liftM (nodesOf guide) : Act Account _) := by
  cases guide with
  | route nodes => exact boundedOn_pure
  | told => exact fun s hs => ⟨hs, trivial⟩

lemma bind_ne {α β : Type} {x : Except Fault α} {f : α → Except Fault β} {e : Fault}
    (hx : x ≠ .error e)
    (hf : ∀ v, f v ≠ .error e) : x >>= f ≠ .error e := by
  cases x with
  | error e' => exact fun h => hx (congrArg _ (Except.error.inj h))
  | ok v => exact hf v

lemma filterAuxM_ne {p : String → Except Fault Bool} {e : Fault} (h : ∀ n, p n ≠ .error e)
    (ns acc : List String) : ns.filterAuxM p acc ≠ .error e := by
  induction ns generalizing acc with
  | nil => simp [pure, Except.pure]
  | cons n ns ih => exact bind_ne (h n) fun b => ih _

lemma onWay_ne_tooDeep (h : Inheritance) (nodes : List String) (node : String) (callees : Names) :
    onWay h nodes node callees ≠ .error .tooDeep := by
  unfold onWay
  split
  · simp
  · refine bind_ne (filterAuxM_ne (fun c => ?_) _ _) fun _ => by simp [pure, Except.pure]
    exact bind_ne ModelLinks.split_ne_tooDeep fun _ => by simp [pure, Except.pure]

lemma bounded_tellModels (guide : Guide) (node line : String) (crossing : Crossing) :
    BoundedOn (Tells all told) (tellModels m guide node line crossing) := by
  unfold tellModels
  split
  · exact .throw
  · refine bounded_foldlM fun _ _ _ => ?_
    refine (bounded_nodesOf guide).next fun _ => .ite boundedOn_pure ?_
    refine (bounded_lift ModelLinks.split_ne_tooDeep).next fun p => ?_
    refine (bounded_lift ModelLinks.calleesOf_ne_tooDeep).next fun _ => ?_
    refine (bounded_lift (onWay_ne_tooDeep _ _ _ _)).next fun _ => ?_
    refine (bounded_lift (ModelSearch.chains_ne_tooDeep _ _ _)).next fun _ => ?_
    exact (bounded_modify fun _ h => ⟨h.before, h.names⟩).next fun _ => boundedOn_pure

lemma bounded_tellCallees {tell : String → Int → Bool → Act Account Unit} {callees : List String}
    (h : ∀ c ∈ callees, ∀ indent back, BoundedOn (Tells all told) (tell c indent back))
    (guide : Guide) (next : Option String) (indent : Int) (reached : Bool) :
    BoundedOn (Tells all told) (tellCallees tell guide next indent callees reached) := by
  refine bounded_foldlM fun _ c hc => ?_
  refine (bounded_nodesOf guide).next fun _ => .ite boundedOn_pure ?_
  exact (h c hc _ _).next fun _ => boundedOn_pure

def Guide.nodes : Guide → List String
  | .route nodes => nodes
  | .told => []

lemma mem_of_nodeBefore? {nodes : List String} {node n : String}
    (h : nodeBefore? nodes node = some n) :
    n ∈ nodes := by
  unfold nodeBefore? at h
  split at h
  · exact mem_of_getElem? h
  · cases h

lemma bounded_note {name : String} (hname : name ∈ all) :
    BoundedOn (Tells all told) (modify fun a => { a with told := a.told ++ [name] }) := by
  refine bounded_modify fun a h => ⟨h.before.trans (prefix_append ..), ?_⟩
  simpa [h.names] using .inr hname

/-- A node that was told is passed over, any other is told before all that follows. -/
def Enters (all : List String) (first : String) (s : Account)
    (r : Except Fault Unit × Account) : Prop :=
  if first ∈ s.told then r = (.ok (), s)
  else EndsBounded (Tells all (s.told ++ [first])) Any r

lemma Enters.ends {s : Account} {r : Except Fault Unit × Account} (h : Enters all first s r)
    (hs : Tells all told s) (hfirst : first ∈ all ∨ first ∈ told) :
    EndsBounded (Tells all told) Any r := by
  unfold Enters at h
  split_ifs at h with hmem
  · rw [h]
    exact ⟨hs, trivial⟩
  have hall : first ∈ all := hfirst.resolve_right fun h => hmem (hs.before.subset h)
  refine EndsBounded.mono h fun t ht => ⟨(hs.before.trans (prefix_append ..)).trans ht.before, ?_⟩
  refine Subset.trans ht.names (append_subset.mpr ⟨append_subset.mpr ⟨hs.names, ?_⟩, ?_⟩)
  · simp [hall]
  · exact subset_append_right ..

/-- A node that was not told is one of the names, so fewer of them are left. -/
lemma enters_of_bounded {F : List String → Act Account Unit} {s : Account}
    (hguide : guide.nodes ⊆ all)
    (hs : Tells all told s) (hfirst : first ∈ all ∨ first ∈ told)
    (hF : ∀ told' nodes, unmet all told' < unmet all told → (∀ n ∈ nodes, n ∈ all ∨ n ∈ told') →
      BoundedOn (Tells all told') (F nodes)) :
    Enters all first s ((do
      if (← get).told.contains first then return
      modify fun a => { a with told := a.told ++ [first] }
      F (← nodesOf guide) : Act Account Unit) s) := by
  by_cases hmem : first ∈ s.told
  · simp [run_bind, Enters, hmem]
  have hall : first ∈ all := hfirst.resolve_right fun h => hmem (hs.before.subset h)
  have hlt : unmet all (s.told ++ [first]) < unmet all told :=
    unmet_lt hall (fun h => hmem (hs.before.subset h)) (by simp [hs.before.subset])
  obtain ⟨nodes, hnodes, hin⟩ : ∃ nodes, (liftM (nodesOf guide) : Act Account _)
      { s with told := s.told ++ [first] } = (.ok nodes, { s with told := s.told ++ [first] }) ∧
      ∀ n ∈ nodes, n ∈ all ∨ n ∈ s.told ++ [first] := by
    cases guide with
    | route nodes => exact ⟨nodes, rfl, fun n hn => .inl (hguide hn)⟩
    | told => exact ⟨_, rfl, fun n hn => .inr hn⟩
  have hend := hF _ nodes hlt hin { s with told := s.told ++ [first] } ⟨prefix_rfl, by simp⟩
  simp only [run_bind, run_get, contains_eq_mem, decide_eq_true_eq, hmem, if_false,
    run_modify, hnodes]
  rwa [Enters, if_neg hmem]

lemma enters_tell (hcalls : ∀ key t, m.graph.calls.get? key = some t →
    ∀ line cs, t.get? line = some cs → cs ⊆ all)
    (hnamed : ∀ key, ∀ entry ∈ ((m.graph.statements.get? key).getD {}).entries,
      ∀ method, namedMethod? entry.2 = some method → method ∈ all)
    (hguide : guide.nodes ⊆ all) (hfirst : first ∈ all ∨ first ∈ told)
    (hfuel : unmet all told < fuel)
    (indent : Int) (back : Bool) {s : Account} (hs : Tells all told s) :
    Enters all first s (tell m fuel guide first indent back s) := by
  induction fuel generalizing guide first told indent back s with
  | zero => cases hfuel
  | succ fuel ih =>
    unfold tell
    refine enters_of_bounded hguide hs hfirst fun told' nodes hlt hnodes => ?_
    have hnext {first : String} (guide : Guide) (hguide : guide.nodes ⊆ all)
        (hfirst : first ∈ all ∨ first ∈ told') (indent : Int) (back : Bool) :
        BoundedOn (Tells all told') (tell m fuel guide first indent back) := fun s hs =>
      (ih hguide hfirst
        (Nat.lt_of_lt_of_le hlt (Nat.le_of_lt_succ hfuel)) indent back hs).ends hs hfirst
    extract_lets has depth node go
    have hnode (x : String × String) : BoundedOn (Tells all told') (node x) := by
      obtain ⟨name, key⟩ := x
      refine (bounded_need fun t ht => ht).bind fun _ hstatements => ?_
      refine (bounded_foldlM (fun reached p hentry => ?_)).next fun _ => ?_
      · obtain ⟨line, statement⟩ := p
        refine (bounded_say _ _).next fun _ => (bounded_say _ _).next fun _ => ?_
        extract_lets goOn
        have hgoOn (isModel : Bool) : BoundedOn (Tells all told') (goOn isModel) := by
          refine .ite boundedOn_pure ((bounded_need fun t ht => ht).bind fun byLine hby => ?_)
          cases hline : byLine.get? line with
          | none => exact boundedOn_pure
          | some callees =>
            refine bounded_tellCallees (fun c hc => hnext guide hguide (.inl ?_)) _ _ _ _
            exact hcalls key byLine hby line callees hline hc
        cases m.crossings.get? name with
        | some crossing => exact (bounded_tellModels _ _ _ _).next fun isModel => hgoOn isModel
        | none =>
          dsimp only
          split
          · rename_i n method hn hmethod
            refine (bounded_forIn fun p hinner => ?_).next fun _ => hgoOn false
            obtain ⟨innerLine, inner⟩ := p
            dsimp only
            split
            · rename_i name hname
              have hmem : method ∈ all :=
                hnamed key _ (by simpa [hstatements] using hentry) method hmethod
              refine (bounded_note (hnamed method _ hinner name hname)).next fun _ => ?_
              exact (hnext .told (nil_subset _) (.inl hmem) _ _).next fun _ => .pure rfl
            · exact .pure rfl
          · exact hgoOn false
      · split
        · rename_i n hn
          refine .ite boundedOn_pure (hnext guide hguide (hnodes n ?_) _ _)
          exact mem_of_nodeBefore? (Option.filter_eq_some_iff.mp hn).1
        · exact boundedOn_pure
    have hgo (r : Unit) : BoundedOn (Tells all told') (go r) := by
      refine .ite (boundedOn_pure.next fun x => hnode x) ?_
      cases nodeBefore? nodes first with
      | some n => exact boundedOn_pure.next fun x => hnode x
      | none => exact boundedOn_pure
    exact .ite (hgo ()) ((bounded_say _ _).next fun r => hgo r)

lemma callees_subset_names {nodes : List String} {key line : String} {t : NameTable} {cs : Names}
    (ht : m.graph.calls.get? key = some t) (hcs : t.get? line = some cs) : cs ⊆ names m nodes := by
  intro c hc
  refine mem_append_left _ (mem_append_right _ (mem_flatMap.mpr
    ⟨t, Table.mem_values_of_get? ht, ?_⟩))
  exact mem_flatten_of_mem (Table.mem_values_of_get? hcs) hc

lemma mem_names_of_named {nodes : List String} {key method : String} {entry : String × String}
    (hentry : entry ∈ ((m.graph.statements.get? key).getD {}).entries)
    (h : namedMethod? entry.2 = some method) : method ∈ names m nodes := by
  cases ht : m.graph.statements.get? key with
  | none => simp [ht] at hentry
  | some t =>
    rw [ht] at hentry
    refine mem_append_right _ (mem_flatMap.mpr ⟨t, Table.mem_values_of_get? ht, ?_⟩)
    exact mem_filterMap.mpr ⟨entry.2, mem_map_of_mem hentry, h⟩

/-- The account ends. A node that was told is passed over at once; any other is told, and what is
told after it is a node of the route, a recorded callee or a method that a statement names. -/
theorem tell_ends (m : RouteMap) (guide : Guide) (first : String) (indent : Int) (back : Bool)
    (a : Account)
    (fuel : Nat) :
    let all := first :: names m guide.nodes
    let r := tell m (all.length + 1 + fuel) guide first indent back a
    r.1 ≠ .error .tooDeep ∧ (first ∈ a.told → r = (.ok (), a)) ∧
      (first ∉ a.told → a.told ++ [first] <+: r.2.told ∧ r.2.told ⊆ a.told ++ all) := by
  intro all r
  have htells : Tells all a.told a := ⟨prefix_rfl, subset_append_left ..⟩
  have henters : Enters all first a r :=
    enters_tell (fun key t ht _ _ hcs => subset_cons_of_subset first (callees_subset_names ht hcs))
      (fun _ _ hentry _ h => mem_cons_of_mem first (mem_names_of_named hentry h))
      (fun n hn => by simp [names, hn]) (.inl mem_cons_self)
      (Nat.lt_of_lt_of_le (Nat.lt_succ_of_le (length_filter_le ..))
        (Nat.le_add_right _ fuel)) indent back htells
  have hends := henters.ends htells (.inl mem_cons_self)
  refine ⟨hends.ne, fun hmem => ?_, fun hmem => ?_⟩
  · rwa [Enters, if_pos hmem] at henters
  · rw [Enters, if_neg hmem] at henters
    exact ⟨henters.kept.before, hends.kept.names⟩

end Account

end SinkTrace
