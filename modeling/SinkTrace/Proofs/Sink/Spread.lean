import SinkTrace.Proofs.Act
import SinkTrace.Proofs.Sink.Methods
import SinkTrace.Proofs.Text.Split

/-!
# How far sinks spread

Spreading follows the callers of every method that leads to a sink, module after module, and a
module is left out if it has as many methods as when it was last followed. A method that comes from
the turn of another module counts as followed, though nobody has looked at its callers. Hence a
module is closed under its callers when spreading ends, unless a method of another module has a
caller in it.
-/

namespace SinkTrace

open Table Text

namespace Sinks

open Relation Act

variable (table : Callers) {n : SinkNode} {ss ss' : Sinks} {X caller method mod x : String}
  {v : Unit}
  {fuel : Nat} {l : Links}

/-! ### Callers and where they are -/

def callersOf (ss : Sinks) (mod method : String) : List String :=
  ((ss.node? mod).map fun n => (table n.callers).getD method []).getD []

/-- The method that a caller stands for: one of `mod`, or of the module written before the mark. -/
inductive StandsFor (mod : String) : String → String → String → Prop
  | near {caller : String} (h : '#' ∉ caller.toList) : StandsFor mod caller mod caller
  | far {other method : String} (hother : '#' ∉ other.toList) (hmethod : '#' ∉ method.toList) :
      StandsFor mod (other ++ "#" ++ method) other method

/-- The callers of all methods of the module lead to a sink too, as far as their modules have
nodes. -/
def Closed (ss : Sinks) (mod : String) : Prop :=
  ∀ method caller X x, ss.HasMethod mod method → caller ∈ callersOf table ss mod method →
    StandsFor mod caller X x → (ss.node? X).isSome = true → ss.HasMethod X x

/-- A method of another module has a caller in this one. -/
def Asked (ss : Sinks) (mod : String) : Prop :=
  ∃ other method caller x, other ≠ mod ∧ ss.HasMethod other method ∧
    caller ∈ callersOf table ss other method ∧ StandsFor other caller mod x

/-- What spreading leaves behind in a module. -/
def Settled (ss : Sinks) (mod : String) : Prop := Closed table ss mod ∨ Asked table ss mod

variable {table}

lemma StandsFor.of_splitOn {other : String} (h : splitOn caller "#" = [other, method]) :
    StandsFor mod caller other method := by
  obtain ⟨rfl, hother, hmethod⟩ := splitOn_eq_pair rfl h
  exact .far hother hmethod

lemma settled_of_none (h : ss.node? mod = none) : Settled table ss mod := by
  refine .inl fun _ _ _ _ hmethod => ?_
  obtain ⟨n, hn⟩ := hmethod.node
  rw [h] at hn
  cases hn

/-! ### What no step takes away -/

/-- The callers are those that they were, and no method is gone. No more blocks are noted as
declared. -/
structure Widens (ss ss' : Sinks) : Prop where
  callers : ∀ X, (ss'.node? X).map (·.callers) = (ss.node? X).map (·.callers)
  methods : ∀ X x, ss.HasMethod X x → ss'.HasMethod X x
  analyzed : ∀ X x, ss'.Analyzed X x → ss.Analyzed X x

lemma Widens.trans {ss'' : Sinks} (h : Widens ss ss') (h' : Widens ss' ss'') : Widens ss ss'' where
  callers X := (h'.callers X).trans (h.callers X)
  methods X x hx := h'.methods X x (h.methods X x hx)
  analyzed X x hx := h.analyzed X x (h'.analyzed X x hx)

section Widens

variable (h : Widens ss ss')

include h

lemma Widens.callersOf (X x : String) : callersOf table ss' X x = callersOf table ss X x := by
  have hX := congrArg (Option.map fun source => (table source).getD x []) (h.callers X)
  rw [Option.map_map, Option.map_map] at hX
  exact congrArg (Option.getD · []) hX

lemma Widens.isSome (X : String) : (ss'.node? X).isSome = (ss.node? X).isSome := by
  have hX := congrArg Option.isSome (h.callers X)
  rwa [Option.isSome_map, Option.isSome_map] at hX

lemma Widens.asked (hX : Asked table ss X) : Asked table ss' X := by
  obtain ⟨other, method, caller, x, hne, hmethod, hcaller, hplace⟩ := hX
  exact ⟨other, method, caller, x, hne, h.methods _ _ hmethod, by rwa [h.callersOf], hplace⟩

lemma Widens.settled (hnone : ∀ x, ss'.HasMethod X x → ss.HasMethod X x)
    (hX : Settled table ss X) : Settled table ss' X := by
  refine hX.imp (fun hclosed method caller Y y hmethod hcaller hplace hY => ?_) h.asked
  rw [h.callersOf] at hcaller
  rw [h.isSome] at hY
  exact h.methods _ _ (hclosed method caller Y y (hnone _ hmethod) hcaller hplace hY)

lemma Widens.settled_of_node (hnode : ss'.node? X = ss.node? X)
    (hX : Settled table ss X) : Settled table ss' X := by
  refine h.settled (fun x hx => ?_) hX
  rw [hasMethod_iff] at hx ⊢
  rwa [hnode] at hx

end Widens

lemma widens_of_nodes (h : ss'.nodes = ss.nodes) : Widens ss ss' where
  callers X := by rw [node?_eq_of_nodes h]
  methods X x hx := by rwa [HasMethod, links?_eq_of_nodes h]
  analyzed X x hx := by rwa [Analyzed, node?_eq_of_nodes h] at hx

lemma widens_withMethod : Widens ss (withMethod mod method l ss) where
  callers X := by
    rw [node?_adjustNode]
    split_ifs with hX
    · cases ss.node? X <;> rfl
    · rfl
  methods _ _ hx := hasMethod_withMethod.mpr (.inl hx)
  analyzed X x hx := by
    refine analyzed_of_adjustNode (fun n b hb => ?_) hx
    exact hb

lemma widens_addBareMethod : Widens ss (ss.addBareMethod mod method) := by
  unfold addBareMethod
  rcases nodes_ensureLinks ss mod method with ⟨-, heq⟩ | ⟨-, l, hnodes⟩
  · exact widens_of_nodes (by rw [heq])
  · exact widens_withMethod.trans (widens_of_nodes hnodes)

lemma links?_markFollowed (mod : String) (ss : Sinks) (X x : String) :
    (markFollowed mod ss).links? X x = ss.links? X x := by
  rw [links?_adjustNode]
  split_ifs with hX
  · rfl
  · rfl

lemma widens_markFollowed (mod : String) (ss : Sinks) : Widens ss (markFollowed mod ss) where
  callers X := by
    rw [node?_adjustNode]
    split_ifs with hX
    · cases ss.node? X <;> rfl
    · rfl
  methods X x hx := by rwa [HasMethod, links?_markFollowed]
  analyzed X x hx := by
    refine analyzed_of_adjustNode (fun n b hb => ?_) hx
    exact hb

/-! ### The count of followed methods -/

def Counted (ss : Sinks) : Prop := ∀ X n, ss.node? X = some n → n.followed ≤ n.methodUsers.size

lemma Counted.of_nodes (h : ss'.nodes = ss.nodes) (hcount : Counted ss) : Counted ss' := by
  intro X n hn
  rw [node?_eq_of_nodes h] at hn
  exact hcount X n hn

lemma Counted.withMethod (h : Counted ss) : Counted (withMethod mod method l ss) := by
  intro X n hn
  rw [node?_adjustNode] at hn
  split_ifs at hn with hX
  · obtain ⟨n₀, hn₀, rfl⟩ := Option.map_eq_some_iff.mp hn
    have hcount := h X n₀ hn₀
    rw [size_set]
    split_ifs
    · exact hcount
    · push_cast
      omega
  · exact h X n hn

lemma Counted.addBareMethod (h : Counted ss) : Counted (ss.addBareMethod mod method) := by
  unfold Sinks.addBareMethod
  rcases nodes_ensureLinks ss mod method with ⟨-, heq⟩ | ⟨-, l, hnodes⟩
  · rwa [heq]
  · exact h.withMethod.of_nodes hnodes

lemma Counted.markFollowed (h : Counted ss) : Counted (markFollowed mod ss) := by
  intro X n hn
  rw [node?_adjustNode] at hn
  split_ifs at hn with hX
  · obtain ⟨n₀, -, rfl⟩ := Option.map_eq_some_iff.mp hn
    exact Int.le_refl _
  · exact h X n hn

/-! ### The steps of a turn -/

variable (table) in
/-- A step in the turn of a module. -/
inductive Follows (mod : String) : Sinks → Sinks → Prop
  | near {ss : Sinks} {method caller : String} (hmethod : ss.HasMethod mod method)
      (hcaller : caller ∈ callersOf table ss mod method)
      (hplace : StandsFor mod caller mod caller) :
      Follows mod ss (ss.addBareMethod mod caller)
  | far {ss : Sinks} {method caller other x : String} (hmethod : ss.HasMethod mod method)
      (hcaller : caller ∈ callersOf table ss mod method) (hplace : StandsFor mod caller other x) :
      Follows mod ss (markFollowed other (ss.addBareMethod other x))
  | mark (ss : Sinks) : Follows mod ss (markFollowed mod ss)

lemma Follows.widens (h : Follows table mod ss ss') : Widens ss ss' := by
  cases h with
  | near => exact widens_addBareMethod
  | far => exact widens_addBareMethod.trans (widens_markFollowed _ _)
  | mark => exact widens_markFollowed mod ss

lemma stable_widens : Stable (Widens ss) (Follows table mod) := fun _ _ hss h => hss.trans h.widens

lemma Follows.counted (h : Follows table mod ss ss') (hcount : Counted ss) : Counted ss' := by
  cases h with
  | near => exact hcount.addBareMethod
  | far => exact hcount.addBareMethod.markFollowed
  | mark => exact hcount.markFollowed

lemma node?_addBareMethod (hX : X ≠ mod) (ss : Sinks) (method : String) :
    (ss.addBareMethod mod method).node? X = ss.node? X := by
  unfold addBareMethod
  rcases nodes_ensureLinks ss mod method with ⟨-, heq⟩ | ⟨-, l, hnodes⟩
  · rw [heq]
  · rw [node?_eq_of_nodes hnodes, node?_adjustNode, if_neg hX]

lemma Follows.elsewhere (h : Follows table mod ss ss') (hX : X ≠ mod) :
    ss'.node? X = ss.node? X ∨ Asked table ss' X := by
  have hwidens := h.widens
  cases h with
  | near => exact .inl (node?_addBareMethod hX ss _)
  | @far method caller other x hmethod hcaller hplace =>
    by_cases hother : X = other
    · right
      rw [hother] at hX ⊢
      exact ⟨mod, method, caller, x, hX.symm, hwidens.methods _ _ hmethod,
        by rwa [hwidens.callersOf], hplace⟩
    · left
      rw [node?_adjustNode, if_neg hother, node?_addBareMethod hother]
  | mark =>
    left
    rw [node?_adjustNode, if_neg hX]

lemma stable_settled (hX : X ≠ mod) : Stable (Settled table · X) (Follows table mod) := by
  intro ss ss' hsettled h
  rcases h.elsewhere hX with hnode | hasked
  · exact h.widens.settled_of_node hnode hsettled
  · exact .inr hasked

variable (table) in
/-- The counts are kept, and every module that seems to be followed is settled, but for those of
`but`. -/
structure Fair (but : String → Prop) (ss : Sinks) : Prop where
  counted : Counted ss
  settled : ∀ X n, ¬ but X → ss.node? X = some n → n.followed = n.methodUsers.size →
    Settled table ss X

lemma stable_fair : Stable (Fair table (· = mod)) (Follows table mod) := by
  refine fun ss ss' hfair h => ⟨h.counted hfair.counted, fun X n hX hn hfollowed => ?_⟩
  rcases h.elsewhere hX with hnode | hasked
  · rw [hnode] at hn
    exact stable_settled hX ss ss' (hfair.settled X n hX hn hfollowed) h
  · exact .inr hasked

/-! ### Rounds -/

lemma leadsFrom_reachCaller :
    LeadsFrom (fun ss => ss.HasMethod mod method ∧ caller ∈ callersOf table ss mod method)
      (Follows table mod) (reachCaller mod caller) := by
  unfold reachCaller
  split
  · next h =>
    rintro ss ⟨hmethod, hcaller⟩
    exact .single (.near hmethod hcaller (.near (splitOn_eq_singleton rfl h).1))
  · next other x h =>
    refine leadsFrom_get_bind fun ss ⟨hmethod, hcaller⟩ => ?_
    cases ss.node? other with
    | none => exact .refl
    | some n =>
      dsimp only
      rw [run_ite]
      split_ifs
      · exact .refl
      · exact .single (.far hmethod hcaller (.of_splitOn h))
  · exact fun _ _ => .refl

lemma hasMethod_of_reachCaller (h : reachCaller mod caller ss = (.ok (), ss'))
    (hplace : StandsFor mod caller X x) (hX : (ss.node? X).isSome) : ss'.HasMethod X x := by
  unfold reachCaller at h
  cases hplace with
  | near hmark =>
    rw [splitOn_of_not_mem rfl hmark] at h
    cases h
    exact hasMethod_ensureLinks.mpr (.inr ⟨⟨rfl, rfl⟩, hX⟩)
  | far hother hmethod =>
    rw [splitOn_pair rfl hother hmethod] at h
    obtain ⟨n, hn⟩ := Option.isSome_iff_exists.mp hX
    simp only [run_bind, run_get, hn, run_ite] at h
    split_ifs at h with hhas
    · cases h
      exact hasMethod_iff.mpr ⟨n, hn, hhas⟩
    · cases h
      rw [HasMethod, links?_markFollowed]
      exact hasMethod_ensureLinks.mpr (.inr ⟨⟨rfl, rfl⟩, hX⟩)

/-- The methods are of the module, and `callers` is the table of its callers. -/
structure Holds (table : Callers) (mod : String) (callers : NameTable)
    (methods : List String) (ss : Sinks) : Prop where
  methods : ∀ method ∈ methods, ss.HasMethod mod method
  callers : (ss.node? mod).map (fun n => table n.callers) = some callers

section Rounds

variable {callers : NameTable} {methods : List String} {ss ss' : Sinks} {seen : Names}

lemma Holds.callersOf (h : Holds table mod callers methods ss) (method : String) :
    callersOf table ss mod method = callers.getD method [] := by
  obtain ⟨n, hn, hcallers⟩ := Option.map_eq_some_iff.mp h.callers
  rw [Sinks.callersOf, hn, ← hcallers]
  rfl

lemma stable_holds : Stable (Holds table mod callers methods) (Follows table mod) := by
  refine fun _ _ hholds h => ⟨fun method hmethod => ?_, ?_⟩
  · exact h.widens.methods _ _ (hholds.methods method hmethod)
  · have hmod := congrArg (Option.map table) (h.widens.callers mod)
    rw [Option.map_map, Option.map_map] at hmod
    exact hmod.trans hholds.callers

lemma leadsFrom_callers (hmethod : method ∈ methods) : ∀ caller ∈ callers.getD method [],
      LeadsFrom (Holds table mod callers methods) (Follows table mod) (reachCaller mod caller) := by
  intro caller hcaller ss hholds
  exact leadsFrom_reachCaller ss ⟨hholds.methods method hmethod, by rwa [hholds.callersOf]⟩

lemma leadsFrom_reachAll : LeadsFrom (Holds table mod callers methods) (Follows table mod)
      (reachAll mod callers methods) :=
  leadsFrom_forM stable_holds fun _ hmethod =>
    leadsFrom_forM stable_holds (leadsFrom_callers hmethod)

lemma holds_callers (hn : ss.node? mod = some n) : Holds table mod (table n.callers) [] ss where
  methods := nofun
  callers := by rw [hn]; rfl

lemma holds_unseen (hn : ss.node? mod = some n) (hholds : Holds table mod callers [] ss)
    (seen : Names) :
    Holds table mod callers (unseen n seen) ss where
  methods _ hmethod :=
    hasMethod_iff.mpr ⟨n, hn, mem_keys_iff.mp (List.mem_filter.mp hmethod).1⟩
  callers := hholds.callers

lemma run_reachRounds (hn : ss.node? mod = some n) (fuel : Nat) (seen : Names) :
    reachRounds mod callers (fuel + 1) seen ss
      = if (unseen n seen).isEmpty then (.ok (), ss)
        else (do
          reachAll mod callers (unseen n seen)
          modify (markFollowed mod)
          reachRounds mod callers fuel (seen ++ unseen n seen)) ss := by
  simp only [reachRounds, run_bind, run_get, hn, run_ite]
  rfl

lemma leadsFrom_reachRounds (seen : Names) :
    LeadsFrom (Holds table mod callers []) (Follows table mod)
    (reachRounds mod callers fuel seen) := by
  induction fuel generalizing seen with
  | zero => exact fun ss _ => Leads.pure ss
  | succ fuel ih =>
    intro ss hholds
    obtain ⟨n, hn, -⟩ := Option.map_eq_some_iff.mp hholds.callers
    rw [run_reachRounds hn]
    split_ifs
    · exact .refl
    · refine leadsFrom_reachAll.bind stable_holds (fun _ => ?_) ss (holds_unseen hn hholds seen)
      refine LeadsFrom.bind stable_holds (fun ss _ => .single (.mark ss)) fun _ ss hholds => ?_
      exact ih (seen ++ unseen n seen) ss ⟨nofun, hholds.callers⟩

/-! ### Closure of the module that has its turn -/

/-- The callers of the method lead to a sink. -/
def Traced (table : Callers) (mod method : String) (ss : Sinks) : Prop :=
  ∀ caller X x, caller ∈ callersOf table ss mod method → StandsFor mod caller X x →
    (ss.node? X).isSome = true → ss.HasMethod X x

lemma Widens.traced (h : Widens ss ss') (htraced : Traced table mod method ss) :
    Traced table mod method ss' := by
  intro caller X x hcaller hplace hX
  rw [h.callersOf] at hcaller
  rw [h.isSome] at hX
  exact h.methods _ _ (htraced caller X x hcaller hplace hX)

lemma stable_traced : Stable (Traced table mod method) (Follows table mod) :=
  fun _ _ htraced h => h.widens.traced htraced

lemma traced_of_callers (hmethod : method ∈ methods) (hholds : Holds table mod callers methods ss)
    (h : (callers.getD method []).forM (reachCaller mod) ss = (.ok (), ss')) :
    Traced table mod method ss' := by
  have hsteps := (leadsFrom_forM stable_holds (leadsFrom_callers hmethod)).steps hholds h
  have hholds' := stable_holds.steps hholds hsteps
  intro caller X x hcaller hplace
  rw [hholds'.callersOf] at hcaller
  refine forM_all (Q := fun caller ss => ∀ X x, StandsFor mod caller X x →
    (ss.node? X).isSome → ss.HasMethod X x) stable_holds
    (fun caller ss ss' hQ h X x hplace hX => ?_)
    (leadsFrom_callers hmethod)
    (fun caller hcaller _ _ hholds h X x hplace hX => ?_) hholds h caller hcaller X x hplace
  · rw [h.widens.isSome] at hX
    exact h.widens.methods _ _ (hQ X x hplace hX)
  · have hwidens := stable_widens.steps (widens_of_nodes rfl)
      ((leadsFrom_callers hmethod caller hcaller).steps hholds h)
    rw [hwidens.isSome] at hX
    exact hasMethod_of_reachCaller h hplace hX

lemma traced_of_reachAll (hholds : Holds table mod callers methods ss)
    (h : reachAll mod callers methods ss = (.ok v, ss')) :
    ∀ method ∈ methods, Traced table mod method ss' :=
  forM_all stable_holds (fun _ => stable_traced)
    (fun _ hmethod => leadsFrom_forM stable_holds (leadsFrom_callers hmethod))
    (fun _ hmethod _ _ => traced_of_callers hmethod) hholds h

def callerName (caller : String) : String :=
  match Text.splitOn caller "#" with
  | [_, method] => method
  | _ => caller

lemma StandsFor.name (h : StandsFor mod caller X x) : callerName caller = x := by
  unfold callerName
  cases h with
  | near hmark => rw [splitOn_of_not_mem rfl hmark]
  | far hother hmethod => rw [splitOn_pair rfl hother hmethod]

/-- The methods that a module can have at the end of its turn. -/
abbrev candidates (n : SinkNode) (callers : NameTable) : List String :=
  n.methodUsers.keys ++ callers.values.flatten.map callerName

lemma callerName_mem_candidates (h : caller ∈ callers.getD method []) :
    callerName caller ∈ candidates n callers := by
  refine List.mem_append_right _ (List.mem_map_of_mem (List.mem_flatten.mpr ?_))
  unfold getD at h
  cases hrow : callers.get? method with
  | none =>
    rw [hrow] at h
    cases h
  | some row =>
    rw [hrow] at h
    exact ⟨row, List.mem_map_of_mem (mem_entries_of_get? hrow), h⟩

def Within (mod : String) (cands : List String) (ss : Sinks) : Prop :=
  ∀ x, ss.HasMethod mod x → x ∈ cands

lemma stable_within :
    Stable (fun ss => Holds table mod callers methods ss ∧ Within mod (candidates n callers) ss)
      (Follows table mod) := by
  rintro ss ss' ⟨hholds, hwithin⟩ h
  refine ⟨stable_holds ss ss' hholds h, fun x hx => ?_⟩
  cases h with
  | near hmethod hcaller hplace =>
    rw [hholds.callersOf] at hcaller
    rcases hasMethod_ensureLinks.mp hx with hx | ⟨⟨-, rfl⟩, -⟩
    · exact hwithin x hx
    · rw [← hplace.name]
      exact callerName_mem_candidates hcaller
  | far hmethod hcaller hplace =>
    rw [hholds.callersOf] at hcaller
    rw [HasMethod, links?_markFollowed] at hx
    rcases hasMethod_ensureLinks.mp hx with hx | ⟨⟨-, rfl⟩, -⟩
    · exact hwithin x hx
    · rw [← hplace.name]
      exact callerName_mem_candidates hcaller
  | mark =>
    rw [HasMethod, links?_markFollowed] at hx
    exact hwithin x hx

lemma within_candidates (hn : ss.node? mod = some n) : Within mod (candidates n callers) ss := by
  intro x hx
  obtain ⟨m, hm, hkey⟩ := hasMethod_iff.mp hx
  obtain rfl := Option.some.inj (hn.symm.trans hm)
  exact List.mem_append_left _ (mem_keys_iff.mpr hkey)

abbrev unseenCandidates (cands : List String) (seen : Names) : List String :=
  cands.filter fun m => !seen.contains m

lemma unseenCandidates_lt {cands new : List String} (hx : x ∈ new) (hcand : x ∈ cands)
    (hseen : seen.contains x = false) :
    (unseenCandidates cands (seen ++ new)).length < (unseenCandidates cands seen).length := by
  have hfilter : unseenCandidates cands (seen ++ new)
      = (unseenCandidates cands seen).filter fun m => !new.contains m := by
    rw [List.filter_filter]
    refine List.filter_congr fun m _ => ?_
    simp [Bool.and_comm]
  rw [hfilter, List.length_filter_lt_length_iff_exists]
  exact ⟨x, List.mem_filter.mpr ⟨hcand, by rw [hseen]; rfl⟩, by simp [hx]⟩

lemma candidates_lt_roundBound :
    (unseenCandidates (candidates n callers) []).length < roundBound n callers := by
  refine Nat.lt_of_le_of_lt (List.length_filter_le _ _) ?_
  rw [List.length_append, List.length_map, length_keys]
  exact Nat.lt_succ_self _

/-- Rounds go on until all methods of the module are traced, if the fuel counts the candidates. -/
lemma closed_of_reachRounds {n₀ : SinkNode} (hholds : Holds table mod callers [] ss)
    (hwithin : Within mod (candidates n₀ callers) ss)
    (hseen : ∀ method ∈ seen, Traced table mod method ss)
    (hfuel : (unseenCandidates (candidates n₀ callers) seen).length < fuel)
    (h : reachRounds mod callers fuel seen ss = (.ok v, ss')) : Closed table ss' mod := by
  induction fuel generalizing seen ss with
  | zero => exact absurd hfuel (Nat.not_lt_zero _)
  | succ fuel ih =>
    obtain ⟨n, hn, -⟩ := Option.map_eq_some_iff.mp hholds.callers
    rw [run_reachRounds hn] at h
    split_ifs at h with hnew
    · -- Nothing is new: every method was looked at in a round.
      cases h
      intro method caller X x hmethod
      obtain ⟨m, hm, hkey⟩ := hasMethod_iff.mp hmethod
      obtain rfl : m = n := Option.some.inj (hm.symm.trans hn)
      by_cases hmem : method ∈ seen
      · exact hseen method hmem caller X x
      · have hnil := List.isEmpty_iff.mp hnew
        have hin : method ∈ unseen m seen :=
          List.mem_filter.mpr ⟨mem_keys_iff.mpr hkey, by simpa using hmem⟩
        rw [hnil] at hin
        cases hin
    · obtain ⟨_, ss₁, hround, hrest⟩ := of_bind h
      have hunseen := holds_unseen hn hholds seen
      have hsteps := (leadsFrom_reachAll.steps hunseen hround).tail (.mark ss₁)
      have hboth := stable_within.steps ⟨hunseen, hwithin⟩ hsteps
      refine ih ⟨nofun, hboth.1.callers⟩ hboth.2 (fun method hmethod => ?_) ?_ hrest
      · rcases List.mem_append.mp hmethod with hold | hnew
        · exact stable_traced.steps (hseen method hold) hsteps
        · exact (widens_markFollowed mod ss₁).traced (traced_of_reachAll hunseen hround method hnew)
      · obtain ⟨x, hx⟩ := List.exists_mem_of_ne_nil _ (mt List.isEmpty_iff.mpr hnew)
        have hcand := hwithin x (hunseen.methods x hx)
        have hfresh := (List.mem_filter.mp hx).2
        have hless := unseenCandidates_lt hx hcand (by simpa using hfresh)
        omega

end Rounds

/-! ### Turns -/

lemma run_turn (table : Callers) (mod : String) (ss : Sinks) :
    (∀ n, ss.node? mod = some n → n.followed = n.methodUsers.size) ∧
        turn table mod ss = (.ok (), ss) ∨
      ∃ n, ss.node? mod = some n ∧ n.followed ≠ n.methodUsers.size ∧ turn table mod ss
          = reachRounds mod (table n.callers) (roundBound n (table n.callers)) [] ss := by
  cases hn : ss.node? mod with
  | none => exact .inl ⟨nofun, by simp [turn, run_bind, hn]⟩
  | some n =>
    by_cases hfollowed : n.followed = n.methodUsers.size
    · refine .inl ⟨fun m hm => ?_, by simp [turn, run_bind, hn, hfollowed]⟩
      obtain rfl := Option.some.inj hm
      exact hfollowed
    · exact .inr ⟨n, rfl, hfollowed, by simp [turn, run_bind, hn, hfollowed]⟩

lemma leads_turn {table : Callers} : Leads (Follows table mod) (turn table mod) := by
  intro ss
  rcases run_turn table mod ss with ⟨-, hrun⟩ | ⟨n, hn, -, hrun⟩
  · rw [hrun]
  · rw [hrun]
    exact leadsFrom_reachRounds _ ss (holds_callers hn)

lemma widens_of_turn (h : turn table mod ss = (.ok v, ss')) : Widens ss ss' :=
  stable_widens.steps (widens_of_nodes rfl) (leads_turn.yields ss v ss' h)

lemma widens_spread {table : Callers} : Widens ss (spread table ss).2 := by
  have hturns : Leads Widens (spread table) := by
    refine Leads.get.bind fun ss => .forM fun _ _ => ?_
    exact leads_turn.mono fun _ _ hstep => hstep.widens
  exact hturns.run (fun _ => widens_of_nodes rfl) (fun _ _ _ => .trans) ss

lemma settled_of_turn (hfair : Fair table (fun _ => False) ss)
    (h : turn table mod ss = (.ok v, ss')) :
    Settled table ss' mod := by
  rcases run_turn table mod ss with ⟨hdone, hrun⟩ | ⟨n, hn, -, hrun⟩
  · rw [hrun] at h
    cases h
    cases hn : ss.node? mod with
    | none => exact settled_of_none hn
    | some n => exact hfair.settled mod n id hn (hdone n hn)
  · rw [hrun] at h
    have hseen : ∀ method ∈ ([] : Names), Traced table mod method ss := nofun
    exact .inl (closed_of_reachRounds (holds_callers hn) (within_candidates hn) hseen
      candidates_lt_roundBound h)

lemma fair_of_turn (hfair : Fair table (fun _ => False) ss) (h : turn table mod ss = (.ok v, ss')) :
    Fair table (fun _ => False) ss' := by
  have hbut : Fair table (· = mod) ss' :=
    stable_fair.steps ⟨hfair.counted, fun X n _ => hfair.settled X n id⟩
      (leads_turn.yields ss v ss' h)
  refine ⟨hbut.counted, fun X n _ hn hfollowed => ?_⟩
  by_cases hX : X = mod
  · rw [hX]
    exact settled_of_turn hfair h
  · exact hbut.settled X n hX hn hfollowed

lemma Settled.turn (hX : Settled table ss X) (hfair : Fair table (fun _ => False) ss)
    (h : turn table mod ss = (.ok v, ss')) : Settled table ss' X := by
  by_cases hmod : X = mod
  · rw [hmod]
    exact settled_of_turn hfair h
  · exact (stable_settled hmod).steps hX (leads_turn.yields ss v ss' h)

lemma settled_of_turns {mods : List String} (hfair : Fair table (fun _ => False) ss)
    (h : mods.forM (turn table) ss = (.ok v, ss')) :
    Fair table (fun _ => False) ss' ∧ Widens ss ss' ∧
      ∀ X, X ∈ mods ∨ Settled table ss X → Settled table ss' X := by
  induction mods generalizing ss with
  | nil =>
    cases h
    exact ⟨hfair, widens_of_nodes rfl, fun X hX => hX.resolve_left List.not_mem_nil⟩
  | cons mod mods ih =>
    obtain ⟨_, ss₁, hturn, hrest⟩ := of_bind h
    obtain ⟨hfair', hwidens, hsettled⟩ := ih (fair_of_turn hfair hturn) hrest
    refine ⟨hfair', (widens_of_turn hturn).trans hwidens, fun X hX => hsettled X ?_⟩
    rcases hX with hX | hX
    · rcases List.mem_cons.mp hX with rfl | hX
      · exact .inr (settled_of_turn hfair hturn)
      · exact .inl hX
    · exact .inr (hX.turn hfair hturn)

lemma settled_of_spread (hfair : Fair table (fun _ => False) ss)
    (h : spread table ss = (.ok v, ss')) :
    Fair table (fun _ => False) ss' ∧ ∀ X, Settled table ss' X := by
  have h : ss.nodes.keys.forM (turn table) ss = (.ok v, ss') := h
  obtain ⟨hfair', hwidens, hsettled⟩ := settled_of_turns hfair h
  refine ⟨hfair', fun X => ?_⟩
  cases hn : ss.node? X with
  | none =>
    have hsome := hwidens.isSome X
    rw [hn] at hsome
    exact settled_of_none (Option.isSome_eq_false_iff.mp hsome |> Option.isNone_iff_eq_none.mp)
  | some n => exact hsettled X (.inl (mem_keys_iff.mpr (contains_of_get? hn)))

/-! ### Spreading that does not stop early -/

variable (table) in
def SimpleCallers (ss : Sinks) : Prop :=
  ∀ X x, ∀ caller ∈ callersOf table ss X x, caller.toList.count '#' ≤ 1

lemma Widens.simpleCallers (h : Widens ss ss') (hss : SimpleCallers table ss) :
    SimpleCallers table ss' := by
  intro X x caller hcaller
  rw [h.callersOf] at hcaller
  exact hss X x caller hcaller

lemma upholds_reachCaller (h : caller.toList.count '#' ≤ 1) :
    Upholds (fun _ => False) (SimpleCallers table) (SimpleCallers table)
    (reachCaller mod caller) := by
  have hlength : (splitOn caller "#").length = caller.toList.count '#' + 1 :=
    length_splitOn rfl caller
  unfold reachCaller
  rcases hparts : splitOn caller "#" with _ | ⟨a, _ | ⟨b, _ | ⟨c, rest⟩⟩⟩
  · rw [hparts] at hlength
    simp at hlength
  · exact fun ss => widens_addBareMethod.simpleCallers
  · intro ss hss
    simp only [run_bind, run_get]
    cases ss.node? a with
    | none => exact hss
    | some n =>
      dsimp only
      rw [run_ite]
      split_ifs
      · exact hss
      · exact (widens_addBareMethod.trans (widens_markFollowed a _)).simpleCallers hss
  · rw [hparts] at hlength
    simp at hlength
    omega

lemma upholds_reachRounds {callers : NameTable}
    (h : ∀ method, ∀ caller ∈ callers.getD method [], caller.toList.count '#' ≤ 1) (seen : Names) :
    Upholds (fun _ => False) (SimpleCallers table) (SimpleCallers table)
      (reachRounds mod callers fuel seen) := by
  induction fuel generalizing seen with
  | zero => exact .pure
  | succ fuel ih =>
    intro ss hss
    cases hn : ss.node? mod with
    | none =>
      have hrun : reachRounds mod callers (fuel + 1) seen ss = (.ok (), ss) := by
        simp [reachRounds, run_bind, hn]
      rw [hrun]
      exact hss
    | some n =>
      rw [run_reachRounds hn]
      split_ifs
      · exact hss
      · refine Upholds.bind (.forM fun method _ => .forM fun caller hcaller => ?_)
          (fun _ => Upholds.bind (fun ss => ?_) fun _ => ih _) ss hss
        · exact upholds_reachCaller (h method caller hcaller)
        · exact (widens_markFollowed mod ss).simpleCallers

lemma upholds_spread :
    Upholds (fun _ => False) (SimpleCallers table) (SimpleCallers table) (spread table) := by
  refine fun ss hss => Upholds.forM (fun mod (_ : mod ∈ ss.nodes.keys) ss hss => ?_) ss hss
  rcases run_turn table mod ss with ⟨-, hrun⟩ | ⟨n, hn, -, hrun⟩
  · rw [hrun]
    exact hss
  · have hrows : ∀ method, ∀ caller ∈ (table n.callers).getD method [],
        caller.toList.count '#' ≤ 1 := by
      intro method caller hcaller
      refine hss mod method caller ?_
      rw [callersOf, hn]
      exact hcaller
    rw [hrun]
    exact upholds_reachRounds hrows _ ss hss

/-! ### Histories -/

variable (table) in
/-- The states that nodes come to by methods that are added and by spreading. -/
inductive Reached : Sinks → Prop
  | start {ss : Sinks} (h : ∀ X n, ss.node? X = some n → n.followed = 0) : Reached ss
  | add {ss ss' : Sinks} (h : Reached ss) (mod method : String) (l : Links)
      (hadd : ss'.nodes = (withMethod mod method l ss).nodes) : Reached ss'
  | spread {ss ss' : Sinks} (h : Reached ss) (hspread : spread table ss = (.ok (), ss')) :
      Reached ss'

lemma fair_start (h : ∀ X n, ss.node? X = some n → n.followed = 0) :
    Fair table (fun _ => False) ss where
  counted X n hn := by
    rw [h X n hn]
    exact Int.natCast_nonneg _
  settled X n _ hn hfollowed := by
    refine .inl fun _ _ _ _ hmethod => ?_
    obtain ⟨m, hm, hkey⟩ := hasMethod_iff.mp hmethod
    obtain rfl := Option.some.inj (hn.symm.trans hm)
    rw [h X n hn, ← length_keys] at hfollowed
    have hnil : n.methodUsers.keys = [] := List.length_eq_zero_iff.mp (by omega)
    have hmem := mem_keys_iff.mpr hkey
    rw [hnil] at hmem
    cases hmem

lemma fair_add (hadd : ss'.nodes = (withMethod mod method l ss).nodes)
    (hfair : Fair table (fun _ => False) ss) : Fair table (fun _ => False) ss' := by
  have hwidens := widens_withMethod.trans (widens_of_nodes hadd)
  refine ⟨hfair.counted.withMethod.of_nodes hadd, fun X n _ hn hfollowed => ?_⟩
  have hn' := hn
  rw [node?_eq_of_nodes hadd, node?_adjustNode] at hn
  split_ifs at hn with hX
  · -- A new method makes the count too small, so the method was there before.
    obtain ⟨n₀, hn₀, rfl⟩ := Option.map_eq_some_iff.mp hn
    have hcount := hfair.counted X n₀ hn₀
    rw [size_set] at hfollowed
    split_ifs at hfollowed with hold
    · refine hwidens.settled (fun x hx => ?_) (hfair.settled X n₀ id hn₀ hfollowed)
      rw [HasMethod, links?_eq_of_nodes hadd] at hx
      rcases hasMethod_withMethod.mp hx with hx | ⟨⟨-, rfl⟩, -⟩
      · exact hx
      · exact hasMethod_iff.mpr ⟨n₀, hn₀, hold⟩
    · push_cast at hfollowed
      omega
  · exact hwidens.settled_of_node (hn'.trans hn.symm) (hfair.settled X n id hn hfollowed)

lemma fair_of_reached (h : Reached table ss) : Fair table (fun _ => False) ss := by
  induction h with
  | start h => exact fair_start h
  | add _ mod method l hadd ih => exact fair_add hadd ih
  | spread _ hspread ih => exact (settled_of_spread ih hspread).1

/-- After spreading, the callers of a module's methods lead to a sink too, unless a method of
another module has a caller in this one. It ends if no caller has more than one mark. -/
theorem spread_closed_or_asked {ss : Sinks} (h : Reached table ss) :
    (∀ ss', spread table ss = (.ok (), ss') → ∀ mod, Closed table ss' mod ∨ Asked table ss' mod) ∧
    ((∀ mod method, ∀ caller ∈ callersOf table ss mod method, caller.toList.count '#' ≤ 1) →
      ∃ ss', spread table ss = (.ok (), ss')) := by
  refine ⟨fun ss' hspread => (settled_of_spread (fair_of_reached h) hspread).2, fun hcallers => ?_⟩
  have hend := upholds_spread ss hcallers
  rcases hrun : spread table ss with ⟨_ | _, ss'⟩
  · rw [hrun] at hend
    exact hend.elim
  · exact ⟨ss', rfl⟩

def ownCallers : Callers
  | .own callers => callers
  | .ofModule _ => {}

/-- The method `m` of `b` is called by `c` of `a`, which is called by `d` of `a`. -/
def crossing : Sinks where
  nodes := Table.ofList
    [("a", { callers := .own (Table.ofList [("c", ["d"])]) }),
      ("b", { methodUsers := Table.ofList [("m", ⟨0, 1⟩)]
              callers := .own (Table.ofList [("m", ["a#c"])]) })]

lemma reached_crossing : Reached ownCallers crossing := by
  refine .start fun X n hn => ?_
  have hmem := mem_entries_of_get? hn
  have hall : ∀ e ∈ crossing.nodes.entries, e.2.followed = 0 := by decide +kernel
  exact hall _ hmem

lemma count_callersOf_crossing (mod method caller : String)
    (h : caller ∈ callersOf ownCallers crossing mod method) : caller.toList.count '#' ≤ 1 := by
  have hall : ∀ e ∈ crossing.nodes.entries, ∀ row ∈ (ownCallers e.2.callers).entries,
      ∀ caller ∈ row.2, caller.toList.count '#' ≤ 1 := by decide +kernel
  unfold callersOf getD at h
  cases hn : crossing.node? mod with
  | none =>
    rw [hn] at h
    cases h
  | some n =>
    rw [hn] at h
    cases hrow : (ownCallers n.callers).get? method with
    | none =>
      simp only [Option.map_some, Option.getD_some, hrow] at h
      cases h
    | some row =>
      simp only [Option.map_some, Option.getD_some, hrow] at h
      exact hall _ (mem_entries_of_get? hn) _ (mem_entries_of_get? hrow) caller h

theorem spread_crossing_closed_or_asked :
    Reached ownCallers crossing ∧ ∃ ss', spread ownCallers crossing = (.ok (), ss') ∧
      (Closed ownCallers ss' "b" ∨ Asked ownCallers ss' "b") ∧
      (Closed ownCallers ss' "a" ∨ Asked ownCallers ss' "a") := by
  obtain ⟨hsettled, hend⟩ := spread_closed_or_asked reached_crossing
  obtain ⟨ss', hrun⟩ := hend count_callersOf_crossing
  exact ⟨reached_crossing, ss', hrun, hsettled ss' hrun "b", hsettled ss' hrun "a"⟩

/-- The caller `d` of `c`, which comes from the turn of `b`, is not followed. -/
theorem crossing_not_closed : Reached ownCallers crossing ∧
      ∃ ss', spread ownCallers crossing = (.ok (), ss') ∧ ss'.HasMethod "a" "c" ∧
        "d" ∈ callersOf ownCallers ss' "a" "c" ∧ ¬ ss'.HasMethod "a" "d" ∧
        ∃ ss'', spread ownCallers ss' = (.ok (), ss'') ∧ ¬ ss''.HasMethod "a" "d" := by
  have hfirst : (spread ownCallers crossing).1.toOption = some () := by decide +kernel
  have hsecond : (spread ownCallers (spread ownCallers crossing).2).1.toOption = some () := by
    decide +kernel
  refine ⟨reached_crossing, _, eq_of_toOption hfirst, ?_, ?_, ?_, _, eq_of_toOption hsecond, ?_⟩
  all_goals decide +kernel

end Sinks

end SinkTrace
